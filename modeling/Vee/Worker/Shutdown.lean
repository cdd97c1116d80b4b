import Vee.Worker.SingleRunner

/- Callers that wait for a promise when the worker is shut down.

   A promise is made in the main loop only, so a caller that waits for one after the
   thread has left its loop waits until the worker is started again: it is stranded. It
   gets there in two ways. The thread's test of the state ends its loop while the caller
   waits already; or the caller reads the state after the loop has ended and before the
   final exchange, when it is still `shutdown`. A run strands nobody exactly when none
   of its steps is such a read (`strands_none_iff`). `shutdown` can strand itself, with
   the empty task it sends to wake the worker (`shutdown_strands_itself`). -/
namespace Vee.Worker
open Transition

variable {w : Nat} {J T : Type*}

/-- Past the main loop. -/
def WorkerPc.Over : WorkerPc w → Prop
  | finalExchange | exited | threw => True
  | _ => False

instance : ∀ p : WorkerPc w, Decidable p.Over
  | .finalExchange | .exited | .threw => isTrue trivial
  | .unborn | .load | .test _ | .makePromise | .sleep _ | .wait _ | .resetPromise _ | .dequeue
  | .run | .reset | .jobProcessed | .fetchSub => isFalse id

/-- The worker has been started, every thread it launched has left its main loop, and
no other one is about to be launched. -/
def System.Left (s : System w J T) : Prop :=
  0 < s.launched ∧ (∀ k < s.launched, (s.threads k).Over) ∧ ∀ t, ¬ s.Launching t

/-- A caller is in `while (_promise == nullptr)` and nobody is left to make a promise. -/
def System.Stranded (s : System w J T) : Prop :=
  (∃ t, s.requests t = some .awaitPromise) ∧ s.mem.promise = none ∧ s.Left

/-- The step reads the state too early or too late: a thread's test of it ends the main
loop while a caller waits for a promise, or a caller that owes a signal reads it between
the end of the loop and the final exchange. -/
def System.Misread (s : System w J T) : Action J T → Prop
  | .work k => (∃ r, s.threads k = .test r) ∧ s.mem.state ≠ .running ∧
      ∃ t, s.requests t = some .awaitPromise
  | .run t => s.requests t = some .loadState ∧ ∃ k, s.threads k = .finalExchange
  | .call _ _ => False

/-- What every reachable state has besides a single runner: a thread that was launched
is born, and only a thread in its loop has a promise. -/
structure Tended (s : System w J T) : Prop where
  runner : SingleRunner s
  born : ∀ k < s.launched, s.threads k ≠ .unborn
  promise : s.mem.promise ≠ none → ∃ k, (s.threads k).slept ≠ none

theorem WorkerPc.inMain_of_slept {p : WorkerPc w} (h : p.slept ≠ none) :
    p.InMain ∧ ¬ p.Over := by
  cases p <;> simp_all [WorkerPc.slept, WorkerPc.InMain, WorkerPc.Over]

theorem WorkerPc.over_of_inMain {p : WorkerPc w} (h : p.InMain) (ho : p.Over) :
    p = .finalExchange := by
  cases p <;> simp_all [WorkerPc.InMain, WorkerPc.Over]

theorem WorkerPc.over_of_not_inMain {p : WorkerPc w} (h : ¬ p.InMain) (hb : p ≠ .unborn) :
    p.Over := by
  cases p <;> simp_all [WorkerPc.InMain, WorkerPc.Over]

/-- A promise stays with the thread that made it. -/
theorem WorkMove.promise {m m' : Memory w J} {p p' : WorkerPc w} (h : WorkMove m p m' p') :
    p'.slept ≠ none ∨ m'.promise = none ∨ p.slept = none ∧ m'.promise = m.promise := by
  cases h <;> simp [WorkerPc.slept]

section
variable {s : System w J T}

/-- Nobody but a thread at its final exchange is in the main function. -/
theorem Tended.left_iff (h : Tended s) : s.Left ↔ 0 < s.launched ∧ (∀ t, ¬ s.Launching t) ∧
    ∀ k, (s.threads k).InMain → s.threads k = .finalExchange := by
  refine ⟨?_, ?_⟩
  · intro hleft
    obtain ⟨hpos, hover, hnone⟩ := hleft
    refine ⟨hpos, hnone, ?_⟩
    intro k hk
    have hlt : k < s.launched := by
      by_contra hge
      rw [h.runner.unborn k (by omega)] at hk
      exact hk
    exact WorkerPc.over_of_inMain hk (hover k hlt)
  · intro hfinal
    obtain ⟨hpos, hnone, hmain⟩ := hfinal
    refine ⟨hpos, ?_, hnone⟩
    intro k hlt
    by_cases hk : (s.threads k).InMain
    · rw [hmain k hk]
      trivial
    · exact WorkerPc.over_of_not_inMain hk (h.born k hlt)

/-- A thread at its final exchange has left, and so has every other one. -/
theorem Tended.left_of_final (h : Tended s) {k : Nat} (hk : s.threads k = .finalExchange) :
    s.Left := by
  have hmain : (s.threads k).InMain := by
    rw [hk]
    trivial
  refine h.left_iff.mpr ⟨?_, fun t ht => h.runner.apart t k ht hmain, ?_⟩
  · by_contra hzero
    rw [h.runner.unborn k (by omega)] at hk
    cases hk
  · intro j hj
    rw [h.runner.main j k hj hmain, hk]

/-- No promise is left behind. -/
theorem Tended.promise_of_left (h : Tended s) (hleft : s.Left) : s.mem.promise = none := by
  by_contra hne
  obtain ⟨k, hk⟩ := h.promise hne
  obtain ⟨hmain, hover⟩ := WorkerPc.inMain_of_slept hk
  rw [(h.left_iff.mp hleft).2.2 k hmain] at hover
  exact hover trivial

/-- A worker that has left and is not in standby is about to make its final exchange. -/
theorem Tended.final_of_left (h : Tended s) (hleft : s.Left) (hst : s.mem.state ≠ .standby) :
    ∃ k, s.threads k = .finalExchange := by
  obtain ⟨-, hnone, hmain⟩ := h.left_iff.mp hleft
  rcases h.runner.held hst with ⟨t, ht⟩ | ⟨k, hk⟩
  · exact absurd ht (hnone t)
  · exact ⟨k, hmain k hk⟩

end

section
variable [DecidableEq T] {size : QueueSize w} {s s' : System w J T} {a : Action J T}

theorem Tended.step (h : Tended s) (hs : Stepped size s a s') : Tended s' := by
  refine ⟨h.runner.step hs, ?_, ?_⟩
  · intro k hk
    rcases hs.threads with ⟨t, p, -, -, hthreads, hlaunched, -⟩ | ⟨t, -, -, hlaunched, hthreads⟩ |
      ⟨j, p, hm, -, -, hlaunched, hthreads⟩
    · rw [hthreads]
      exact h.born k (by omega)
    · by_cases hkl : k = s.launched
      · simp [hthreads, hkl]
      · rw [hthreads, Function.update_of_ne hkl]
        exact h.born k (by omega)
    · by_cases hkj : k = j
      · rw [hthreads, hkj, Function.update_self]
        exact hm.ne_unborn
      · rw [hthreads, Function.update_of_ne hkj]
        exact h.born k (by omega)
  · intro hne
    rcases hs.threads with ⟨t, p, -, -, hthreads, -, hpromise, -⟩ | ⟨t, ht, hmem, -, hthreads⟩ |
      ⟨j, p, hm, -, -, -, hthreads⟩
    · rw [hpromise] at hne
      rw [hthreads]
      exact h.promise hne
    · -- nobody is in the main function when a thread is launched
      rw [hmem] at hne
      obtain ⟨k, hk⟩ := h.promise hne
      exact absurd (WorkerPc.inMain_of_slept hk).1 (h.runner.apart t k ht)
    · rcases hm.promise with hslept | hnone | ⟨hslept, hsame⟩
      · exact ⟨j, by rwa [hthreads, Function.update_self]⟩
      · exact absurd hnone hne
      · rw [hsame] at hne
        obtain ⟨k, hk⟩ := h.promise hne
        obtain rfl := h.runner.main k j (WorkerPc.inMain_of_slept hk).1 hm.inMain
        exact absurd hslept hk

omit [DecidableEq T] in
theorem tended_init : Tended (System.init : System w J T) where
  runner := singleRunner_init
  born k hk := by simp [System.init] at hk
  promise hne := absurd rfl hne

/-- A caller that reads that the worker is not in standby waits for a promise. -/
theorem Stepped.await {t : T} (hs : Stepped size s (.run t) s')
    (ht : s.requests t = some .loadState) (hst : s.mem.state ≠ .standby) :
    s'.requests t = some .awaitPromise ∧ s'.threads = s.threads := by
  obtain ⟨who, hpc⟩ : ∃ who, s.callers t = .request who .loadState := by
    simp only [System.requests] at ht
    cases hc : s.callers t <;> simp_all [CallerPc.requesting]
  cases hs with
  | request _ who pc pc' m ht hm =>
    obtain ⟨rfl, rfl⟩ := CallerPc.request.inj (hpc.symm.trans ht)
    cases hm with
    | awake => simp [System.goto, System.requests, CallerPc.requesting]
    | standby hstandby => exact absurd hstandby hst
  | answered _ who pc m count ht hm | satisfied _ who pc m ht hm | nullPromise _ who pc m ht hm =>
    obtain ⟨rfl, rfl⟩ := CallerPc.request.inj (hpc.symm.trans ht)
    cases hm
  | _ => simp_all

/-- A thread that is past its main loop after a step was so before it, or has just tested
the state. -/
theorem WorkMove.over {m m' : Memory w J} {p p' : WorkerPc w} (h : WorkMove m p m' p')
    (hover : p'.Over) : p = .finalExchange ∨ (∃ r, p = .test r) ∧ m.state ≠ .running := by
  cases h with
  | leave r hst => exact .inr ⟨⟨r, rfl⟩, hst⟩
  | finish | unexpected => exact .inl rfl
  | _ => exact hover.elim

/-- A read at the wrong time strands a caller. -/
theorem Tended.strand (h : Tended s) (hs : Stepped size s a s') (hread : s.Misread a) :
    s'.Stranded := by
  have h' := h.step hs
  cases a with
  | call t call => exact hread.elim
  | run t =>
    obtain ⟨ht, k, hk⟩ := hread
    have hst : s.mem.state ≠ .standby := by simp [h.runner.leaving k hk]
    obtain ⟨hawait, hthreads⟩ := hs.await ht hst
    have hleft := h'.left_of_final (k := k) (by rw [hthreads, hk])
    exact ⟨⟨t, hawait⟩, h'.promise_of_left hleft, hleft⟩
  | work k =>
    obtain ⟨⟨r, hk⟩, hst, t, ht⟩ := hread
    cases hs with
    | work _ m p hm =>
      obtain rfl : p = .finalExchange := by
        rw [hk] at hm
        cases hm with
        | idle hrun | busy hrun => exact absurd ‹_› hst
        | leave => rfl
      have hleft := h'.left_of_final (k := k) (by simp)
      exact ⟨⟨t, ht⟩, h'.promise_of_left hleft, hleft⟩

/-- Without such a read no caller is stranded anew. -/
theorem Tended.spare (h : Tended s) (hs : Stepped size s a s') (hfree : ¬ s.Stranded)
    (hread : ¬ s.Misread a) : ¬ s'.Stranded := by
  intro hstranded
  obtain ⟨⟨u, hu⟩, hnone, hleft⟩ := hstranded
  rcases hs.threads with ⟨t, p, hcallers, ht, hthreads, hlaunched, hpromise, hawait⟩ |
    ⟨t, -, -, hlaunched, hthreads⟩ | ⟨k, p, hm, rfl, hcallers, -, hthreads⟩
  -- a caller moves: the worker had left before, so the caller has just read the state
  · have hleft₀ : s.Left := by
      refine ⟨hlaunched ▸ hleft.1, fun k hk => ?_, fun v hv => hleft.2.2 v ?_⟩
      · simpa only [hthreads] using hleft.2.1 k (by omega)
      · have hvt : v ≠ t := by
          intro heq
          subst heq
          exact ht hv
        rwa [System.Launching, hcallers, Function.update_of_ne hvt]
    have hfree' : ∀ v, s.requests v ≠ some .awaitPromise :=
      fun v hv => hfree ⟨⟨v, hv⟩, h.promise_of_left hleft₀, hleft₀⟩
    by_cases hut : u = t
    · rw [System.requests, hcallers, hut, Function.update_self] at hu
      rcases hawait hu with hwait | ⟨rfl, hload, hst⟩
      · exact hfree' t hwait
      · exact hread ⟨hload, h.final_of_left hleft₀ hst⟩
    · rw [System.requests, hcallers, Function.update_of_ne hut] at hu
      exact hfree' u hu
  · -- the thread that is launched has not left
    have hover := hleft.2.1 s.launched (by omega)
    rw [hthreads, Function.update_self] at hover
    exact hover
  -- a thread moves: it had left before, or it leaves with this step
  · have hu' : s.requests u = some .awaitPromise := by simpa [System.requests, hcallers] using hu
    have h' := h.step hs
    have hself : s'.threads k = p := by rw [hthreads, Function.update_self]
    have hover : p.Over := by
      by_cases hp : p.InMain
      · rw [← hself] at hp
        rw [← hself, (h'.left_iff.mp hleft).2.2 k hp]
        trivial
      · exact WorkerPc.over_of_not_inMain hp hm.ne_unborn
    rcases hm.over hover with hk | ⟨htest, hst⟩
    · have hleft₀ := h.left_of_final hk
      exact hfree ⟨⟨u, hu'⟩, h.promise_of_left hleft₀, hleft₀⟩
    · exact hread ⟨htest, hst, u, hu'⟩

/-! ## Runs -/

theorem tended_run {tr : List (System w J T × Action J T)}
    (h : Run (System.step size) System.init tr s) : Tended s :=
  h.invariant (C := fun _ _ => True) tended_init
    (fun _ _ _ hi _ hs => hi.step (System.step_cases hs).2) (fun _ _ => trivial)

/-- **Stranded callers.** A run of any callers, of `start` and of `shutdown` passes
through no state with a stranded caller if and only if none of its steps reads the state
at the wrong time. -/
theorem strands_none_iff {tr : List (System w J T × Action J T)}
    (h : Run (System.step size) System.init tr s) :
    (∀ m ∈ visited tr s, ¬ m.Stranded) ↔ Meets (fun m a => ¬ m.Misread a) tr := by
  induction h with
  | nil =>
    have hinit : ¬ (System.init : System w J T).Stranded := by
      intro hstranded
      obtain ⟨⟨t, ht⟩, -⟩ := hstranded
      simp [System.init, System.requests, CallerPc.requesting] at ht
    simpa [visited, meets_nil] using hinit
  | @snoc tr m s' a hr hs ih =>
    have htended := tended_run hr
    have hstep := (System.step_cases hs).2
    rw [meets_snoc]
    refine ⟨?_, ?_⟩
    · intro hfree
      refine ⟨ih.mp fun x hx => hfree x (mem_visited_snoc.mpr (.inl hx)), ?_⟩
      intro hread
      exact hfree s' (mem_visited_snoc.mpr (.inr rfl)) (htended.strand hstep hread)
    · intro hok x hx
      have hfree := ih.mpr hok.1
      rcases mem_visited_snoc.mp hx with hx | rfl
      · exact hfree x hx
      · exact htended.spare hstep (hfree m (by simp [visited])) hok.2

end

instance [Fintype T] [DecidableEq J] (s : System w J T) : Decidable s.Left :=
  inferInstanceAs (Decidable (0 < s.launched ∧ (∀ k < s.launched, (s.threads k).Over) ∧
    ∀ t, ¬ s.callers t = .start .launch))

instance [Fintype T] [DecidableEq J] (s : System w J T) : Decidable s.Stranded :=
  inferInstanceAs (Decidable ((∃ t, s.requests t = some .awaitPromise) ∧
    s.mem.promise = none ∧ s.Left))

theorem strands_none_iff_restart : ∃ (tr : _) (s : System 64 Nat Bool),
    Run (System.step twoJobs) System.init tr s ∧ tr.map Prod.snd = restart ∧
      (∀ m ∈ visited tr s, ¬ m.Stranded) ∧ Meets (fun m a => ¬ m.Misread a) tr := by
  have hrun : ∃ (tr : _) (s : System 64 Nat Bool), Run (System.step twoJobs) System.init tr s ∧
      Meets (fun m _ => ¬ m.Stranded) tr ∧ tr.map Prod.snd = restart ∧ ¬ s.Stranded :=
    Run.of_execMeets_any _ (by decide)
  obtain ⟨tr, s, hr, hok, ha, hlast⟩ := hrun
  have hfree : ∀ m ∈ visited tr s, ¬ m.Stranded := by
    intro m hm
    rcases List.mem_append.mp hm with hm | hm
    · obtain ⟨p, hp, rfl⟩ := List.mem_map.mp hm
      exact hok p hp
    · obtain rfl := List.mem_singleton.mp hm
      exact hlast
  exact ⟨tr, s, hr, ha, hfree, (strands_none_iff hr).mp hfree⟩

/-- `shutdown` comes between the last job and its count: the thread uncounts it and
leaves, and `shutdown` sends its empty task before the final exchange. -/
def lateShutdown : List (Action Nat Bool) :=
  calls false .start 3 ++ works 0 4 ++ calls true (.request 7 false) 6 ++ works 0 6 ++
    calls true (.shutdown true) 1 ++ works 0 2 ++ runs true 4

theorem shutdown_strands_itself : ∃ (tr : _) (s : System 64 Nat Bool),
    Run (System.step twoJobs) System.init tr s ∧ tr.map Prod.snd = lateShutdown ∧
      s.callers true = .request (.shutdown true) .awaitPromise ∧ s.Stranded := by
  have hrun : ∃ (tr : _) (s : System 64 Nat Bool), Run (System.step twoJobs) System.init tr s ∧
      tr.map Prod.snd = lateShutdown ∧
      (s.callers true = .request (.shutdown true) .awaitPromise ∧ s.Stranded) :=
    Run.of_exec_any _ (by decide)
  exact hrun

end Vee.Worker
