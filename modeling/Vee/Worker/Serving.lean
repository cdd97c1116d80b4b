import Vee.Worker.Handshake

/- A worker that is never shut down.

   From its construction on, with any callers and any moment of `start`, the
   handshake is an invariant of the runs in which the thread's first load of
   `_remained` finds no caller pending (`QuietLoad`). Then every `_epoch` finds a
   job, the counter never wraps and no promise is set twice (`quiet_sound`).

   Otherwise the thread takes a count for which a caller still owes a signal: it
   runs the job without sleeping, goes to sleep, is woken by the late signal and
   runs `_epoch` on an empty queue (`late_signal_unsound`). -/
namespace Vee.Worker
open Transition
open Lockfree (Next)

variable {w : Nat} {J T : Type*}

/-- In `shutdown`, its request included. -/
def CallerPc.InShutdown : CallerPc w J → Prop
  | request (.shutdown _) _ | shutdown _ _ => True
  | _ => False

/-- The action is no call of `shutdown`. -/
def Action.NoShutdown : Action J T → Prop
  | .call _ (.shutdown _) => False
  | _ => True

instance : ∀ a : Action J T, Decidable a.NoShutdown
  | .call _ (.shutdown _) => isFalse id
  | .call _ (.request _ _) | .call _ .start | .run _ | .work _ => isTrue trivial

/-- If the step is a thread's first load of `_remained`, no caller is pending. -/
def System.QuietLoad (s : System w J T) : Action J T → Prop
  | .work k => s.threads k = .load → ∀ t, ¬ Pending (s.requests t)
  | _ => True

instance [Fintype T] (s : System w J T) : ∀ a, Decidable (s.QuietLoad a)
  | .work k => inferInstanceAs (Decidable (s.threads k = .load → ∀ t, ¬ Pending (s.requests t)))
  | .call .. | .run _ => isTrue trivial

/-- `_epoch` finds a job, `_remained` does not wrap either way, and no promise is set twice. -/
structure System.Sound (s : System w J T) : Prop where
  epoch : ∀ k, s.threads k = .dequeue → s.mem.queue ≠ []
  uncounted : ∀ k, s.threads k = .fetchSub → s.mem.remained ≠ 0
  counted : ∀ t who, s.callers t = .request who .fetchAdd → s.mem.remained.toNat + 1 < 2 ^ w
  promises : ∀ q, s.mem.signals q ≤ 1

/-- The invariant of a worker that is not shut down: it has or will have one thread, `k`. -/
structure Serving (size : QueueSize w) (k : Nat) (s : System w J T) : Prop where
  runner : SingleRunner s
  handshake : Handshake size s.mem (s.threads k) s.requests
  outside : ∀ t, ¬ (s.callers t).InShutdown
  state : s.mem.state ≠ .shutdown
  others : ∀ j, j ≠ k → ¬ (s.threads j).InMain
  born : s.threads k = .unborn → s.launched = k

section
variable {size : QueueSize w} {m : Memory w J} {p : WorkerPc w} {cs : T → Option (RequestPc w)}

/-- The handle of the thread takes no part in the handshake. -/
theorem Handshake.assign (h : Handshake size m p cs) (thr : Option Nat) :
    Handshake size { m with thr := thr } p cs := by
  obtain ⟨h₁, h₂, h₃, h₄, h₅, h₆, h₇, h₈, h₉, h₁₀, h₁₁, h₁₂⟩ := h
  constructor
  case awake => exact fun ha => h₁₁ (by cases p <;> exact ha)
  case asleep => exact fun ha => h₁₂ (by cases p <;> exact ha)
  all_goals assumption

/-- The worker leaves standby. -/
theorem Handshake.start (h : Handshake size m .unborn cs) (st : State) :
    Handshake size { m with state := st } .unborn cs := by
  obtain ⟨h₁, h₂, h₃, h₄, h₅, h₆, h₇, h₈, h₉, h₁₀, h₁₁, h₁₂⟩ := h
  constructor
  case running => exact fun hne => absurd rfl hne
  case awake => exact fun ha => ha.elim
  case asleep => exact fun ha => ha.elim
  all_goals assumption

/-- The thread of the worker starts. -/
theorem Handshake.launch (h : Handshake size m .unborn cs) (hst : m.state = .running) :
    Handshake size m .load cs := by
  obtain ⟨h₁, h₂, h₃, h₄, h₅, h₆, h₇, h₈, h₉, h₁₀, h₁₁, h₁₂⟩ := h
  constructor
  case running => exact fun _ => hst
  case here => exact .inr ⟨trivial, by simp⟩
  case awake => exact fun ha => ha.elim
  case asleep => exact fun ha => ha.elim
  all_goals assumption

end

variable {size : QueueSize w} {k : Nat} {s s' : System w J T} {a : Action J T}

/-- A thread in `_worker_main` is the one of the worker. -/
theorem Serving.only (h : Serving size k s) {j : Nat} (hj : (s.threads j).InMain) : j = k := by
  by_contra hne
  exact h.others j hne hj

/-- The thread that a caller launches is the one of the worker. -/
theorem Serving.launching (h : Serving size k s) {t : T} (ht : s.Launching t) :
    s.threads k = .unborn ∧ s.launched = k := by
  have hunborn : s.threads k = .unborn := by
    rcases h.handshake.here with hp | ⟨hp, -⟩
    · exact hp
    · exact absurd hp (h.runner.apart t k ht)
  exact ⟨hunborn, h.born hunborn⟩

/-- Out of standby since the exchange, and nobody shuts the worker down. -/
theorem Serving.running_of_launching (h : Serving size k s) {t : T} (ht : s.Launching t) :
    s.mem.state = .running := by
  have hne := h.runner.launching_state t ht
  have hno := h.state
  generalize s.mem.state = st at hne hno
  cases st with
  | standby => exact absurd rfl hne
  | running => rfl
  | shutdown => exact absurd rfl hno

theorem Serving.sound (h : Serving size k s) (hone : ∀ q, s.mem.signals q ≤ 1) : s.Sound where
  epoch j hj := by
    obtain rfl := h.only (by rw [hj]; trivial)
    have hh := h.handshake
    rw [hj] at hh
    exact hh.queue_ne_nil
  uncounted j hj := by
    obtain rfl := h.only (by rw [hj]; trivial)
    have hh := h.handshake
    rw [hj] at hh
    exact (hh.awake trivial).1
  counted t who ht :=
    h.handshake.remained_lt (t := t) (by simp [System.requests, ht, CallerPc.requesting])
  promises := hone

variable [DecidableEq T]

omit [DecidableEq T] in
theorem serving_init : Serving size 0 (System.init : System w J T) where
  runner := singleRunner_init
  handshake := by
    constructor
    case counts => exact ⟨∅, by simp [System.init, System.requests, CallerPc.requesting], by
      simp [System.init, Memory.init, WorkerPc.inHand]⟩
    all_goals simp [System.init, Memory.init, System.requests, CallerPc.requesting, Pending,
      WorkerPc.slept, WorkerPc.Awake, WorkerPc.Asleep]
  outside t := by simp [System.init, CallerPc.InShutdown]
  state := by simp [System.init, Memory.init]
  others j _ := by simp [System.init, WorkerPc.InMain]
  born _ := rfl

theorem requests_update {y : System w J T} {t : T} {p : CallerPc w J}
    (h : y.callers = Function.update s.callers t p) :
    y.requests = Function.update s.requests t p.requesting := by
  funext u
  by_cases hu : u = t
  · simp [System.requests, h, hu]
  · simp [System.requests, h, hu]

/-- A step of a caller that launches no thread. -/
theorem Serving.caller (h : Serving size k s) (hs : Stepped size s a s') {t : T} {p : CallerPc w J}
    (hcallers : s'.callers = Function.update s.callers t p) (hp : ¬ p.InShutdown)
    (hthreads : s'.threads = s.threads) (hlaunched : s'.launched = s.launched)
    (hstate : s'.mem.state ≠ .shutdown)
    (hh : Handshake size s'.mem (s.threads k) (Function.update s.requests t p.requesting)) :
    Serving size k s' where
  runner := h.runner.step hs
  handshake := by rwa [hthreads, requests_update hcallers]
  outside u := by
    by_cases hu : u = t
    · rwa [hcallers, hu, Function.update_self]
    · rw [hcallers, Function.update_of_ne hu]
      exact h.outside u
  state := hstate
  others := by rw [hthreads]; exact h.others
  born := by rw [hthreads, hlaunched]; exact h.born

/-- A caller that is in no request before the step nor after it. -/
theorem requests_aside {t : T} {p : CallerPc w J} (ht : (s.callers t).requesting = none)
    (hp : p.requesting = none) : Function.update s.requests t p.requesting = s.requests := by
  rw [hp, ← ht]
  exact Function.update_eq_self t s.requests

theorem Serving.step (h : Serving size k s) (hs : Stepped size s a s') (ha : a.NoShutdown)
    (hquiet : s.QuietLoad a) : Serving size k s' := by
  have hh := h.handshake
  have hs' := hs
  cases hs with
  | call t call ht =>
    have hcs : s.requests t = none := by simp [System.requests, ht, CallerPc.requesting]
    refine h.caller hs' (t := t) rfl ?_ rfl rfl h.state ?_
    · cases call with
      | shutdown sync => exact ha.elim
      | _ => exact id
    · apply hh.stay
      · cases call <;> simp [Call.enter, CallerPc.requesting, hcs, Pending]
      · simp [hcs]
      · cases call <;> simp [Call.enter, CallerPc.requesting]
      · cases call <;> simp [Call.enter, CallerPc.requesting]
  | request t who pc pc' m ht hm =>
    have hcs : s.requests t = some pc := System.requests_request ht
    have hwho : ¬ (CallerPc.request who pc').InShutdown := by
      have hout := h.outside t
      rw [ht] at hout
      cases who <;> exact hout
    refine h.caller hs' (t := t) rfl hwho rfl rfl ?_ (hh.request hcs hm)
    show m.state ≠ .shutdown
    rw [hm.state]
    exact h.state
  | answered t who pc m count ht hm =>
    have hcs : s.requests t = some pc := System.requests_request ht
    obtain ⟨p, new, heq, hp⟩ := answer_goto { s with mem := m } t count who
    rw [heq] at hs' ⊢
    -- only the request of `shutdown` goes on after its answer
    obtain rfl : p = .idle := by
      rcases hp with rfl | ⟨sync, rfl⟩
      · rfl
      · cases who with
        | user job throwing =>
          simp only [System.answer] at heq
          split at heq <;> simpa [System.goto] using congrFun (congrArg System.callers heq) t
        | shutdown sync => exact absurd (by rw [ht]; trivial) (h.outside t)
    refine h.caller hs' (t := t) rfl id rfl rfl ?_ (hh.request hcs hm)
    show m.state ≠ .shutdown
    rw [hm.state]
    exact h.state
  | satisfied t who pc m ht hm | nullPromise t who pc m ht hm =>
    obtain ⟨count, hcount⟩ := hh.result (System.requests_request ht) hm
    cases hcount
  | started t ht hst =>
    have hunborn : s.threads k = .unborn := by
      rcases hh.here with hp | ⟨hp, -⟩
      · exact hp
      · exact absurd hst (h.runner.main_state k hp)
    refine h.caller hs' (t := t) rfl id rfl rfl (by simp [System.goto]) ?_
    rw [requests_aside (by rw [ht]; rfl) rfl]
    rw [hunborn] at hh ⊢
    exact hh.start .running
  | launch t ht =>
    obtain ⟨hunborn, hnext⟩ := h.launching ht
    have hrun := h.running_of_launching ht
    rw [hunborn] at hh
    refine ⟨h.runner.step hs', ?_, ?_, h.state, ?_, ?_⟩
    · have hcs := requests_update (s := s) (y := { s with
          threads := Function.update s.threads s.launched .load
          launched := s.launched + 1 }.goto t (.start (.assign s.launched)) []) rfl
      rw [hcs, requests_aside (by rw [ht]; rfl) rfl]
      simpa [System.goto, hnext] using hh.launch hrun
    · intro u
      by_cases hu : u = t
      · simp [System.goto, hu, CallerPc.InShutdown]
      · simpa [System.goto, Function.update_of_ne hu] using h.outside u
    · intro j hj
      simpa [System.goto, hnext, Function.update_of_ne hj] using h.others j hj
    · simp [System.goto, hnext]
  | notStarted t ht =>
    refine h.caller hs' (t := t) rfl id rfl rfl h.state ?_
    rw [requests_aside (by rw [ht]; rfl) rfl]
    exact hh
  | assign t j ht =>
    refine h.caller hs' (t := t) rfl id rfl rfl h.state ?_
    rw [requests_aside (by rw [ht]; rfl) rfl]
    exact hh.assign (some j)
  | joinableThread t j ht =>
    exact ⟨h.runner.step hs', hh, h.outside, h.state, h.others, h.born⟩
  | stopped t sync ht | notStopped t sync ht | wake t sync ht | noWake t sync ht
  | tail t sync pc pc' thr ht | tailEnd t sync pc thr result ht =>
    exact absurd (by rw [ht]; trivial) (h.outside t)
  | work j m p hm =>
    obtain rfl := h.only hm.inMain
    have hwork := hh.work hm hquiet
    refine ⟨h.runner.step hs', ?_, h.outside, ?_, ?_, ?_⟩
    · show Handshake size m (Function.update s.threads j p j) s.requests
      rw [Function.update_self]
      exact hwork
    · rcases hm.state with ⟨-, hst⟩ | ⟨-, hst, -⟩ | ⟨hj, hst⟩
      · exact hst ▸ h.state
      · exact absurd hst h.state
      · exact absurd (h.runner.leaving j hj) hst
    · intro i hi
      simpa [Function.update_of_ne hi] using h.others i hi
    · intro hp
      simp only [Function.update_self] at hp
      exact absurd hp hm.ne_unborn

theorem Serving.once (h : Serving size k s) (hs : Stepped size s a s')
    (hone : ∀ q, s.mem.signals q ≤ 1) (q : Nat) : s'.mem.signals q ≤ 1 := by
  cases hs with
  | request t who pc pc' m ht hm => exact hm.once (by simp) hone q
  | answered t who pc m count ht hm =>
    obtain ⟨p, new, heq, -⟩ := answer_goto { s with mem := m } t count who
    rw [heq]
    exact hm.once (by simp) hone q
  | satisfied t who pc m ht hm | nullPromise t who pc m ht hm =>
    obtain ⟨count, hcount⟩ := h.handshake.result (System.requests_request ht) hm
    cases hcount
  | work j m p hm =>
    show m.signals q ≤ 1
    rw [hm.signals]
    exact hone q
  | _ => exact hone q

/-! ## Runs -/

/-- **The handshake**: in every run without a shutdown in which the first load of
the count is quiet, with any queue size, any callers and any moment of `start`. -/
theorem quiet_sound {tr : List (System w J T × Action J T)}
    (h : Run (System.step size) System.init tr s) (hopen : Meets (fun _ a => a.NoShutdown) tr)
    (hquiet : Meets System.QuietLoad tr) : s.Sound :=
  have hinv := h.invariant (C := fun s a => a.NoShutdown ∧ s.QuietLoad a)
    (I := fun s => Serving size 0 s ∧ ∀ q, s.mem.signals q ≤ 1)
    ⟨serving_init, fun _ => Nat.zero_le 1⟩
    (fun _ _ _ hi ha hs => ⟨hi.1.step (System.step_cases hs).2 ha.1 ha.2,
      hi.1.once (System.step_cases hs).2 hi.2⟩)
    fun p hp => ⟨hopen p hp, hquiet p hp⟩
  hinv.1.sound hinv.2

/-- A caller places a job and counts it, the worker starts and runs it, and goes to
sleep; a second caller wakes it. -/
def startAfterRequest : List (Action Nat Bool) :=
  calls false (.request 7 false) 4 ++ calls true .start 3 ++ works 0 10 ++
    calls true (.request 8 true) 6 ++ works 0 2

theorem quiet_sound_start : ∃ (tr : _) (s : System 64 Nat Bool),
    Run (System.step twoJobs) System.init tr s ∧ Meets (fun _ a => a.NoShutdown) tr ∧
      Meets System.QuietLoad tr ∧ tr.map Prod.snd = startAfterRequest ∧
      s.threads 0 = .dequeue ∧ s.Sound := by
  have hrun : ∃ (tr : _) (s : System 64 Nat Bool), Run (System.step twoJobs) System.init tr s ∧
      Meets (fun s a => a.NoShutdown ∧ s.QuietLoad a) tr ∧ tr.map Prod.snd = startAfterRequest ∧
      s.threads 0 = .dequeue :=
    Run.of_execMeets_any _ (by decide)
  obtain ⟨tr, s, hr, hok, ha, hs⟩ := hrun
  have hopen : Meets (fun _ a => a.NoShutdown) tr := fun p hp => (hok p hp).1
  have hquiet : Meets System.QuietLoad tr := fun p hp => (hok p hp).2
  exact ⟨tr, s, hr, hopen, hquiet, ha, hs, quiet_sound hr hopen hquiet⟩

/-- The caller has counted its job and not yet read the state when the thread starts;
the thread runs the job and goes to sleep before the caller signals. -/
def lateSignal : List (Action Nat Bool) :=
  calls true .start 3 ++ calls false (.request 7 false) 2 ++ works 0 10 ++ runs false 4 ++
    works 0 2

theorem late_signal_unsound : ∃ (tr : _) (s : System 64 Nat Bool),
    Run (System.step twoJobs) System.init tr s ∧ Meets (fun _ a => a.NoShutdown) tr ∧
      tr.map Prod.snd = lateSignal ∧ ¬ s.Sound := by
  have hrun : ∃ (tr : _) (s : System 64 Nat Bool), Run (System.step twoJobs) System.init tr s ∧
      Meets (fun _ a => a.NoShutdown) tr ∧ tr.map Prod.snd = lateSignal ∧
      (s.threads 0 = .dequeue ∧ s.mem.queue = []) :=
    Run.of_execMeets_any _ (by decide)
  obtain ⟨tr, s, hr, hok, ha, hp, hq⟩ := hrun
  exact ⟨tr, s, hr, hok, ha, fun hsound => hsound.epoch 0 hp hq⟩

end Vee.Worker
