import Vee.Worker.System

/- At most one thread runs a worker at a time.

   A successful compare-exchange of `start` takes the worker out of `standby`, and
   only the last step of `_worker_main` puts it back. In between exactly one party
   runs the worker: the caller of `start` until it has launched the thread, then
   the thread, until its final exchange (`SingleRunner`). A thread gets to that
   exchange by seeing that the worker is not running, and nobody else changes the
   state then, so the exchange succeeds (`single_runner`). -/
namespace Vee.Worker
open Transition

variable {w : Nat} {J T : Type*}

/-- Between the entry of `_worker_main` and its final compare-exchange. -/
def WorkerPc.InMain : WorkerPc w → Prop
  | unborn | exited | threw => False
  | _ => True

/-- At a point that reads or writes `_current_job`. -/
def WorkerPc.UsesJob : WorkerPc w → Prop
  | dequeue | run | reset => True
  | _ => False

theorem WorkerPc.UsesJob.inMain {p : WorkerPc w} (h : p.UsesJob) : p.InMain := by
  cases p <;> trivial

/-- The promise of the current round. -/
def WorkerPc.slept : WorkerPc w → Option Nat
  | sleep p | wait p | resetPromise p => some p
  | _ => none

/-- The cycle of the states. -/
def State.next : State → State
  | standby => running
  | running => shutdown
  | shutdown => standby

/-- The caller has taken the worker out of `standby` and has not launched its thread yet. -/
def System.Launching (s : System w J T) (t : T) : Prop := s.callers t = .start .launch

/-- Exactly one party runs a worker that is not in standby, and none one that is. -/
structure SingleRunner (s : System w J T) : Prop where
  launching : ∀ t u, s.Launching t → s.Launching u → t = u
  main : ∀ j k, (s.threads j).InMain → (s.threads k).InMain → j = k
  apart : ∀ t k, s.Launching t → ¬ (s.threads k).InMain
  launching_state : ∀ t, s.Launching t → s.mem.state ≠ .standby
  main_state : ∀ k, (s.threads k).InMain → s.mem.state ≠ .standby
  held : s.mem.state ≠ .standby → (∃ t, s.Launching t) ∨ ∃ k, (s.threads k).InMain
  leaving : ∀ k, s.threads k = .finalExchange → s.mem.state = .shutdown
  unborn : ∀ k, s.launched ≤ k → s.threads k = .unborn
  expected : ∀ k, s.threads k ≠ .threw
  job : ∀ k, s.threads k = .run ∨ s.threads k = .reset → s.mem.currentJob ≠ none

theorem RequestMove.state {size : QueueSize w} {job : Job J} {m m' : Memory w J} {pc : RequestPc w}
    {next} (h : RequestMove size job m pc m' next) : m'.state = m.state := by
  cases h <;> rfl

theorem RequestMove.promise {size : QueueSize w} {job : Job J} {m m' : Memory w J}
    {pc : RequestPc w} {next} (h : RequestMove size job m pc m' next) :
    m'.promise = m.promise := by
  cases h <;> rfl

theorem RequestMove.currentJob {size : QueueSize w} {job : Job J} {m m' : Memory w J}
    {pc : RequestPc w} {next} (h : RequestMove size job m pc m' next) :
    m'.currentJob = m.currentJob := by
  cases h <;> rfl

section
variable {m m' : Memory w J} {p p' : WorkerPc w}

/-- Only a thread in `_worker_main` takes steps of it. -/
theorem WorkMove.inMain (h : WorkMove m p m' p') : p.InMain := by
  cases h <;> trivial

theorem WorkMove.ne_unborn (h : WorkMove m p m' p') : p' ≠ .unborn := by
  cases h <;> simp

/-- The count is loaded at the start of `_worker_main` only. -/
theorem WorkMove.ne_load (h : WorkMove m p m' p') : p' ≠ .load := by
  cases h <;> simp

/-- A step of `_worker_main` stays in it and leaves the state alone, or is its final exchange. -/
theorem WorkMove.state (h : WorkMove m p m' p') :
    (p'.InMain ∧ m'.state = m.state) ∨ (p = .finalExchange ∧ m.state = .shutdown ∧
      p' = .exited ∧ m'.state = .standby) ∨ (p = .finalExchange ∧ m.state ≠ .shutdown) := by
  cases h with
  | finish hs => exact .inr (.inl ⟨rfl, hs, rfl, rfl⟩)
  | unexpected hs => exact .inr (.inr ⟨rfl, hs⟩)
  | _ => exact .inl ⟨trivial, rfl⟩

/-- A thread gets to the final exchange by seeing that the worker is not running. -/
theorem WorkMove.leaving (h : WorkMove m p m' p') (hp : p' = .finalExchange) :
    m.state ≠ .running := by
  cases h <;> first | assumption | cases hp

/-- A thread at the job it has dequeued has one. -/
theorem WorkMove.hasJob (h : WorkMove m p m' p') (hp : p' = .run ∨ p' = .reset) :
    m'.currentJob ≠ none ∨ p = .run ∧ m'.currentJob = m.currentJob := by
  cases h with
  | job => exact .inl (by simp)
  | run => exact .inr ⟨rfl, rfl⟩
  | _ => simp at hp

end

variable [DecidableEq T] {size : QueueSize w} {s s' : System w J T} {a : Action J T}

/-- What a step does to the threads: it is one of a caller, a launch, or one of a thread. A
caller gets to wait for a promise by reading that the worker is not in standby. -/
theorem Stepped.threads (hs : Stepped size s a s') :
    (∃ t p, s'.callers = Function.update s.callers t p ∧ ¬ s.Launching t ∧
      s'.threads = s.threads ∧ s'.launched = s.launched ∧ s'.mem.promise = s.mem.promise ∧
      (p.requesting = some .awaitPromise → s.requests t = some .awaitPromise ∨
        a = .run t ∧ s.requests t = some .loadState ∧ s.mem.state ≠ .standby)) ∨
    (∃ t, s.Launching t ∧ s'.mem = s.mem ∧ s'.launched = s.launched + 1 ∧
      s'.threads = Function.update s.threads s.launched .load) ∨
    ∃ k p, WorkMove s.mem (s.threads k) s'.mem p ∧ a = .work k ∧ s'.callers = s.callers ∧
      s'.launched = s.launched ∧ s'.threads = Function.update s.threads k p := by
  cases hs with
  | call t call ht =>
    refine .inl ⟨t, call.enter, rfl, by simp [System.Launching, ht], rfl, rfl, rfl, ?_⟩
    cases call <;> simp [Call.enter, CallerPc.requesting]
  | request t who pc pc' m ht hm =>
    refine .inl ⟨t, .request who pc', rfl, by simp [System.Launching, ht], rfl, rfl, hm.promise, ?_⟩
    intro hpc
    obtain rfl : pc' = .awaitPromise := Option.some.inj hpc
    have hreq : s.requests t = some pc := System.requests_request ht
    cases hm with
    | spin => exact .inl hreq
    | awake hst => exact .inr ⟨rfl, hreq, hst⟩
  | answered t who pc m count ht hm =>
    obtain ⟨p, new, heq, hp⟩ := answer_goto { s with mem := m } t count who
    rw [heq]
    refine .inl ⟨t, p, rfl, by simp [System.Launching, ht], rfl, rfl, hm.promise, ?_⟩
    rcases hp with rfl | ⟨sync, rfl⟩ <;> simp [CallerPc.requesting]
  | satisfied t who pc m ht hm =>
    exact .inl ⟨t, .idle, rfl, by simp [System.Launching, ht], rfl, rfl, hm.promise,
      by simp [CallerPc.requesting]⟩
  | nullPromise t who pc m ht hm =>
    exact .inl ⟨t, s.callers t, (Function.update_eq_self t s.callers).symm,
      by simp [System.Launching, ht], rfl, rfl, hm.promise, .inl⟩
  | joinableThread t k ht =>
    exact .inl ⟨t, s.callers t, (Function.update_eq_self t s.callers).symm,
      by simp [System.Launching, ht], rfl, rfl, rfl, .inl⟩
  | launch t ht => exact .inr (.inl ⟨t, ht, rfl, rfl, rfl⟩)
  | work k m p hm => exact .inr (.inr ⟨k, p, hm, rfl, rfl, rfl, rfl⟩)
  | started t ht | notStarted t ht | assign t k ht | stopped t sync ht | notStopped t sync ht
  | wake t sync ht | noWake t sync ht | tail t sync pc pc' thr ht
  | tailEnd t sync pc thr result ht =>
    exact .inl ⟨t, _, rfl, by simp [System.Launching, ht], rfl, rfl, rfl,
      by simp [CallerPc.requesting]⟩

/-- A step of a caller that neither takes the worker out of standby nor launches a thread. -/
theorem SingleRunner.caller (h : SingleRunner s) {t : T} {p : CallerPc w J}
    (hcallers : s'.callers = Function.update s.callers t p) (ht : s.callers t ≠ .start .launch)
    (hp : p ≠ .start .launch) (hthreads : s'.threads = s.threads)
    (hlaunched : s'.launched = s.launched) (hjob : s'.mem.currentJob = s.mem.currentJob)
    (hstandby : s'.mem.state = .standby ↔ s.mem.state = .standby)
    (hshutdown : s.mem.state = .shutdown → s'.mem.state = .shutdown) : SingleRunner s' := by
  have hiff : ∀ u, s'.Launching u ↔ s.Launching u := by
    intro u
    by_cases hu : u = t
    · subst hu
      simp [System.Launching, hcallers, ht, hp]
    · simp [System.Launching, hcallers, Function.update_of_ne hu]
  obtain ⟨h₁, h₂, h₃, h₄, h₅, h₆, h₇, h₈, h₉, h₁₀⟩ := h
  constructor
  case leaving =>
    intro k hk
    rw [hthreads] at hk
    exact hshutdown (h₇ k hk)
  all_goals simpa only [hiff, hthreads, hlaunched, hjob, ne_eq, hstandby]

/-- A step of a caller that leaves the state alone as well. -/
theorem SingleRunner.quiet (h : SingleRunner s) {t : T} {p : CallerPc w J}
    (hcallers : s'.callers = Function.update s.callers t p) (ht : s.callers t ≠ .start .launch)
    (hp : p ≠ .start .launch) (hthreads : s'.threads = s.threads)
    (hlaunched : s'.launched = s.launched) (hjob : s'.mem.currentJob = s.mem.currentJob)
    (hstate : s'.mem.state = s.mem.state) : SingleRunner s' :=
  h.caller hcallers ht hp hthreads hlaunched hjob (by rw [hstate]) (by rw [hstate]; exact id)

omit [DecidableEq T] in
/-- A step of the thread that runs the worker. -/
theorem SingleRunner.work (h : SingleRunner s) {k : Nat} {m : Memory w J} {p : WorkerPc w}
    (hm : WorkMove s.mem (s.threads k) m p) (hmem : s'.mem = m)
    (hcallers : s'.callers = s.callers) (hthreads : s'.threads = Function.update s.threads k p)
    (hlaunched : s'.launched = s.launched) : SingleRunner s' := by
  subst hmem
  have hk := hm.inMain
  have hself : s'.threads k = p := by rw [hthreads, Function.update_self]
  have hother : ∀ j, j ≠ k → s'.threads j = s.threads j := fun j hj => by
    rw [hthreads, Function.update_of_ne hj]
  -- no thread but `k` is in the main function, before the step or after it
  have honly : ∀ j, (s'.threads j).InMain → j = k := by
    intro j hj
    by_cases hjk : j = k
    · exact hjk
    · rw [hother j hjk] at hj
      exact h.main j k hj hk
  have hnone : ∀ t, ¬ s'.Launching t := by
    intro t ht
    simp only [System.Launching, hcallers] at ht
    exact h.apart t k ht hk
  have hstate := hm.state
  have hfinal : ¬ (s.threads k = .finalExchange ∧ s.mem.state ≠ .shutdown) :=
    fun hf => hf.2 (h.leaving k hf.1)
  constructor
  case launching => exact fun t u ht => absurd ht (hnone t)
  case main => exact fun i j hi hj => (honly i hi).trans (honly j hj).symm
  case apart => exact fun t _ ht => absurd ht (hnone t)
  case launching_state => exact fun t ht => absurd ht (hnone t)
  case main_state =>
    intro j hj
    obtain rfl := honly j hj
    rw [hself] at hj
    rcases hstate with ⟨-, hst⟩ | ⟨-, -, rfl, -⟩ | hf
    · rw [hst]
      exact h.main_state j hk
    · cases hj
    · exact absurd hf hfinal
  case held =>
    -- the thread still runs the worker unless this was its final exchange
    intro hst
    rcases hstate with ⟨hp, -⟩ | ⟨-, -, -, hst'⟩ | hf
    · exact .inr ⟨k, by rwa [hself]⟩
    · exact absurd hst' hst
    · exact absurd hf hfinal
  case leaving =>
    intro j hj
    obtain rfl := honly j (by rw [hj]; trivial)
    rw [hself] at hj
    -- the thread has just seen that the worker is not running
    have hleft := hm.leaving hj
    rcases hstate with ⟨-, hst⟩ | ⟨-, -, rfl, -⟩ | hf
    · rw [hst]
      have hmain := h.main_state j hk
      generalize s.mem.state = st at hleft hmain
      cases st with
      | standby => exact absurd rfl hmain
      | running => exact absurd rfl hleft
      | shutdown => rfl
    · cases hj
    · exact absurd hf hfinal
  case unborn =>
    intro j hj
    rw [hlaunched] at hj
    have hjk : j ≠ k := by
      intro heq
      subst heq
      rw [h.unborn j hj] at hk
      exact hk
    rw [hother j hjk]
    exact h.unborn j hj
  case expected =>
    intro j
    by_cases hjk : j = k
    · subst hjk
      rw [hself]
      intro heq
      subst heq
      rcases hstate with ⟨hp, -⟩ | ⟨-, -, hp, -⟩ | hf
      · exact hp
      · cases hp
      · exact hfinal hf
    · rw [hother j hjk]
      exact h.expected j
  case job =>
    intro j hj
    obtain rfl := honly j (by rcases hj with hj | hj <;> rw [hj] <;> trivial)
    rw [hself] at hj
    rcases hm.hasJob hj with hjob | ⟨hrun, hsame⟩
    · exact hjob
    · rw [hsame]
      exact h.job j (.inl hrun)

/-- What a successful exchange of `start` does. -/
theorem SingleRunner.started (h : SingleRunner s) {t : T} (hst : s.mem.state = .standby)
    (hcallers : s'.callers = Function.update s.callers t (.start .launch))
    (hthreads : s'.threads = s.threads) (hlaunched : s'.launched = s.launched)
    (hmem : s'.mem = { s.mem with state := .running }) : SingleRunner s' := by
  have hnone : ∀ u, ¬ s.Launching u := fun u hu => h.launching_state u hu hst
  have hout : ∀ k, ¬ (s.threads k).InMain := fun k hk => h.main_state k hk hst
  have hself : ∀ u, s'.Launching u → u = t := by
    intro u hu
    by_contra hut
    rw [System.Launching, hcallers, Function.update_of_ne hut] at hu
    exact hnone u hu
  have hnew : s'.mem.state = .running := by rw [hmem]
  constructor
  case launching => exact fun u v hu hv => (hself u hu).trans (hself v hv).symm
  case main => exact fun j k hj => absurd (hthreads ▸ hj) (hout j)
  case apart => exact fun u k _ hk => hout k (hthreads ▸ hk)
  case launching_state => simp [hnew]
  case main_state => simp [hnew]
  case held => exact fun _ => .inl ⟨t, by rw [System.Launching, hcallers, Function.update_self]⟩
  case leaving =>
    intro k hk
    rw [hthreads] at hk
    exact absurd (by rw [hk]; trivial) (hout k)
  case unborn => simpa only [hthreads, hlaunched] using h.unborn
  case expected => simpa only [hthreads] using h.expected
  case job => simpa only [hthreads, hmem] using h.job

/-- What the launch of a thread does. -/
theorem SingleRunner.launched (h : SingleRunner s) {t : T} {p : CallerPc w J}
    (ht : s.Launching t) (hp : p ≠ .start .launch)
    (hcallers : s'.callers = Function.update s.callers t p)
    (hthreads : s'.threads = Function.update s.threads s.launched .load)
    (hlaunched : s'.launched = s.launched + 1) (hmem : s'.mem = s.mem) : SingleRunner s' := by
  have hout : ∀ k, ¬ (s.threads k).InMain := fun k => h.apart t k ht
  have hnone : ∀ u, ¬ s'.Launching u := by
    intro u hu
    by_cases hut : u = t
    · rw [System.Launching, hcallers, hut, Function.update_self] at hu
      exact hp hu
    · rw [System.Launching, hcallers, Function.update_of_ne hut] at hu
      exact hut (h.launching u t hu ht)
  have hself : s'.threads s.launched = .load := by rw [hthreads, Function.update_self]
  have hother : ∀ j, j ≠ s.launched → s'.threads j = s.threads j := fun j hj => by
    rw [hthreads, Function.update_of_ne hj]
  have honly : ∀ j, (s'.threads j).InMain → j = s.launched := by
    intro j hj
    by_contra hjk
    rw [hother j hjk] at hj
    exact hout j hj
  constructor
  case launching => exact fun u _ hu => absurd hu (hnone u)
  case main => exact fun i j hi hj => (honly i hi).trans (honly j hj).symm
  case apart => exact fun u _ hu => absurd hu (hnone u)
  case launching_state => exact fun u hu => absurd hu (hnone u)
  case main_state => exact fun _ _ => hmem ▸ h.launching_state t ht
  case held => exact fun _ => .inr ⟨s.launched, by rw [hself]; trivial⟩
  case leaving =>
    intro j hj
    obtain rfl := honly j (by rw [hj]; trivial)
    rw [hself] at hj
    cases hj
  case unborn =>
    intro j hj
    rw [hother j (by omega)]
    exact h.unborn j (by omega)
  case expected =>
    intro j
    by_cases hj : j = s.launched
    · rw [hj, hself]
      simp
    · rw [hother j hj]
      exact h.expected j
  case job =>
    intro j hj
    obtain rfl := honly j (by rcases hj with hj | hj <;> rw [hj] <;> trivial)
    rw [hself] at hj
    simp at hj

theorem SingleRunner.step (h : SingleRunner s) (hs : Stepped size s a s') : SingleRunner s' := by
  cases hs with
  | call t call ht =>
    exact h.quiet (t := t) rfl (by simp [ht]) (by cases call <;> simp [Call.enter]) rfl rfl rfl rfl
  | request t who pc pc' m ht hm =>
    exact h.quiet (t := t) rfl (by simp [ht]) (by simp) rfl rfl hm.currentJob hm.state
  | answered t who pc m count ht hm =>
    obtain ⟨p, new, heq, hp⟩ := answer_goto { s with mem := m } t count who
    rw [heq]
    exact h.quiet (t := t) rfl (by simp [ht]) (by rcases hp with rfl | ⟨sync, rfl⟩ <;> simp) rfl rfl
      hm.currentJob hm.state
  | satisfied t who pc m ht hm =>
    exact h.quiet (t := t) rfl (by simp [ht]) (by simp) rfl rfl hm.currentJob hm.state
  | nullPromise t who pc m ht hm =>
    exact h.quiet (t := t) (Function.update_eq_self t s.callers).symm (by simp [ht]) (by simp [ht])
      rfl rfl hm.currentJob hm.state
  | joinableThread t k ht =>
    exact h.quiet (t := t) (Function.update_eq_self t s.callers).symm (by simp [ht]) (by simp [ht])
      rfl rfl rfl rfl
  | notStarted t ht | assign t k ht | notStopped t sync ht | wake t sync ht | noWake t sync ht
  | tail t sync pc pc' thr ht | tailEnd t sync pc thr result ht =>
    exact h.quiet (t := t) rfl (by simp [ht]) (by simp) rfl rfl rfl rfl
  | started t ht hst => exact h.started (t := t) hst rfl rfl rfl rfl
  | launch t ht => exact h.launched (t := t) ht (by simp) rfl rfl rfl rfl
  | stopped t sync ht hst =>
    exact h.caller (t := t) rfl (by simp [ht]) (by simp) rfl rfl rfl (by simp [System.goto, hst])
      (fun _ => rfl)
  | work k m p hm => exact h.work hm rfl rfl rfl rfl

omit [DecidableEq T] in
theorem singleRunner_init : SingleRunner (System.init : System w J T) := by
  constructor <;> simp [System.init, System.Launching, Memory.init, WorkerPc.InMain]

theorem singleRunner_run {tr : List (System w J T × Action J T)}
    (h : Run (System.step size) System.init tr s) : SingleRunner s :=
  h.invariant (C := fun _ _ => True) singleRunner_init
    (fun _ _ _ hi _ hs => hi.step (System.step_cases hs).2) (fun _ _ => trivial)

/-- A step leaves the state alone or takes it one further in the cycle. -/
theorem Stepped.state (h : SingleRunner s) (hs : Stepped size s a s') :
    s'.mem.state = s.mem.state ∨ s'.mem.state = s.mem.state.next := by
  cases hs with
  | request t who pc pc' m ht hm | satisfied t who pc m ht hm | nullPromise t who pc m ht hm =>
    exact .inl hm.state
  | answered t who pc m count ht hm =>
    obtain ⟨p, new, heq, -⟩ := answer_goto { s with mem := m } t count who
    rw [heq]
    exact .inl hm.state
  | started t ht hst => exact .inr (by simp [System.goto, hst, State.next])
  | stopped t sync ht hst => exact .inr (by simp [System.goto, hst, State.next])
  | work k m p hm =>
    rcases hm.state with ⟨-, hst⟩ | ⟨-, hst, -, hst'⟩ | ⟨hk, hst⟩
    · exact .inl hst
    · exact .inr (by rw [hst, hst', State.next])
    · exact absurd (h.leaving k hk) hst
  | _ => exact .inl rfl

/-- What holds of the threads in every state: one of them at most is in `_worker_main`,
its final exchange will succeed, no thread has thrown, and none shares `_current_job`. -/
structure System.RunsAlone (s : System w J T) : Prop where
  main : ∀ j k, (s.threads j).InMain → (s.threads k).InMain → j = k
  exchange : ∀ k, s.threads k = .finalExchange → s.mem.state = .shutdown
  expected : ∀ k, s.threads k ≠ .threw
  job : ∀ j k, (s.threads j).UsesJob → (s.threads k).UsesJob → j = k

/-- **Single runner.** With any callers and any interleaving, in every state reached
and at every step on the way. -/
theorem single_runner {tr : List (System w J T × Action J T)}
    (h : Run (System.step size) System.init tr s) :
    s.RunsAlone ∧ ∀ p ∈ tr, ∀ s', p.1.step size p.2 = some s' →
      s'.mem.state = p.1.mem.state ∨ s'.mem.state = p.1.mem.state.next := by
  have hrunner := singleRunner_run h
  refine ⟨⟨hrunner.main, hrunner.leaving, hrunner.expected,
    fun j k hj hk => hrunner.main j k hj.inMain hk.inMain⟩, ?_⟩
  intro p hp s' hs
  obtain ⟨before, after, rfl⟩ := List.append_of_mem hp
  obtain ⟨m, hbefore, hafter⟩ := h.split
  obtain ⟨rfl, -⟩ := hafter.cons
  exact Stepped.state (singleRunner_run hbefore) (System.step_cases hs).2

/-- A queue of two jobs. -/
def twoJobs : QueueSize 64 := ⟨2, by decide, by decide⟩

/-- The first thread is woken by `shutdown` and exits, and a second one is launched. -/
def restart : List (Action Nat Bool) :=
  calls false .start 3 ++ works 0 4 ++ calls true (.shutdown false) 10 ++ works 0 9 ++
    calls false .start 3

theorem single_runner_restart : ∃ (tr : _) (s : System 64 Nat Bool),
    Run (System.step twoJobs) System.init tr s ∧ tr.map Prod.snd = restart ∧
      (s.threads 0 = .exited ∧ s.threads 1 = .load) ∧ s.RunsAlone ∧
      ∀ p ∈ tr, ∀ s', p.1.step twoJobs p.2 = some s' →
        s'.mem.state = p.1.mem.state ∨ s'.mem.state = p.1.mem.state.next := by
  have hrun : ∃ (tr : _) (s : System 64 Nat Bool), Run (System.step twoJobs) System.init tr s ∧
      tr.map Prod.snd = restart ∧ (s.threads 0 = .exited ∧ s.threads 1 = .load) :=
    Run.of_exec_any _ (by decide)
  obtain ⟨tr, s, hr, ha, hs⟩ := hrun
  exact ⟨tr, s, hr, ha, hs, single_runner hr⟩

end Vee.Worker
