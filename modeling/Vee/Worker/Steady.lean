import Vee.Worker.Requests

/- A worker in steady state: its thread has loaded the count for the first time, with
   result 0, and nobody shuts it down.

   The load that can miss a pending signal is over, so the handshake holds in every run
   from such a state. A thread asleep on a promise nobody has set, with no request in
   progress, has run every job of every request that succeeded (`steady_no_lost_wakeup`). -/
namespace Vee.Worker
open Transition

variable {w : Nat} {J T : Type*}

section
variable [DecidableEq T] {size : QueueSize w} {k : Nat} {s s' : System w J T} {a : Action J T}

/-- Thread `k` runs the worker and has found nothing to do in its first load of the
count; every job placed before has been run and its request has returned, and the
requests in progress have not placed theirs. The promises from `made` on are those that
are still to be made. -/
structure System.Steady (k : Nat) (s : System w J T) : Prop where
  running : s.mem.state = .running
  empty : s.mem.queue = []
  uncounted : s.mem.remained = 0
  loaded : s.threads k = .test 0
  retired : ∀ j, j ≠ k → s.threads j = .unborn ∨ s.threads j = .exited
  unborn : ∀ j, s.launched ≤ j → s.threads j = .unborn
  promise : s.mem.promise = none
  unmade : ∀ q, s.mem.made ≤ q → s.mem.signals q = 0
  outside : ∀ t, ¬ (s.callers t).InShutdown ∧ ¬ s.Launching t
  unplaced : ∀ t pc, s.requests t = some pc → pc = .enqueue
  settled : ranJobs s.log = placedJobs s.log ∧ ∀ t, placedBy t s.log = acceptedBy t s.log

theorem System.Steady.serving (h : s.Steady k) : Serving size k s where
  runner := by
    have hmain : ∀ j, (s.threads j).InMain → j = k := by
      intro j hj
      by_contra hne
      rcases h.retired j hne with hover | hover
      · rw [hover] at hj
        exact hj
      · rw [hover] at hj
        exact hj
    have honly : ∀ j, s.threads j = .test 0 ∨ ¬ (s.threads j).InMain := by
      intro j
      by_cases hj : (s.threads j).InMain
      · obtain rfl := hmain j hj
        exact .inl h.loaded
      · exact .inr hj
    constructor
    case launching => exact fun t _ ht => absurd ht (h.outside t).2
    case main => exact fun i j hi hj => (hmain i hi).trans (hmain j hj).symm
    case apart => exact fun t _ ht => absurd ht (h.outside t).2
    case launching_state => exact fun t ht => absurd ht (h.outside t).2
    case main_state => simp [h.running]
    case held => exact fun _ => .inr ⟨k, by rw [h.loaded]; trivial⟩
    case leaving =>
      intro j hj
      rcases honly j with hp | hp <;> simp [hj, WorkerPc.InMain] at hp
    case unborn => exact h.unborn
    case expected =>
      intro j hj
      by_cases hjk : j = k
      · rw [hjk, h.loaded] at hj
        cases hj
      · rcases h.retired j hjk with hp | hp <;> simp [hp] at hj
    case job =>
      intro j hj
      rcases honly j with hp | hp
      · simp [hp] at hj
      · rcases hj with hj | hj <;> simp [hj, WorkerPc.InMain] at hp
  handshake := by
    have hnone : ∀ t pc, pc ≠ .enqueue → s.requests t ≠ some pc :=
      fun t pc hpc ht => hpc (h.unplaced t pc ht)
    have hidle : ∀ t, ¬ Pending (s.requests t) := by
      intro t ht
      cases hpc : s.requests t with
      | none => simp [hpc, Pending] at ht
      | some pc =>
        obtain rfl := h.unplaced t pc hpc
        simp [hpc, Pending] at ht
    rw [h.loaded]
    constructor
    case counts =>
      refine ⟨∅, ?_, ?_⟩
      · simpa using fun t => hnone t .fetchAdd (by simp)
      · simp [h.uncounted, h.empty, WorkerPc.inHand]
    case running => exact fun _ => h.running
    case here => exact .inr ⟨trivial, by simp⟩
    case promise => exact h.promise
    case made => simp [WorkerPc.slept]
    case fresh => exact h.unmade
    case room => simp [h.empty]
    case pending_one => exact fun t _ ht => absurd ht (hidle t)
    case pending_counted => exact fun t ht => absurd ht (hidle t)
    case signaller => exact fun t ht => absurd ht (hnone t .setValue (by simp))
    case awake => exact fun ha => absurd rfl ha
    case asleep => exact fun _ hne => absurd h.uncounted hne
  outside t := (h.outside t).1
  state := by simp [h.running]
  others j hj := by
    rcases h.retired j hj with hp | hp <;> simp [hp, WorkerPc.InMain]
  born hborn := by
    rw [h.loaded] at hborn
    cases hborn

omit [DecidableEq T] in
theorem inFlight_nil {p : CallerPc w J} (h : ∀ pc, p.requesting = some pc → pc = .enqueue) :
    p.inFlight = [] := by
  cases p <;> simp_all [CallerPc.requesting, CallerPc.inFlight]

theorem System.Steady.accounted (h : s.Steady k) : Accounted k s where
  order := by simp [h.loaded, WorkerPc.taken, h.empty, h.settled.1]
  accepted t := by
    rw [inFlight_nil (h.unplaced t), List.append_nil]
    exact h.settled.2 t
  positive t who old ht := by
    have hpc := h.unplaced t (.jobRequested old)
      (by simp [System.requests, ht, CallerPc.requesting])
    cases hpc

/-- Once the thread has loaded the count for the first time, no thread does so any more. -/
theorem Serving.loaded (h : Serving size k s) (hs : Stepped size s a s') (h' : Serving size k s')
    (hk : (s.threads k).InMain ∧ ∀ j, s.threads j ≠ .load) :
    (s'.threads k).InMain ∧ ∀ j, s'.threads j ≠ .load := by
  obtain ⟨hmain, hload⟩ := hk
  rcases hs.threads with ⟨t, p, -, -, heq, -⟩ | ⟨t, ht, -⟩ | ⟨j, p, hm, -, -, -, heq⟩
  · rw [heq]
    exact ⟨hmain, hload⟩
  · exact absurd hmain (h.runner.apart t k ht)
  · obtain rfl := h.only hm.inMain
    have hself : s'.threads j = p := by rw [heq, Function.update_self]
    refine ⟨?_, ?_⟩
    · rcases h'.handshake.here with hp | ⟨hp, -⟩
      · rw [hself] at hp
        exact absurd hp hm.ne_unborn
      · exact hp
    · intro i
      by_cases hi : i = j
      · rw [hi, hself]
        exact hm.ne_load
      · rw [heq, Function.update_of_ne hi]
        exact hload i

/-- **No lost wake-up.** In every run without a shutdown from a steady state, a thread
asleep on a promise that is not set, with no request in progress, has left nothing in
the queue, and the jobs run are those placed, which are those whose requests returned
a count other than zero. -/
theorem steady_no_lost_wakeup {tr : List (System w J T × Action J T)} {s₀ : System w J T}
    {j q : Nat} (hstart : s₀.Steady k) (h : Run (System.step size) s₀ tr s)
    (hopen : Meets (fun _ a => a.NoShutdown) tr) (hwait : s.threads j = .wait q)
    (hunset : s.mem.signals q = 0) (hidle : ∀ t, s.requests t = none) :
    s.mem.queue = [] ∧ ranJobs s.log = placedJobs s.log ∧
      ∀ t, placedBy t s.log = acceptedBy t s.log := by
  have hloaded : (s₀.threads k).InMain ∧ ∀ j, s₀.threads j ≠ .load := by
    refine ⟨by rw [hstart.loaded]; trivial, ?_⟩
    intro i hi
    by_cases hik : i = k
    · rw [hik, hstart.loaded] at hi
      cases hi
    · rcases hstart.retired i hik with hp | hp <;> simp [hp] at hi
  obtain ⟨hserv, hacc, -⟩ := h.invariant (C := fun _ a => a.NoShutdown)
    (I := fun s => Serving size k s ∧ Accounted k s ∧
      ((s.threads k).InMain ∧ ∀ j, s.threads j ≠ .load))
    ⟨hstart.serving, hstart.accounted, hloaded⟩
    (fun s a s' ⟨hserv, hacc, hk⟩ ha hs => by
      have hs := (System.step_cases hs).2
      -- no thread is at its first load any more
      have hquiet : s.QuietLoad a := by
        cases a with
        | work i => exact fun hi => absurd hi (hk.2 i)
        | _ => trivial
      have hserv' := hserv.step hs ha hquiet
      exact ⟨hserv', hacc.step hserv hs, hserv.loaded hs hserv' hk⟩)
    hopen
  obtain rfl := hserv.only (by rw [hwait]; trivial)
  have hh := hserv.handshake
  have horder := hacc.order
  rw [hwait] at hh horder
  have hzero : s.mem.remained = 0 := by
    by_contra hne
    obtain ⟨t, ht⟩ := hh.asleep hunset hne
    rw [hidle t] at ht
    exact ht
  have hqueue : s.mem.queue = [] := by
    obtain ⟨U, hU, hcount⟩ := hh.counts
    have hempty : U = ∅ := Finset.eq_empty_of_forall_notMem fun t ht => by
      have hpc := (hU t).mp ht
      rw [hidle t] at hpc
      cases hpc
    apply List.eq_nil_of_length_eq_zero
    simpa [hzero, hempty, WorkerPc.inHand] using hcount.symm
  refine ⟨hqueue, ?_, ?_⟩
  · simpa [WorkerPc.taken, hqueue] using horder.symm
  · intro t
    have hnone : ∀ pc, s.requests t = some pc → pc = .enqueue := by simp [hidle t]
    simpa [inFlight_nil hnone] using hacc.accepted t

/-- A worker whose first thread has just loaded the count. -/
def justLoaded : System 64 Nat Bool :=
  { mem := { Memory.init 64 Nat with state := .running }
    callers := fun _ => .idle
    threads := Function.update (fun _ => .unborn) 0 (.test 0)
    launched := 1
    log := []
    fault := none }

theorem steady_justLoaded : justLoaded.Steady 0 := by
  constructor
  case retired => exact fun j hj => .inl (by simp [justLoaded, Function.update_of_ne hj])
  case unborn =>
    intro j hj
    have hne : j ≠ 0 := Nat.one_le_iff_ne_zero.mp hj
    simp [justLoaded, Function.update_of_ne hne]
  all_goals simp [justLoaded, Memory.init, CallerPc.InShutdown, System.Launching, System.requests,
    CallerPc.requesting, ranJobs, placedJobs, placedBy, acceptedBy]

/-- The thread goes to sleep while a caller has placed its job; another one places its
own before it counts the first, and both are run. -/
def wakeUp : List (Action Nat Bool) :=
  calls false (.request 7 false) 1 ++ works 0 3 ++ calls true (.request 8 false) 2 ++
    runs false 2 ++ runs true 4 ++ works 0 16

theorem steady_no_lost_wakeup_two : ∃ (tr : _) (s : System 64 Nat Bool),
    Run (System.step twoJobs) justLoaded tr s ∧ Meets (fun _ a => a.NoShutdown) tr ∧
      tr.map Prod.snd = wakeUp ∧ ranJobs s.log = [.task 7, .task 8] ∧
      s.threads 0 = .wait 1 ∧ s.mem.signals 1 = 0 ∧ (∀ t, s.requests t = none) ∧
      s.mem.queue = [] ∧ ranJobs s.log = placedJobs s.log ∧
      ∀ t, placedBy t s.log = acceptedBy t s.log := by
  have hrun : ∃ (tr : _) (s : System 64 Nat Bool), Run (System.step twoJobs) justLoaded tr s ∧
      Meets (fun _ a => a.NoShutdown) tr ∧ tr.map Prod.snd = wakeUp ∧
      (ranJobs s.log = [.task 7, .task 8] ∧ s.threads 0 = .wait 1 ∧ s.mem.signals 1 = 0 ∧
        ∀ t, s.requests t = none) :=
    Run.of_execMeets_any _ (by decide)
  obtain ⟨tr, s, hr, hok, ha, hran, hwait, hunset, hidle⟩ := hrun
  exact ⟨tr, s, hr, hok, ha, hran, hwait, hunset, hidle,
    steady_no_lost_wakeup steady_justLoaded hr hok hwait hunset hidle⟩

end

end Vee.Worker
