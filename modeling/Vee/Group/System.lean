import Vee.Worker.System

/- `vee::nonscalable_worker_group` (vee/worker.h): `n` workers that run, and the threads
   that call `nothrow_request` of the group.

   A call loads `_job_counter` once, and then goes through the workers in order: it asks
   those whose count is at most the average, until one takes the job. The counter is
   written by the events of the workers, `job_requested` and `job_processed`, each of
   which is a step of its own in the worker. The long double that holds the average
   represents every `size_t`, so the test compares natural numbers. A group has at least
   one worker: the code divides by their number. -/
namespace Vee.Group
open Lockfree (Next)
open Worker (Memory RequestPc RequestResult RequestMove requestStep WorkerPc WorkMove workerStep
  workerStep_move requestStep_move QueueSize Fault Job workFault)

variable {w n : Nat} {J T : Type*}

/-- The program points of `nothrow_request` of the group. -/
inductive Pc (w n : Nat) (J : Type*) where
  | idle
  /-- `_job_counter.load() / number_of_workers` -/
  | load (job : J)
  /-- `_workers[id]->guess_remined_jobs() <= average` -/
  | test (job : J) (average : Nat) (id : Fin n)
  /-- `_workers[id]->nothrow_request(job)` -/
  | request (job : J) (average : Nat) (id : Fin n) (pc : RequestPc w)
  deriving DecidableEq, Repr

inductive Event (J T : Type*) where
  | called (t : T) (job : J)
  | returned (t : T) (result : Bool)
  /-- the exception of `set_value` -/
  | threw (t : T)
  deriving DecidableEq, Repr

structure System (w n : Nat) (J T : Type*) where
  mems : Fin n → Memory w J
  threads : Fin n → WorkerPc w
  jobCounter : BitVec w
  callers : T → Pc w n J
  log : List (Event J T)
  fault : Option Fault

/-- Start a call in an idle thread, or let a caller or a worker take a step. -/
inductive Action (n : Nat) (J T : Type*) where
  | call (t : T) (job : J)
  | run (t : T)
  | work (id : Fin n)
  deriving DecidableEq, Repr

/-- The group as its constructor leaves it: every worker has been started, and its
thread is at the entry of `_worker_main`. -/
def System.init : System w n J T :=
  { mems := fun _ => { Memory.init w J with state := .running, thr := some 0 }
    threads := fun _ => .load
    jobCounter := 0
    callers := fun _ => .idle
    log := []
    fault := none }

/-- `on_job_requested`, at the step of a request that fires the event. -/
def onJobRequested (counter : BitVec w) : RequestPc w → BitVec w
  | .jobRequested _ => counter + 1
  | _ => counter

/-- `on_job_processed`, at the step of a worker that fires the event. -/
def onJobProcessed (counter : BitVec w) : WorkerPc w → BitVec w
  | .jobProcessed => counter - 1
  | _ => counter

section
variable [DecidableEq T] (size : QueueSize w) (s : System w n J T) (t : T)

/-- The state with caller `t` at `p` and the events `new` logged. -/
def System.goto (p : Pc w n J) (new : List (Event J T)) : System w n J T :=
  { s with callers := Function.update s.callers t p, log := s.log ++ new }

/-- The loop test `id < number_of_workers`. -/
def System.loop (job : J) (average id : Nat) : System w n J T :=
  if h : id < n then s.goto t (.test job average ⟨id, h⟩) []
  else s.goto t .idle [.returned t false]

/-- The step of a caller after that of the worker's `nothrow_request` it is in. -/
def System.afterRequest (job : J) (average : Nat) (id : Fin n) :
    Next (RequestPc w) (RequestResult w) → System w n J T
  | .goto pc => s.goto t (.request job average id pc) []
  | .returned (.count result) =>
    -- `if (result) return true`
    if result = 0 then s.loop t job average (id + 1) else s.goto t .idle [.returned t true]
  | .returned .promiseSatisfied => s.goto t .idle [.threw t]
  | .returned .nullPromise => { s with fault := some .nullPromise }

/-- The step of the group while the program runs. -/
def System.next : Action n J T → Option (System w n J T)
  | .call t job =>
    match s.callers t with
    | .idle => some (s.goto t (.load job) [.called t job])
    | _ => none
  | .run t =>
    match s.callers t with
    | .idle => none
    | .load job => some (s.loop t job (s.jobCounter.toNat / n) 0)
    | .test job average id =>
      some (if (s.mems id).remained.toNat ≤ average then
        s.goto t (.request job average id .enqueue) []
      else s.loop t job average (id + 1))
    | .request job average id pc =>
      let (m, next) := requestStep size (.task job) (s.mems id) pc
      some ({ s with
        mems := Function.update s.mems id m
        jobCounter := onJobRequested s.jobCounter pc }.afterRequest t job average id next)
  | .work id =>
    (workerStep (s.mems id) (s.threads id)).map fun (m, p) =>
      { s with
        mems := Function.update s.mems id m
        threads := Function.update s.threads id p
        jobCounter := onJobProcessed s.jobCounter (s.threads id)
        fault := workFault (s.mems id) (s.threads id) }

/-- The step of the group; none once the program has ended. -/
def System.step (a : Action n J T) : Option (System w n J T) :=
  if s.fault = none then s.next size a else none

end

/-! ## What a step can do -/

section
variable [DecidableEq T]

/-- Every step of the group. -/
inductive Stepped (size : QueueSize w) (s : System w n J T) :
    Action n J T → System w n J T → Prop where
  | called (t job) : s.callers t = .idle →
      Stepped size s (.call t job) (s.goto t (.load job) [.called t job])
  | loaded (t job) : s.callers t = .load job →
      Stepped size s (.run t) (s.loop t job (s.jobCounter.toNat / n) 0)
  | admitted (t job average id) : s.callers t = .test job average id →
      (s.mems id).remained.toNat ≤ average →
      Stepped size s (.run t) (s.goto t (.request job average id .enqueue) [])
  | passed (t job average id) : s.callers t = .test job average id →
      average < (s.mems id).remained.toNat →
      Stepped size s (.run t) (s.loop t job average (id + 1))
  | request (t job average id pc m next) : s.callers t = .request job average id pc →
      RequestMove size (.task job) (s.mems id) pc m next →
      Stepped size s (.run t)
        ({ s with
          mems := Function.update s.mems id m
          jobCounter := onJobRequested s.jobCounter pc }.afterRequest t job average id next)
  | work (id m p) : WorkMove (s.mems id) (s.threads id) m p →
      Stepped size s (.work id)
        { s with
          mems := Function.update s.mems id m
          threads := Function.update s.threads id p
          jobCounter := onJobProcessed s.jobCounter (s.threads id)
          fault := workFault (s.mems id) (s.threads id) }

theorem System.step_cases {size : QueueSize w} {s s' : System w n J T} {a : Action n J T}
    (h : s.step size a = some s') : Stepped size s a s' := by
  simp only [step] at h
  split at h
  swap
  · cases h
  cases a with
  | call t job =>
    simp only [next] at h
    split at h
    · obtain rfl := Option.some.inj h
      exact .called t job ‹_›
    · cases h
  | run t =>
    simp only [next] at h
    split at h
    · cases h
    · obtain rfl := Option.some.inj h
      exact .loaded t _ ‹_›
    · obtain rfl := Option.some.inj h
      split
      · exact .admitted t _ _ _ ‹_› ‹_›
      · exact .passed t _ _ _ ‹_› (by omega)
    · obtain rfl := Option.some.inj h
      exact .request t _ _ _ _ _ _ ‹_› (requestStep_move _ _ _ _)
  | work id =>
    simp only [next, Option.map_eq_some_iff] at h
    obtain ⟨⟨m, p⟩, hm, rfl⟩ := h
    exact .work id m p (workerStep_move hm)

/-- Where the loop goes on, or that it is over. -/
theorem System.loop_goto (s : System w n J T) (t : T) (job : J) (average id : Nat) :
    (∃ h : id < n, s.loop t job average id = s.goto t (.test job average ⟨id, h⟩) []) ∨
      n ≤ id ∧ s.loop t job average id = s.goto t .idle [.returned t false] := by
  by_cases h : id < n
  · exact .inl ⟨h, dif_pos h⟩
  · exact .inr ⟨Nat.not_lt.mp h, dif_neg h⟩

@[simp] theorem loop_mems (s : System w n J T) (t : T) (job : J) (average k : Nat) :
    (s.loop t job average k).mems = s.mems := by
  rcases s.loop_goto t job average k with ⟨hk, heq⟩ | ⟨hk, heq⟩ <;> rw [heq] <;> rfl

@[simp] theorem loop_threads (s : System w n J T) (t : T) (job : J) (average k : Nat) :
    (s.loop t job average k).threads = s.threads := by
  rcases s.loop_goto t job average k with ⟨hk, heq⟩ | ⟨hk, heq⟩ <;> rw [heq] <;> rfl

/-- What follows a step of a request is a step of its caller. -/
theorem afterRequest_same (s : System w n J T) (t : T) (job : J) (average : Nat) (id : Fin n)
    (next : Next (RequestPc w) (RequestResult w)) :
    (s.afterRequest t job average id next).mems = s.mems ∧
      (s.afterRequest t job average id next).threads = s.threads := by
  cases next with
  | goto pc => exact ⟨rfl, rfl⟩
  | returned result =>
    cases result with
    | count c =>
      simp only [System.afterRequest]
      split
      · exact ⟨loop_mems s t job average _, loop_threads s t job average _⟩
      · exact ⟨rfl, rfl⟩
    | promiseSatisfied | nullPromise => exact ⟨rfl, rfl⟩

@[simp] theorem afterRequest_mems (s : System w n J T) (t : T) (job : J) (average : Nat)
    (id : Fin n) (next : Next (RequestPc w) (RequestResult w)) :
    (s.afterRequest t job average id next).mems = s.mems :=
  (afterRequest_same s t job average id next).1

@[simp] theorem afterRequest_threads (s : System w n J T) (t : T) (job : J) (average : Nat)
    (id : Fin n) (next : Next (RequestPc w) (RequestResult w)) :
    (s.afterRequest t job average id next).threads = s.threads :=
  (afterRequest_same s t job average id next).2

end

end Vee.Group
