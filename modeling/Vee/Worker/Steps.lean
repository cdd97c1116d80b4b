import Mathlib.Data.BitVec
import Mathlib.Logic.Function.Basic
import Vee.Lib.Fifo
import Vee.Lockfree.AtQueue

/- `vee::worker` (vee/worker.h): the members of a worker, a call of
   `nothrow_request` and the loop of `_worker_main`, step by step.

   The job queue is a bounded FIFO whose operations are atomic. A promise is known
   by its number: `new std::make_shared<std::promise<void>>()` makes the next one,
   and `signals p` counts the calls of `set_value` on it, so it is ready from the
   first of them on. Each program point stands before one access to the members;
   the events `sleep`, `job_requested` and `job_processed` are points of their own,
   so that what is attached to them can act there. -/
namespace Vee.Worker
open Lockfree (Next)

/-- `job_queue_size`. The queue allocates arrays of that many pointers, which take
at least two bytes each. -/
structure QueueSize (w : Nat) where
  slots : Nat
  pos : 0 < slots
  allocated : slots * 2 < 2 ^ w

theorem QueueSize.slots_lt {w : Nat} (size : QueueSize w) : size.slots + 1 < 2 ^ w := by
  have hpos := size.pos
  have hallocated := size.allocated
  omega

/-- `worker::state_t`. -/
inductive State where
  | standby
  | running
  | shutdown
  deriving DecidableEq, Repr

/-- A job of a request, or the empty task that `shutdown` sends to wake the worker. -/
inductive Job (J : Type*) where
  | task (job : J)
  | dummy
  deriving DecidableEq, Repr

/-- The members of a worker; `thr` is the thread that `_thr` stands for, by its
number, or none when it is not joinable. -/
structure Memory (w : Nat) (J : Type*) where
  queue : List (Job J)
  remained : BitVec w
  state : State
  promise : Option Nat
  made : Nat
  signals : Nat → Nat
  currentJob : Option (Job J)
  thr : Option Nat

/-- `worker::worker` without `autorun`. -/
def Memory.init (w : Nat) (J : Type*) : Memory w J :=
  { queue := []
    remained := 0
    state := .standby
    promise := none
    made := 0
    signals := fun _ => 0
    currentJob := none
    thr := none }

variable {w : Nat} {J T : Type*}

/-! ## `nothrow_request` -/

/-- The program points of `nothrow_request`. -/
inductive RequestPc (w : Nat) where
  /-- `_job_queue.enqueue(job)` -/
  | enqueue
  /-- `_remained.fetch_add(1)` -/
  | fetchAdd
  /-- `_state.load() != state_t::standby`, reached when `remained_old == 0` -/
  | loadState
  /-- `while (this->_promise == nullptr)` -/
  | awaitPromise
  /-- `_promise->set_value()` -/
  | setValue
  /-- `events.job_requested.operator()()` -/
  | jobRequested (remained_old : BitVec w)
  deriving DecidableEq, Repr

/-- How a call of `nothrow_request` ends: with a count, with the exception of
`set_value` on a promise that is set already, or with undefined behaviour. -/
inductive RequestResult (w : Nat) where
  | count (result : BitVec w)
  | promiseSatisfied
  | nullPromise
  deriving DecidableEq, Repr

/-- One step of `nothrow_request(job)`. -/
def requestStep (size : QueueSize w) (job : Job J) (m : Memory w J) :
    RequestPc w → Memory w J × Next (RequestPc w) (RequestResult w)
  | .enqueue =>
    match Fifo.enqueue size.slots m.queue job with
    | (queue, true) => ({ m with queue := queue }, .goto .fetchAdd)
    | (queue, false) => ({ m with queue := queue }, .returned (.count 0))
  -- only the caller that finds 0 goes on to wake the worker
  | .fetchAdd =>
    ({ m with remained := m.remained + 1 },
      .goto (if m.remained = 0 then .loadState else .jobRequested m.remained))
  | .loadState => (m, .goto (if m.state ≠ .standby then .awaitPromise else .jobRequested 0))
  | .awaitPromise => (m, .goto (if m.promise = none then .awaitPromise else .setValue))
  | .setValue =>
    match m.promise with
    | none => (m, .returned .nullPromise)
    -- a second call on the same promise throws `promise_already_satisfied`
    | some p =>
      ({ m with signals := Function.update m.signals p (m.signals p + 1) },
        if m.signals p = 0 then .goto (.jobRequested 0) else .returned .promiseSatisfied)
  | .jobRequested remained_old => (m, .returned (.count (remained_old + 1)))

/-- Every step of `nothrow_request`. -/
inductive RequestMove (size : QueueSize w) (job : Job J) (m : Memory w J) :
    RequestPc w → Memory w J → Next (RequestPc w) (RequestResult w) → Prop where
  | refused : size.slots ≤ m.queue.length →
      RequestMove size job m .enqueue m (.returned (.count 0))
  | placed : m.queue.length < size.slots →
      RequestMove size job m .enqueue { m with queue := m.queue ++ [job] } (.goto .fetchAdd)
  | first : m.remained = 0 →
      RequestMove size job m .fetchAdd { m with remained := m.remained + 1 } (.goto .loadState)
  | counted : m.remained ≠ 0 →
      RequestMove size job m .fetchAdd { m with remained := m.remained + 1 }
        (.goto (.jobRequested m.remained))
  | awake : m.state ≠ .standby → RequestMove size job m .loadState m (.goto .awaitPromise)
  | standby : m.state = .standby → RequestMove size job m .loadState m (.goto (.jobRequested 0))
  | spin : m.promise = none → RequestMove size job m .awaitPromise m (.goto .awaitPromise)
  | ready (p : Nat) : m.promise = some p →
      RequestMove size job m .awaitPromise m (.goto .setValue)
  | signal (p : Nat) : m.promise = some p → m.signals p = 0 →
      RequestMove size job m .setValue
        { m with signals := Function.update m.signals p (m.signals p + 1) }
        (.goto (.jobRequested 0))
  | signalAgain (p : Nat) : m.promise = some p → m.signals p ≠ 0 →
      RequestMove size job m .setValue
        { m with signals := Function.update m.signals p (m.signals p + 1) }
        (.returned .promiseSatisfied)
  | signalNull : m.promise = none →
      RequestMove size job m .setValue m (.returned .nullPromise)
  | requested (remained_old : BitVec w) :
      RequestMove size job m (.jobRequested remained_old) m
        (.returned (.count (remained_old + 1)))

theorem requestStep_move (size : QueueSize w) (job : Job J) (m : Memory w J) (pc : RequestPc w) :
    RequestMove size job m pc (requestStep size job m pc).1 (requestStep size job m pc).2 := by
  cases pc with
  | enqueue =>
    by_cases hroom : m.queue.length < size.slots
    · simp only [requestStep, Fifo.enqueue_room job hroom]
      exact .placed hroom
    · have hfull : size.slots ≤ m.queue.length := by omega
      simp only [requestStep, Fifo.enqueue_full job hfull]
      exact .refused hfull
  | fetchAdd =>
    by_cases hzero : m.remained = 0
    · simp only [requestStep, if_pos hzero]
      exact .first hzero
    · simp only [requestStep, if_neg hzero]
      exact .counted hzero
  | loadState =>
    by_cases hstandby : m.state = .standby
    · simp only [requestStep, hstandby, ne_eq, not_true_eq_false, if_false]
      exact .standby hstandby
    · simp only [requestStep, ne_eq, hstandby, not_false_eq_true, if_true]
      exact .awake hstandby
  | awaitPromise =>
    cases hp : m.promise with
    | none =>
      simp only [requestStep, hp, if_true]
      exact .spin hp
    | some p =>
      simp only [requestStep, hp, reduceCtorEq, if_false]
      exact .ready p hp
  | setValue =>
    cases hp : m.promise with
    | none =>
      simp only [requestStep, hp]
      exact .signalNull hp
    | some p =>
      by_cases hset : m.signals p = 0
      · have hmove : RequestMove size job m .setValue _ _ := .signal p hp hset
        simpa only [requestStep, hp, if_pos hset] using hmove
      · have hmove : RequestMove size job m .setValue _ _ := .signalAgain p hp hset
        simpa only [requestStep, hp, if_neg hset] using hmove
  | jobRequested remained_old => exact .requested remained_old

/-- Only the first step of a request adds to the queue. -/
theorem RequestMove.queue_length {size : QueueSize w} {job : Job J} {m m' : Memory w J}
    {pc : RequestPc w} {next} (h : RequestMove size job m pc m' next) : m'.queue.length =
      m.queue.length + if pc = .enqueue ∧ m.queue.length < size.slots then 1 else 0 := by
  cases h with
  | refused hfull => simp [Nat.not_lt.mpr hfull]
  | placed hroom => simp [hroom]
  | _ => simp

/-! ## `_worker_main` -/

/-- The program points of `_worker_main` with `_epoch` in its place; a thread that
is not started yet is `unborn`, and `p` is the promise made in this round. -/
inductive WorkerPc (w : Nat) where
  | unborn
  /-- `size_t remained = _remained.load()` -/
  | load
  /-- `_state.load() == state_t::running` -/
  | test (remained : BitVec w)
  /-- `this->_promise = promise` -/
  | makePromise
  /-- `events.sleep.operator()()` -/
  | sleep (p : Nat)
  /-- `future.wait()` -/
  | wait (p : Nat)
  /-- `_promise.reset()` -/
  | resetPromise (p : Nat)
  /-- `_job_queue.dequeue(_current_job)` -/
  | dequeue
  /-- `_current_job->run()` -/
  | run
  /-- `_current_job.reset()` -/
  | reset
  /-- `events.job_processed.operator()()` -/
  | jobProcessed
  /-- `remained = _remained.fetch_sub(1) - 1` -/
  | fetchSub
  /-- the compare-exchange from `shutdown` to `standby` -/
  | finalExchange
  | exited
  /-- the `runtime_error` -/
  | threw
  deriving DecidableEq, Repr

/-- One step of `_worker_main`; none while `future.wait()` blocks and once it is over. -/
def workerStep (m : Memory w J) : WorkerPc w → Option (Memory w J × WorkerPc w)
  | .unborn | .exited | .threw => none
  | .load => some (m, .test m.remained)
  | .test remained =>
    if m.state = .running then
      if remained = 0 then some (m, .makePromise) else some (m, .dequeue)
    else some (m, .finalExchange)
  | .makePromise => some ({ m with promise := some m.made, made := m.made + 1 }, .sleep m.made)
  | .sleep p => some (m, .wait p)
  | .wait p => if m.signals p = 0 then none else some (m, .resetPromise p)
  | .resetPromise _ => some ({ m with promise := none }, .dequeue)
  | .dequeue =>
    match Fifo.dequeue m.queue with
    -- `_epoch` returns false, and `_worker_main` counts down all the same
    | (_, none) => some (m, .fetchSub)
    | (queue, some job) => some ({ m with queue := queue, currentJob := some job }, .run)
  | .run => some (m, .reset)
  | .reset => some ({ m with currentJob := none }, .jobProcessed)
  | .jobProcessed => some (m, .fetchSub)
  | .fetchSub => some ({ m with remained := m.remained - 1 }, .test (m.remained - 1))
  | .finalExchange =>
    -- an exception that leaves the thread's function terminates the program
    if m.state = .shutdown then some ({ m with state := .standby }, .exited) else some (m, .threw)

/-- Every step of `_worker_main`. -/
inductive WorkMove (m : Memory w J) : WorkerPc w → Memory w J → WorkerPc w → Prop where
  | load : WorkMove m .load m (.test m.remained)
  | idle (r : BitVec w) : m.state = .running → r = 0 → WorkMove m (.test r) m .makePromise
  | busy (r : BitVec w) : m.state = .running → r ≠ 0 → WorkMove m (.test r) m .dequeue
  | leave (r : BitVec w) : m.state ≠ .running → WorkMove m (.test r) m .finalExchange
  | makePromise :
      WorkMove m .makePromise { m with promise := some m.made, made := m.made + 1 } (.sleep m.made)
  | sleep (p : Nat) : WorkMove m (.sleep p) m (.wait p)
  | wake (p : Nat) : m.signals p ≠ 0 → WorkMove m (.wait p) m (.resetPromise p)
  | resetPromise (p : Nat) : WorkMove m (.resetPromise p) { m with promise := none } .dequeue
  | noJob : m.queue = [] → WorkMove m .dequeue m .fetchSub
  | job (job : Job J) (queue : List (Job J)) : m.queue = job :: queue →
      WorkMove m .dequeue { m with queue := queue, currentJob := some job } .run
  | run : WorkMove m .run m .reset
  | reset : WorkMove m .reset { m with currentJob := none } .jobProcessed
  | jobProcessed : WorkMove m .jobProcessed m .fetchSub
  | fetchSub :
      WorkMove m .fetchSub { m with remained := m.remained - 1 } (.test (m.remained - 1))
  | finish : m.state = .shutdown →
      WorkMove m .finalExchange { m with state := .standby } .exited
  | unexpected : m.state ≠ .shutdown → WorkMove m .finalExchange m .threw

theorem workerStep_move {m m' : Memory w J} {p p' : WorkerPc w}
    (h : workerStep m p = some (m', p')) : WorkMove m p m' p' := by
  cases p with
  | unborn | exited | threw => cases h
  | load => cases h; exact .load
  | test r =>
    simp only [workerStep] at h
    split at h
    · split at h
      · cases h
        exact .idle r ‹_› ‹_›
      · cases h
        exact .busy r ‹_› ‹_›
    · cases h
      exact .leave r ‹_›
  | makePromise => cases h; exact .makePromise
  | sleep p => cases h; exact .sleep p
  | wait p =>
    simp only [workerStep] at h
    split at h
    · cases h
    · cases h
      exact .wake p ‹_›
  | resetPromise p => cases h; exact .resetPromise p
  | dequeue =>
    cases hq : m.queue with
    | nil =>
      simp only [workerStep, hq, Fifo.dequeue_nil] at h
      cases h
      exact .noJob hq
    | cons job queue =>
      simp only [workerStep, hq, Fifo.dequeue_cons] at h
      cases h
      exact .job job queue hq
  | run => cases h; exact .run
  | reset => cases h; exact .reset
  | jobProcessed => cases h; exact .jobProcessed
  | fetchSub => cases h; exact .fetchSub
  | finalExchange =>
    simp only [workerStep] at h
    split at h
    · cases h
      exact .finish ‹_›
    · cases h
      exact .unexpected ‹_›

/-- Only a dequeue takes from the queue. -/
theorem WorkMove.queue_length {m m' : Memory w J} {p p' : WorkerPc w} (h : WorkMove m p m' p') :
    m'.queue.length + (if p = .dequeue ∧ 0 < m.queue.length then 1 else 0) = m.queue.length := by
  cases h with
  | noJob hq => simp [hq]
  | job job queue hq => simp [hq]
  | _ => simp

end Vee.Worker
