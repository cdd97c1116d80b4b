import Vee.Lib.Transition
import Vee.Worker.Steps

/- A worker, the threads that call it and the threads it launches.

   Callers call `request`, `nothrow_request`, `start` and `shutdown` at any time; each
   successful `start` launches one more thread that runs `_worker_main`. The dummy
   request of `shutdown` takes the same steps as one of a caller. Calls, results,
   placed jobs and run jobs are logged in order. A run ends where the program does:
   at undefined behaviour or at `std::terminate` (`Fault`). -/
namespace Vee.Worker
open Lockfree (Next)

/-- The calls of the interface; a `request` that throws is `request`, one that does
not is `nothrow_request`. -/
inductive Call (J : Type*) where
  | request (job : J) (throwing : Bool)
  | start
  | shutdown (sync : Bool)
  deriving DecidableEq, Repr

/-- Who calls `nothrow_request`. -/
inductive Requester (J : Type*) where
  | user (job : J) (throwing : Bool)
  | shutdown (sync : Bool)
  deriving DecidableEq, Repr

/-- The job the requester sends. -/
def Requester.job {J : Type*} : Requester J → Job J
  | user job _ => .task job
  | shutdown _ => .dummy

/-- The program points of `start`. -/
inductive StartPc where
  /-- the compare-exchange from `standby` to `running` -/
  | exchange
  /-- `std::thread{ &this_t::_worker_main, this }` -/
  | launch
  /-- `_thr = ` the thread that was launched -/
  | assign (thread : Nat)
  deriving DecidableEq, Repr

/-- The program points of `shutdown` before and after its request. -/
inductive ShutdownPc where
  /-- the compare-exchange from `running` to `shutdown` -/
  | exchange
  /-- `_remained.load() == 0` -/
  | loadRemained
  /-- `sync && _thr.joinable()` -/
  | joinable
  /-- `_thr.join()` -/
  | join
  /-- waiting for the thread to be joined -/
  | joining (thread : Nat)
  /-- `_thr.detach()` -/
  | detach
  deriving DecidableEq, Repr

inductive CallerPc (w : Nat) (J : Type*) where
  | idle
  | request (who : Requester J) (pc : RequestPc w)
  | start (pc : StartPc)
  | shutdown (sync : Bool) (pc : ShutdownPc)
  deriving DecidableEq, Repr

inductive Exception where
  | workerIsBusy
  | promiseSatisfied
  /-- of `join` and `detach` on a thread that is not joinable -/
  | systemError
  deriving DecidableEq, Repr

inductive Result (w : Nat) where
  | count (result : BitVec w)
  | done (result : Bool)
  | threw (e : Exception)
  deriving DecidableEq, Repr

inductive Event (w : Nat) (J T : Type*) where
  | called (t : T) (call : Call J)
  | placed (t : T) (job : Job J)
  | ran (job : Job J)
  | returned (t : T) (call : Call J) (result : Result w)
  deriving DecidableEq, Repr

/-- How the program ends. -/
inductive Fault where
  /-- `_promise->set_value()` on a null `_promise` -/
  | nullPromise
  /-- `_current_job->run()` on a null `_current_job` -/
  | nullJob
  /-- a thread is assigned to a joinable `_thr` -/
  | joinableThread
  /-- the `runtime_error` of `_worker_main` -/
  | unexpectedState
  deriving DecidableEq, Repr

structure System (w : Nat) (J T : Type*) where
  mem : Memory w J
  callers : T → CallerPc w J
  threads : Nat → WorkerPc w
  launched : Nat
  log : List (Event w J T)
  fault : Option Fault

/-- Start a call in an idle thread, or let a caller or a launched thread take a step. -/
inductive Action (J T : Type*) where
  | call (t : T) (call : Call J)
  | run (t : T)
  | work (k : Nat)
  deriving DecidableEq, Repr

variable {w : Nat} {J T : Type*}

/-- A call with the first `n` steps of its caller. -/
def calls (t : T) (call : Call J) (n : Nat) : List (Action J T) :=
  .call t call :: List.replicate n (.run t)

def runs (t : T) (n : Nat) : List (Action J T) := List.replicate n (.run t)

def works (k n : Nat) : List (Action J T) := List.replicate n (.work k)

/-- A worker that has not been started, and no call in progress. -/
def System.init : System w J T :=
  { mem := Memory.init w J
    callers := fun _ => .idle
    threads := fun _ => .unborn
    launched := 0
    log := []
    fault := none }

/-- Where the caller is in `nothrow_request`. -/
def CallerPc.requesting : CallerPc w J → Option (RequestPc w)
  | request _ pc => some pc
  | _ => none

def System.requests (s : System w J T) (t : T) : Option (RequestPc w) := (s.callers t).requesting

theorem System.requests_request {s : System w J T} {t : T} {who : Requester J} {pc : RequestPc w}
    (h : s.callers t = .request who pc) : s.requests t = some pc := by
  rw [System.requests, h]
  rfl

/-- Where a call starts. -/
def Call.enter : Call J → CallerPc w J
  | request job throwing => .request (.user job throwing) .enqueue
  | start => .start .exchange
  | shutdown sync => .shutdown sync .exchange

/-- The event of a step of `nothrow_request`: the one step that places the job. -/
def placedEvents (t : T) (job : Job J) :
    RequestPc w → Next (RequestPc w) (RequestResult w) → List (Event w J T)
  | .enqueue, .goto _ => [.placed t job]
  | _, _ => []

/-- The event of a step of `_worker_main`: the one step that runs a job. -/
def ranEvents (m : Memory w J) : WorkerPc w → List (Event w J T)
  | .run => m.currentJob.toList.map .ran
  | _ => []

/-- What a step of `_worker_main` ends the program with. -/
def workFault (m : Memory w J) : WorkerPc w → Option Fault
  | .run => if m.currentJob = none then some .nullJob else none
  | .finalExchange => if m.state = .shutdown then none else some .unexpectedState
  | _ => none

section
variable [DecidableEq T] (size : QueueSize w) (s : System w J T) (t : T)

/-- The state with caller `t` at `p` and the events `new` logged. -/
def System.goto (p : CallerPc w J) (new : List (Event w J T)) : System w J T :=
  { s with callers := Function.update s.callers t p, log := s.log ++ new }

/-- `nothrow_request` has returned `count` to its caller. -/
def System.answer (count : BitVec w) : Requester J → System w J T
  | .user job throwing =>
    -- `request` turns the 0 of `nothrow_request` into an exception
    if count = 0 ∧ throwing then
      s.goto t .idle [.returned t (.request job throwing) (.threw .workerIsBusy)]
    else s.goto t .idle [.returned t (.request job throwing) (.count count)]
  | .shutdown sync =>
    if count = 0 then s.goto t .idle [.returned t (.shutdown sync) (.threw .workerIsBusy)]
    else s.goto t (.shutdown sync .joinable) []

/-- The call that `nothrow_request` was part of. -/
def Requester.call : Requester J → Call J
  | user job throwing => .request job throwing
  | shutdown sync => .shutdown sync

/-- The step of a caller after that of the `nothrow_request` it is in. -/
def System.afterRequest (who : Requester J) (pc : RequestPc w) :
    Memory w J × Next (RequestPc w) (RequestResult w) → System w J T
  | (m, .goto pc') =>
    { s with mem := m }.goto t (.request who pc') (placedEvents t who.job pc (.goto pc'))
  | (m, .returned (.count count)) => { s with mem := m }.answer t count who
  | (m, .returned .promiseSatisfied) =>
    { s with mem := m }.goto t .idle [.returned t who.call (.threw .promiseSatisfied)]
  | (m, .returned .nullPromise) => { s with mem := m, fault := some .nullPromise }

/-- One step of `start`. -/
def System.startStep : StartPc → System w J T
  | .exchange =>
    if s.mem.state = .standby then
      { s with mem := { s.mem with state := .running } }.goto t (.start .launch) []
    else s.goto t .idle [.returned t .start (.done false)]
  | .launch =>
    { s with
      threads := Function.update s.threads s.launched .load
      launched := s.launched + 1 }.goto t (.start (.assign s.launched)) []
  | .assign thread =>
    -- the move assignment of a thread to a joinable one calls `std::terminate`
    if s.mem.thr = none then
      { s with mem := { s.mem with thr := some thread } }.goto t .idle
        [.returned t .start (.done true)]
    else { s with fault := some .joinableThread }

/-- One step of `shutdown(sync)` outside its request; none while `join` blocks. -/
def System.shutdownStep (sync : Bool) : ShutdownPc → Option (System w J T)
  | .exchange =>
    some (if s.mem.state = .running then
      { s with mem := { s.mem with state := .shutdown } }.goto t (.shutdown sync .loadRemained) []
    else s.goto t .idle [.returned t (.shutdown sync) (.done false)])
  | .loadRemained =>
    -- no job is counted, so the worker may be asleep
    some (s.goto t (if s.mem.remained = 0 then .request (.shutdown sync) .enqueue
      else .shutdown sync .joinable) [])
  | .joinable =>
    some (s.goto t (.shutdown sync (if sync && s.mem.thr.isSome then .join else .detach)) [])
  | .join =>
    match s.mem.thr with
    | none => some (s.goto t .idle [.returned t (.shutdown sync) (.threw .systemError)])
    | some thread => some (s.goto t (.shutdown sync (.joining thread)) [])
  | .joining thread =>
    if s.threads thread = .exited then
      some ({ s with mem := { s.mem with thr := none } }.goto t .idle
        [.returned t (.shutdown sync) (.done true)])
    else none
  | .detach =>
    match s.mem.thr with
    | none => some (s.goto t .idle [.returned t (.shutdown sync) (.threw .systemError)])
    | some _ =>
      some ({ s with mem := { s.mem with thr := none } }.goto t .idle
        [.returned t (.shutdown sync) (.done true)])

/-- The step of the system while the program runs. -/
def System.next : Action J T → Option (System w J T)
  | .call t call =>
    match s.callers t with
    | .idle => some (s.goto t call.enter [.called t call])
    | _ => none
  | .run t =>
    match s.callers t with
    | .idle => none
    | .request who pc => some (s.afterRequest t who pc (requestStep size who.job s.mem pc))
    | .start pc => some (s.startStep t pc)
    | .shutdown sync pc => s.shutdownStep t sync pc
  | .work k =>
    (workerStep s.mem (s.threads k)).map fun (m, p) =>
      { s with
        mem := m
        threads := Function.update s.threads k p
        log := s.log ++ ranEvents s.mem (s.threads k)
        fault := workFault s.mem (s.threads k) }

/-- The step of the system; none once the program has ended. -/
def System.step (a : Action J T) : Option (System w J T) :=
  if s.fault = none then s.next size a else none

end

/-- An answer leaves its caller idle, or in `shutdown` past its request. -/
theorem answer_goto [DecidableEq T] (s : System w J T) (t : T) (count : BitVec w)
    (who : Requester J) : ∃ p new, s.answer t count who = s.goto t p new ∧
      (p = .idle ∨ ∃ sync, p = .shutdown sync .joinable) := by
  cases who with
  | user job throwing =>
    simp only [System.answer]
    split
    · exact ⟨_, _, rfl, .inl rfl⟩
    · exact ⟨_, _, rfl, .inl rfl⟩
  | shutdown sync =>
    simp only [System.answer]
    split
    · exact ⟨_, _, rfl, .inl rfl⟩
    · exact ⟨_, _, rfl, .inr ⟨sync, rfl⟩⟩

/-! ## What a step can do -/

/-- In `shutdown` past its request. -/
def ShutdownPc.Tail : ShutdownPc → Prop
  | joinable | join | joining _ | detach => True
  | _ => False

section
variable [DecidableEq T]

/-- Every step of the system. The steps of `shutdown` past its request differ in
what they do with `_thr`, which nothing else reads but the assignment in `start`. -/
inductive Stepped (size : QueueSize w) (s : System w J T) : Action J T → System w J T → Prop where
  | call (t call) : s.callers t = .idle →
      Stepped size s (.call t call) (s.goto t call.enter [.called t call])
  | request (t who pc pc' m) : s.callers t = .request who pc →
      RequestMove size who.job s.mem pc m (.goto pc') →
      Stepped size s (.run t)
        ({ s with mem := m }.goto t (.request who pc') (placedEvents t who.job pc (.goto pc')))
  | answered (t who pc m count) : s.callers t = .request who pc →
      RequestMove size who.job s.mem pc m (.returned (.count count)) →
      Stepped size s (.run t) ({ s with mem := m }.answer t count who)
  | satisfied (t who pc m) : s.callers t = .request who pc →
      RequestMove size who.job s.mem pc m (.returned .promiseSatisfied) →
      Stepped size s (.run t)
        ({ s with mem := m }.goto t .idle [.returned t who.call (.threw .promiseSatisfied)])
  | nullPromise (t who pc m) : s.callers t = .request who pc →
      RequestMove size who.job s.mem pc m (.returned .nullPromise) →
      Stepped size s (.run t) { s with mem := m, fault := some .nullPromise }
  | started (t) : s.callers t = .start .exchange → s.mem.state = .standby →
      Stepped size s (.run t)
        ({ s with mem := { s.mem with state := .running } }.goto t (.start .launch) [])
  | notStarted (t) : s.callers t = .start .exchange → s.mem.state ≠ .standby →
      Stepped size s (.run t) (s.goto t .idle [.returned t .start (.done false)])
  | launch (t) : s.callers t = .start .launch →
      Stepped size s (.run t)
        ({ s with
          threads := Function.update s.threads s.launched .load
          launched := s.launched + 1 }.goto t (.start (.assign s.launched)) [])
  | assign (t k) : s.callers t = .start (.assign k) →
      Stepped size s (.run t)
        ({ s with mem := { s.mem with thr := some k } }.goto t .idle
          [.returned t .start (.done true)])
  | joinableThread (t k) : s.callers t = .start (.assign k) →
      Stepped size s (.run t) { s with fault := some .joinableThread }
  | stopped (t sync) : s.callers t = .shutdown sync .exchange → s.mem.state = .running →
      Stepped size s (.run t)
        ({ s with mem := { s.mem with state := .shutdown } }.goto t
          (.shutdown sync .loadRemained) [])
  | notStopped (t sync) : s.callers t = .shutdown sync .exchange → s.mem.state ≠ .running →
      Stepped size s (.run t) (s.goto t .idle [.returned t (.shutdown sync) (.done false)])
  | wake (t sync) : s.callers t = .shutdown sync .loadRemained → s.mem.remained = 0 →
      Stepped size s (.run t) (s.goto t (.request (.shutdown sync) .enqueue) [])
  | noWake (t sync) : s.callers t = .shutdown sync .loadRemained → s.mem.remained ≠ 0 →
      Stepped size s (.run t) (s.goto t (.shutdown sync .joinable) [])
  | tail (t sync pc pc' thr) : s.callers t = .shutdown sync pc → pc.Tail → pc'.Tail →
      Stepped size s (.run t)
        ({ s with mem := { s.mem with thr := thr } }.goto t (.shutdown sync pc') [])
  | tailEnd (t sync pc thr result) : s.callers t = .shutdown sync pc → pc.Tail →
      Stepped size s (.run t)
        ({ s with mem := { s.mem with thr := thr } }.goto t .idle
          [.returned t (.shutdown sync) result])
  | work (k m p) : WorkMove s.mem (s.threads k) m p →
      Stepped size s (.work k)
        { s with
          mem := m
          threads := Function.update s.threads k p
          log := s.log ++ ranEvents s.mem (s.threads k)
          fault := workFault s.mem (s.threads k) }

theorem shutdownStep_tail {size : QueueSize w} {s s' : System w J T} {t : T} {sync : Bool}
    {pc : ShutdownPc} (ht : s.callers t = .shutdown sync pc) (hpc : pc.Tail)
    (h : s.shutdownStep t sync pc = some s') : Stepped size s (.run t) s' := by
  cases pc with
  | exchange | loadRemained => cases hpc
  | joinable =>
    obtain rfl := Option.some.inj h
    apply Stepped.tail t sync .joinable _ s.mem.thr ht trivial
    split <;> trivial
  | join =>
    simp only [System.shutdownStep] at h
    split at h
    · obtain rfl := Option.some.inj h
      exact .tailEnd t sync .join s.mem.thr _ ht trivial
    · obtain rfl := Option.some.inj h
      exact .tail t sync .join _ s.mem.thr ht trivial trivial
  | joining k =>
    simp only [System.shutdownStep] at h
    split at h
    · obtain rfl := Option.some.inj h
      exact .tailEnd t sync (.joining k) none _ ht trivial
    · cases h
  | detach =>
    simp only [System.shutdownStep] at h
    split at h
    · obtain rfl := Option.some.inj h
      exact .tailEnd t sync .detach s.mem.thr _ ht trivial
    · obtain rfl := Option.some.inj h
      exact .tailEnd t sync .detach none _ ht trivial

theorem System.step_cases {size : QueueSize w} {s s' : System w J T} {a : Action J T}
    (h : s.step size a = some s') : s.fault = none ∧ Stepped size s a s' := by
  simp only [step] at h
  split at h
  swap
  · cases h
  refine ⟨‹_›, ?_⟩
  cases a with
  | call t call =>
    simp only [next] at h
    split at h
    · obtain rfl := Option.some.inj h
      exact .call t call ‹_›
    · cases h
  | run t =>
    simp only [next] at h
    split at h
    · cases h
    · rename_i who pc ht
      obtain rfl := Option.some.inj h
      have hmove := requestStep_move size who.job s.mem pc
      generalize requestStep size who.job s.mem pc = r at hmove
      obtain ⟨m, next⟩ := r
      cases next with
      | goto pc' => exact .request t who pc pc' m ht hmove
      | returned result =>
        cases result with
        | count c => exact .answered t who pc m c ht hmove
        | promiseSatisfied => exact .satisfied t who pc m ht hmove
        | nullPromise => exact .nullPromise t who pc m ht hmove
    · rename_i pc ht
      obtain rfl := Option.some.inj h
      cases pc with
      | exchange =>
        simp only [startStep]
        split
        · exact .started t ht ‹_›
        · exact .notStarted t ht ‹_›
      | launch => exact .launch t ht
      | assign k =>
        simp only [startStep]
        split
        · exact .assign t k ht
        · exact .joinableThread t k ht
    · rename_i sync pc ht
      cases pc with
      | exchange =>
        obtain rfl := Option.some.inj h
        split
        · exact .stopped t sync ht ‹_›
        · exact .notStopped t sync ht ‹_›
      | loadRemained =>
        obtain rfl := Option.some.inj h
        split
        · exact .wake t sync ht ‹_›
        · exact .noWake t sync ht ‹_›
      | joinable | join | joining | detach => exact shutdownStep_tail ht trivial h
  | work k =>
    simp only [next, Option.map_eq_some_iff] at h
    obtain ⟨⟨m, p⟩, hm, rfl⟩ := h
    exact .work k m p (workerStep_move hm)

end

end Vee.Worker
