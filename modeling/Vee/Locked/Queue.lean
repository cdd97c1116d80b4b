import Vee.Lib.Circular
import Vee.Lib.Fifo
import Vee.Locked.SpinLock

/- `vee::queue` (vee/queue.h) and the threads that use one.

   What `enqueue` and `dequeue` do under `_idxlck` is one step: it assigns them a block.
   The access to the block is a later step, and the destructor of `block_locker` then
   releases the block's lock, which was adopted: no step acquires it. `order` and `due` are
   no data of the program: `order` holds the values of the enqueues whose blocks are
   assigned and not assigned on, oldest first, and `due` the one that was the oldest when
   a `dequeue` was assigned its block. -/
namespace Vee.Locked
open Circular

/-- The members of a `queue` of the given capacity. -/
structure Queue (capacity : Nat) (D : Type*) where
  blocks : Fin capacity → D
  blocklcks : Fin capacity → SpinLock
  front : Fin capacity
  rear : Fin capacity
  size : Nat

namespace Queue

variable {n : Nat} [NeZero n] {D T : Type*}

/-- `queue::queue`; `blocks` is what `new data_t[capacity]` leaves in them. -/
def init (blocks : Fin n → D) : Queue n D :=
  { blocks := blocks, blocklcks := fun _ => .new, front := 0, rear := 0, size := 0 }

omit [NeZero n] in
/-- `is_full` -/
def isFull (q : Queue n D) : Bool := q.size == n

/-- The index section of `enqueue`: the block it is assigned, unless the queue is full. -/
def enqueueIndex (overwrite : Bool) (q : Queue n D) : Option (Fin n × Queue n D) :=
  if q.isFull then
    if overwrite then some (q.rear, { q with rear := next q.rear, front := next q.front })
    else none
  else some (q.rear, { q with rear := next q.rear, size := q.size + 1 })

/-- The index section of `dequeue`: the block it is assigned, unless the queue is empty. -/
def dequeueIndex (q : Queue n D) : Option (Fin n × Queue n D) :=
  if q.size = 0 then none
  else some (q.front, { q with size := q.size - 1, front := next q.front })

section
variable {q : Queue n D}

theorem enqueueIndex_room (overwrite : Bool) (h : q.size ≠ n) : q.enqueueIndex overwrite =
    some (q.rear, { q with rear := next q.rear, size := q.size + 1 }) := by
  simp [enqueueIndex, isFull, h]

theorem enqueueIndex_full (h : q.size = n) : q.enqueueIndex false = none := by
  simp [enqueueIndex, isFull, h]

theorem enqueueIndex_overwrite (h : q.size = n) : q.enqueueIndex true =
    some (q.rear, { q with rear := next q.rear, front := next q.front }) := by
  rw [enqueueIndex, isFull, if_pos (beq_iff_eq.mpr h), if_pos rfl]

theorem dequeueIndex_empty (h : q.size = 0) : q.dequeueIndex = none := if_pos h

theorem dequeueIndex_some (h : q.size ≠ 0) : q.dequeueIndex =
    some (q.front, { q with size := q.size - 1, front := next q.front }) := if_neg h

end

/-- The queue with `val` in the block. -/
def write (q : Queue n D) (i : Fin n) (val : D) : Queue n D :=
  { q with blocks := Function.update q.blocks i val }

/-- The queue with the block's lock released. -/
def release (q : Queue n D) (i : Fin n) : Queue n D :=
  { q with blocklcks := Function.update q.blocklcks i (q.blocklcks i).unlock }

/-- The program points of a thread. -/
inductive Pc (n : Nat) (D : Type*) where
  | idle
  /-- the index section of `enqueue` -/
  | enqueue (val : D)
  /-- `_blocks[rear] = val` -/
  | write (rear : Fin n) (val : D)
  /-- the release of `_blocklcks[rear]` -/
  | written (rear : Fin n)
  /-- the index section of `dequeue` -/
  | dequeue
  /-- `out = _blocks[front]` -/
  | read (front : Fin n) (due : Option D)
  /-- the release of `_blocklcks[front]` -/
  | taken (front : Fin n) (due : Option D) (out : D)
  deriving DecidableEq, Repr

/-- The block the thread is to access. -/
def Pc.accesses : Pc n D → Option (Fin n)
  | write i _ | read i _ => some i
  | _ => none

/-- The block whose lock the thread is to release. -/
def Pc.releases : Pc n D → Option (Fin n)
  | written i | taken i _ _ => some i
  | _ => none

/-- What a call returned. -/
inductive Event (T D : Type*) where
  | enqueued (t : T) (result : Bool)
  | dequeued (t : T) (due : Option D) (out : D)
  /-- `dequeue` returned false -/
  | empty (t : T)
  deriving DecidableEq, Repr

/-- The queue, the values it owes, the threads and what the calls returned so far. -/
structure System (n : Nat) (D T : Type*) where
  queue : Queue n D
  order : List D
  pcs : T → Pc n D
  log : List (Event T D)

/-- Start a call in an idle thread, or let a thread take the next step of its call. -/
inductive Action (D T : Type*) where
  | enqueue (t : T) (val : D)
  | dequeue (t : T)
  | run (t : T)
  deriving DecidableEq, Repr

namespace System

/-- A new queue and no call in progress. -/
def init (blocks : Fin n → D) : System n D T :=
  { queue := Queue.init blocks, order := [], pcs := fun _ => .idle, log := [] }

section
variable [DecidableEq T] (overwrite : Bool) (s : System n D T)

omit [NeZero n] in
/-- The state with thread `t` at `p` and the events `new` logged. -/
def goto (queue : Queue n D) (order : List D) (t : T) (p : Pc n D) (new : List (Event T D)) :
    System n D T :=
  { queue := queue, order := order, pcs := Function.update s.pcs t p, log := s.log ++ new }

omit [NeZero n] in
@[simp] theorem goto_pcs_self {queue : Queue n D} {order : List D} {t : T} {p : Pc n D}
    {new : List (Event T D)} : (s.goto queue order t p new).pcs t = p := by
  simp [goto]

omit [NeZero n] in
theorem goto_pcs_of_ne {queue : Queue n D} {order : List D} {t u : T} {p : Pc n D}
    {new : List (Event T D)} (h : u ≠ t) : (s.goto queue order t p new).pcs u = s.pcs u := by
  simp [goto, h]

/-- The step of the system. -/
def step : Action D T → Option (System n D T)
  | .enqueue t val =>
    match s.pcs t with
    | .idle => some (s.goto s.queue s.order t (.enqueue val) [])
    | _ => none
  | .dequeue t =>
    match s.pcs t with
    | .idle => some (s.goto s.queue s.order t .dequeue [])
    | _ => none
  | .run t =>
    match s.pcs t with
    | .idle => none
    | .enqueue val =>
      match s.queue.enqueueIndex overwrite with
      | some (rear, queue) =>
        some (s.goto queue (Fifo.slide n s.order val) t (.write rear val) [])
      | none => some (s.goto s.queue s.order t .idle [.enqueued t false])
    | .write rear val => some (s.goto (s.queue.write rear val) s.order t (.written rear) [])
    | .written rear => some (s.goto (s.queue.release rear) s.order t .idle [.enqueued t true])
    | .dequeue =>
      match s.queue.dequeueIndex with
      | some (front, queue) =>
        some (s.goto queue s.order.tail t (.read front s.order.head?) [])
      | none => some (s.goto s.queue s.order t .idle [.empty t])
    -- moved from only where a move is a copy, so the block keeps the value
    | .read front due =>
      some (s.goto s.queue s.order t (.taken front due (s.queue.blocks front)) [])
    | .taken front due out =>
      some (s.goto (s.queue.release front) s.order t .idle [.dequeued t due out])

/-- The block that the step of thread `t` assigns to it. -/
def assigns (t : T) : Option (Fin n) :=
  match s.pcs t with
  | .enqueue _ => (s.queue.enqueueIndex overwrite).map Prod.fst
  | .dequeue => s.queue.dequeueIndex.map Prod.fst
  | _ => none

end

end System

/-! ## What a step can do -/

/-- Every step of a call of thread `t`, with what it leaves and logs. -/
inductive Move (overwrite : Bool) (t : T) (q : Queue n D) (order : List D) :
    Pc n D → Queue n D → List D → Pc n D → List (Event T D) → Prop where
  | append (val : D) : q.size ≠ n →
      Move overwrite t q order (.enqueue val) { q with rear := next q.rear, size := q.size + 1 }
        (Fifo.slide n order val) (.write q.rear val) []
  | replace (val : D) : q.size = n → overwrite = true →
      Move overwrite t q order (.enqueue val)
        { q with rear := next q.rear, front := next q.front }
        (Fifo.slide n order val) (.write q.rear val) []
  | full (val : D) : q.size = n → overwrite = false →
      Move overwrite t q order (.enqueue val) q order .idle [.enqueued t false]
  | write (rear : Fin n) (val : D) :
      Move overwrite t q order (.write rear val) (q.write rear val) order (.written rear) []
  | written (rear : Fin n) :
      Move overwrite t q order (.written rear) (q.release rear) order .idle [.enqueued t true]
  | oldest : q.size ≠ 0 →
      Move overwrite t q order .dequeue { q with size := q.size - 1, front := next q.front }
        order.tail (.read q.front order.head?) []
  | empty : q.size = 0 → Move overwrite t q order .dequeue q order .idle [.empty t]
  | read (front : Fin n) (due : Option D) :
      Move overwrite t q order (.read front due) q order (.taken front due (q.blocks front)) []
  | taken (front : Fin n) (due : Option D) (out : D) :
      Move overwrite t q order (.taken front due out) (q.release front) order .idle
        [.dequeued t due out]

/-- The points a call starts at. -/
def Pc.Entry (p : Pc n D) : Prop := (∃ val, p = .enqueue val) ∨ p = .dequeue

variable [DecidableEq T] {overwrite : Bool} {s s' : System n D T} {a : Action D T}

/-- A step of a call is one of the moves. -/
theorem System.run_move {t : T} (h : s.step overwrite (.run t) = some s') :
    ∃ q order p new, s' = s.goto q order t p new ∧
      Move overwrite t s.queue s.order (s.pcs t) q order p new := by
  simp only [step] at h
  generalize hpc : s.pcs t = pc at h
  cases pc with
  | idle => cases h
  | enqueue val =>
    by_cases hfull : s.queue.size = n
    · cases overwrite with
      | true =>
        rw [enqueueIndex_overwrite hfull] at h
        exact ⟨_, _, _, _, (Option.some.inj h).symm, .replace val hfull rfl⟩
      | false =>
        rw [enqueueIndex_full hfull] at h
        exact ⟨_, _, _, _, (Option.some.inj h).symm, .full val hfull rfl⟩
    · rw [enqueueIndex_room overwrite hfull] at h
      exact ⟨_, _, _, _, (Option.some.inj h).symm, .append val hfull⟩
  | write rear val => exact ⟨_, _, _, _, (Option.some.inj h).symm, .write rear val⟩
  | written rear => exact ⟨_, _, _, _, (Option.some.inj h).symm, .written rear⟩
  | dequeue =>
    by_cases hempty : s.queue.size = 0
    · rw [dequeueIndex_empty hempty] at h
      exact ⟨_, _, _, _, (Option.some.inj h).symm, .empty hempty⟩
    · rw [dequeueIndex_some hempty] at h
      exact ⟨_, _, _, _, (Option.some.inj h).symm, .oldest hempty⟩
  | read front due => exact ⟨_, _, _, _, (Option.some.inj h).symm, .read front due⟩
  | taken front due out => exact ⟨_, _, _, _, (Option.some.inj h).symm, .taken front due out⟩

/-- A step starts a call in an idle thread, or it is a step of a call. -/
theorem System.step_cases (h : s.step overwrite a = some s') :
    (∃ t p, s.pcs t = .idle ∧ p.Entry ∧ (∀ u, a ≠ .run u) ∧ s' = s.goto s.queue s.order t p []) ∨
    (∃ t q order p new, a = .run t ∧ s' = s.goto q order t p new ∧
      Move overwrite t s.queue s.order (s.pcs t) q order p new) := by
  cases a with
  | enqueue t val =>
    simp only [step] at h
    split at h
    · exact .inl ⟨t, _, ‹_›, .inl ⟨val, rfl⟩, by simp, (Option.some.inj h).symm⟩
    · cases h
  | dequeue t =>
    simp only [step] at h
    split at h
    · exact .inl ⟨t, _, ‹_›, .inr rfl, by simp, (Option.some.inj h).symm⟩
    · cases h
  | run t =>
    obtain ⟨q, order, p, new, hs, hmove⟩ := run_move h
    exact .inr ⟨t, q, order, p, new, rfl, hs, hmove⟩

end Queue

end Vee.Locked
