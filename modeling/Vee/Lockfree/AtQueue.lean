import Mathlib.Algebra.GroupWithZero.Nat
import Mathlib.Logic.Function.Basic
import Mathlib.Data.Fin.Basic

/- `vee::lockfree::atqueue` (vee/lockfree/queue.h), step by step.

   The memory is the two indices `_front`, `_rear` and the two arrays `_cont`,
   `_ptrs`. The only non-null pointer the code ever stores in `_ptrs[i]` is
   `&_cont[i]`, so a slot of `_ptrs` is a `Bool`: whether it is non-null. Each
   constructor of `EnqueuePc` and `DequeuePc` is one program point, and each
   step performs the one access to shared memory that stands there: the load of
   an index, the read of `_ptrs[i]`, the compare-exchange, the access to
   `_cont[i]`, the write of `_ptrs[i]`. The fences are no steps: the model is
   sequentially consistent. `size_t` is `BitVec w` (the project builds for 32 and
   64 bits).

   `moved` is what an element assigned from as an rvalue is left as; it is `id`
   for a type whose move is a copy, as for the block ids of `queue`. -/
namespace Vee.Lockfree

/-- How a step of a call ends: at another program point, or with the call returning. -/
inductive Next (P R : Type*) where
  | goto (pc : P)
  | returned (result : R)
  deriving DecidableEq, Repr

/-- The memory of one `atqueue` of the given capacity. -/
structure AtQueue (capacity : Nat) (D : Type*) where
  front : Fin capacity
  rear : Fin capacity
  cont : Fin capacity → D
  ptrs : Fin capacity → Bool

namespace AtQueue

variable {w n : Nat} {D : Type*}

/-- `(i + 1) % capacity`. -/
def wrap (i : Fin n) : Fin n := ⟨(i + 1) % n, Nat.mod_lt _ i.pos⟩

/-- `atqueue::atqueue`: both indices 0, every pointer null. -/
def init [NeZero n] [Inhabited D] : AtQueue n D :=
  { front := 0, rear := 0, cont := fun _ => default, ptrs := fun _ => false }

/-- The program points of `atqueue::enqueue`. -/
inductive EnqueuePc (w n : Nat) (D : Type*) where
  /-- `rear = _rear.load()` -/
  | load (value : D) (retries counter : BitVec w)
  /-- `_ptrs[rear] == nullptr` -/
  | check (value : D) (retries counter : BitVec w) (rear : Fin n)
  /-- the compare-exchange on `_rear` -/
  | exchange (value : D) (retries counter : BitVec w) (rear : Fin n)
  /-- `_cont[rear] = value` -/
  | store (value : D) (rear : Fin n)
  /-- `_ptrs[rear] = &_cont[rear]` -/
  | publish (value : D) (rear : Fin n)
  deriving DecidableEq, Repr

/-- The program points of `atqueue::dequeue`. -/
inductive DequeuePc (n : Nat) (D : Type*) where
  /-- `front = _front.load()` -/
  | load
  /-- `_ptrs[front] != nullptr` -/
  | check (front : Fin n)
  /-- the compare-exchange on `_front` -/
  | exchange (front : Fin n)
  /-- `out = _cont[front]` -/
  | take (front : Fin n)
  /-- `_ptrs[front] = nullptr` -/
  | clear (front : Fin n) (out : D)
  deriving DecidableEq, Repr

/-- The argument of the call. -/
def EnqueuePc.value : EnqueuePc w n D → D
  | load v _ _ | check v _ _ _ | exchange v _ _ _ | store v _ | publish v _ => v

/-- Where `enqueue(value, retries)` starts: `counter` is 0, so the loop is entered. -/
def EnqueuePc.start (value : D) (retries : BitVec w) : EnqueuePc w n D := .load value retries 0

/-- One step of `atqueue::enqueue`. -/
def enqueueStep (q : AtQueue n D) :
    EnqueuePc w n D → AtQueue n D × Next (EnqueuePc w n D) Bool
  | .load v retries counter => (q, .goto (.check v retries counter q.rear))
  | .check v retries counter rear =>
    if q.ptrs rear = false then (q, .goto (.exchange v retries counter rear))
    else if counter + 1 ≤ retries then (q, .goto (.load v retries (counter + 1)))
    else (q, .returned false)
  | .exchange v retries counter rear =>
    if q.rear = rear then ({ q with rear := wrap rear }, .goto (.store v rear))
    else (q, .goto (.load v retries counter))
  | .store v rear =>
    ({ q with cont := Function.update q.cont rear v }, .goto (.publish v rear))
  | .publish _ rear => ({ q with ptrs := Function.update q.ptrs rear true }, .returned true)

/-- One step of `atqueue::dequeue`; it returns `none` for `false`. -/
def dequeueStep (moved : D → D) (q : AtQueue n D) :
    DequeuePc n D → AtQueue n D × Next (DequeuePc n D) (Option D)
  | .load => (q, .goto (.check q.front))
  | .check front =>
    if q.ptrs front = true then (q, .goto (.exchange front)) else (q, .returned none)
  | .exchange front =>
    if q.front = front then ({ q with front := wrap front }, .goto (.take front))
    else (q, .goto .load)
  | .take front =>
    ({ q with cont := Function.update q.cont front (moved (q.cont front)) },
      .goto (.clear front (q.cont front)))
  | .clear front out =>
    ({ q with ptrs := Function.update q.ptrs front false }, .returned (some out))

/-- What a thread is doing with an `atqueue`. -/
inductive Pc (w n : Nat) (D : Type*) where
  | idle
  | enqueue (pc : EnqueuePc w n D)
  | dequeue (pc : DequeuePc n D)
  deriving DecidableEq, Repr

/-- The slot the thread has won by an exchange on `_rear` and has not published yet. -/
def Pc.writing : Pc w n D → Option (Fin n)
  | enqueue (.store _ i) | enqueue (.publish _ i) => some i
  | _ => none

/-- The slot the thread has won by an exchange on `_front` and has not cleared yet. -/
def Pc.reading : Pc w n D → Option (Fin n)
  | dequeue (.take i) | dequeue (.clear i _) => some i
  | _ => none

/-! ## What a step can do -/

/-- Every step of a call of `enqueue` or `dequeue`, with the point it leaves and
the point it reaches; a call that returns leaves its thread idle. -/
inductive Move (moved : D → D) (q : AtQueue n D) :
    Pc w n D → AtQueue n D → Pc w n D → Prop where
  | loadRear (v : D) (r c : BitVec w) :
      Move moved q (.enqueue (.load v r c)) q (.enqueue (.check v r c q.rear))
  | free (v : D) (r c : BitVec w) (i : Fin n) : q.ptrs i = false →
      Move moved q (.enqueue (.check v r c i)) q (.enqueue (.exchange v r c i))
  | retry (v : D) (r c : BitVec w) (i : Fin n) : q.ptrs i = true → c + 1 ≤ r →
      Move moved q (.enqueue (.check v r c i)) q (.enqueue (.load v r (c + 1)))
  | full (v : D) (r c : BitVec w) (i : Fin n) : q.ptrs i = true → ¬ c + 1 ≤ r →
      Move moved q (.enqueue (.check v r c i)) q .idle
  | lostRear (v : D) (r c : BitVec w) (i : Fin n) : q.rear ≠ i →
      Move moved q (.enqueue (.exchange v r c i)) q (.enqueue (.load v r c))
  | reserve (v : D) (r c : BitVec w) :
      Move moved q (.enqueue (.exchange v r c q.rear)) { q with rear := wrap q.rear }
        (.enqueue (.store v q.rear))
  | store (v : D) (i : Fin n) :
      Move moved q (.enqueue (.store v i)) { q with cont := Function.update q.cont i v }
        (.enqueue (.publish v i))
  | publish (v : D) (i : Fin n) :
      Move moved q (.enqueue (.publish v i)) { q with ptrs := Function.update q.ptrs i true } .idle
  | loadFront : Move moved q (.dequeue .load) q (.dequeue (.check q.front))
  | seen (i : Fin n) : q.ptrs i = true →
      Move moved q (.dequeue (.check i)) q (.dequeue (.exchange i))
  | empty (i : Fin n) : q.ptrs i = false → Move moved q (.dequeue (.check i)) q .idle
  | lostFront (i : Fin n) : q.front ≠ i →
      Move moved q (.dequeue (.exchange i)) q (.dequeue .load)
  | claim : Move moved q (.dequeue (.exchange q.front)) { q with front := wrap q.front }
        (.dequeue (.take q.front))
  | take (i : Fin n) :
      Move moved q (.dequeue (.take i))
        { q with cont := Function.update q.cont i (moved (q.cont i)) }
        (.dequeue (.clear i (q.cont i)))
  | clear (i : Fin n) (out : D) :
      Move moved q (.dequeue (.clear i out)) { q with ptrs := Function.update q.ptrs i false } .idle

/-- The point a step of `enqueue` leaves its thread at. -/
def afterEnqueue : Next (EnqueuePc w n D) Bool → Pc w n D
  | .goto pc => .enqueue pc
  | .returned _ => .idle

/-- The point a step of `dequeue` leaves its thread at. -/
def afterDequeue : Next (DequeuePc n D) (Option D) → Pc w n D
  | .goto pc => .dequeue pc
  | .returned _ => .idle

theorem enqueueStep_move (moved : D → D) (q : AtQueue n D) (pc : EnqueuePc w n D) :
    Move moved q (.enqueue pc) (q.enqueueStep pc).1 (afterEnqueue (q.enqueueStep pc).2) := by
  cases pc with
  | load v r c => exact .loadRear v r c
  | check v r c i =>
    simp only [enqueueStep]
    split
    · exact .free v r c i ‹_›
    · have hi : q.ptrs i = true := by simpa using ‹¬ q.ptrs i = false›
      split
      · exact .retry v r c i hi ‹_›
      · exact .full v r c i hi ‹_›
  | exchange v r c i =>
    simp only [enqueueStep]
    split
    · rename_i h
      subst h
      exact .reserve v r c
    · exact .lostRear v r c i ‹_›
  | store v i => exact .store v i
  | publish v i => exact .publish v i

theorem dequeueStep_move (moved : D → D) (q : AtQueue n D) (pc : DequeuePc n D) :
    Move (w := w) moved q (.dequeue pc) (q.dequeueStep moved pc).1
      (afterDequeue (q.dequeueStep moved pc).2) := by
  cases pc with
  | load => exact .loadFront
  | check i =>
    simp only [dequeueStep]
    split
    · exact .seen i ‹_›
    · exact .empty i (by simpa using ‹¬ q.ptrs i = true›)
  | exchange i =>
    simp only [dequeueStep]
    split
    · rename_i h
      subst h
      exact .claim
    · exact .lostFront i ‹_›
  | take i => exact .take i
  | clear i out => exact .clear i out

section
variable {moved : D → D} {q q' : AtQueue n D}

theorem enqueueStep_goto {pc pc' : EnqueuePc w n D} (h : q.enqueueStep pc = (q', .goto pc')) :
    Move moved q (.enqueue pc) q' (.enqueue pc') := by
  simpa [h, afterEnqueue] using enqueueStep_move moved q pc

theorem dequeueStep_goto {pc pc' : DequeuePc n D} (h : q.dequeueStep moved pc = (q', .goto pc')) :
    Move (w := w) moved q (.dequeue pc) q' (.dequeue pc') := by
  simpa [h, afterDequeue] using dequeueStep_move (w := w) moved q pc

/-- `enqueue` fails at the check of a non-null pointer only. -/
theorem enqueueStep_false {pc : EnqueuePc w n D} (h : q.enqueueStep pc = (q', .returned false)) :
    q' = q ∧ ∃ v r c i, pc = .check v r c i ∧ q.ptrs i = true := by
  cases pc with
  | check v r c i =>
    simp only [enqueueStep] at h
    split at h
    · cases h
    · rename_i hi
      split at h
      · cases h
      · cases h
        exact ⟨rfl, v, r, c, i, rfl, by simpa using hi⟩
  | exchange =>
    simp only [enqueueStep] at h
    split at h <;> cases h
  | load | store | publish => cases h

/-- `enqueue` succeeds at the write of the pointer only. -/
theorem enqueueStep_true {pc : EnqueuePc w n D} (h : q.enqueueStep pc = (q', .returned true)) :
    ∃ v i, pc = .publish v i ∧ q' = { q with ptrs := Function.update q.ptrs i true } := by
  cases pc with
  | publish v i =>
    cases h
    exact ⟨v, i, rfl, rfl⟩
  | check =>
    simp only [enqueueStep] at h
    split at h
    · cases h
    · split at h <;> cases h
  | exchange =>
    simp only [enqueueStep] at h
    split at h <;> cases h
  | load | store => cases h

/-- `dequeue` fails at the check of a null pointer only. -/
theorem dequeueStep_none {pc : DequeuePc n D} (h : q.dequeueStep moved pc = (q', .returned none)) :
    q' = q ∧ ∃ i, pc = .check i ∧ q.ptrs i = false := by
  cases pc with
  | check i =>
    simp only [dequeueStep] at h
    split at h
    · cases h
    · rename_i hi
      cases h
      exact ⟨rfl, i, rfl, by simpa using hi⟩
  | exchange =>
    simp only [dequeueStep] at h
    split at h <;> cases h
  | load | take | clear => cases h

/-- `dequeue` succeeds at the clearing of the pointer only. -/
theorem dequeueStep_some {pc : DequeuePc n D} {v : D}
    (h : q.dequeueStep moved pc = (q', .returned (some v))) :
    ∃ i, pc = .clear i v ∧ q' = { q with ptrs := Function.update q.ptrs i false } := by
  cases pc with
  | clear i out =>
    cases h
    exact ⟨i, rfl, rfl⟩
  | check =>
    simp only [dequeueStep] at h
    split at h <;> cases h
  | exchange =>
    simp only [dequeueStep] at h
    split at h <;> cases h
  | load | take => cases h

end

end AtQueue

end Vee.Lockfree
