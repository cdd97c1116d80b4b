import Vee.Lib.Fifo
import Vee.Lockfree.Queue
import Vee.Lockfree.SpscRing

/- Calls of one `atqueue` one after another.

   With no other thread running a call takes a fixed number of steps (`enqueueAlone_call`,
   `dequeueAlone_call`), and on a ring that holds `xs` in order it does what the bounded
   FIFO does (`Contents.enqueue`, `Contents.dequeue`). -/
namespace Vee.Lockfree.AtQueue
open Circular

variable {w n : Nat} {D : Type*}

/-- A call of `dequeue` taking its steps with no other thread running. -/
def dequeueAlone (moved : D → D) :
    Nat → AtQueue n D → DequeuePc n D → AtQueue n D × Next (DequeuePc n D) (Option D)
  | 0, q, pc => (q, .goto pc)
  | k + 1, q, pc =>
    match q.dequeueStep moved pc with
    | (q', .goto pc') => dequeueAlone moved k q' pc'
    | (q', .returned result) => (q', .returned result)

/-- `enqueue(value)`, run alone. -/
def enqueueCall (q : AtQueue n D) (v : D) : AtQueue n D × Bool :=
  if q.ptrs q.rear = false then
    ({ front := q.front
       rear := wrap q.rear
       cont := Function.update q.cont q.rear v
       ptrs := Function.update q.ptrs q.rear true }, true)
  else (q, false)

/-- `dequeue(out)`, run alone, for elements whose move is a copy. -/
def dequeueCall (q : AtQueue n D) : AtQueue n D × Option D :=
  if q.ptrs q.front = true then
    ({ front := wrap q.front
       rear := q.rear
       cont := q.cont
       ptrs := Function.update q.ptrs q.front false }, some (q.cont q.front))
  else (q, none)

theorem enqueueAlone_call (hw : 0 < w) (q : AtQueue n D) (v : D) :
    enqueueAlone 5 q (.start v (0 : BitVec w)) =
      ((q.enqueueCall v).1, .returned (q.enqueueCall v).2) := by
  by_cases hfree : q.ptrs q.rear = false
  · rw [enqueueAlone_free q v 0 hfree]
    simp [enqueueCall, hfree]
  · -- `counter` is 1 after the check, and `retries` is 0
    simp [enqueueAlone, enqueueStep, EnqueuePc.start, enqueueCall, hfree, hw.ne']

theorem dequeueAlone_call (q : AtQueue n D) :
    dequeueAlone id 5 q .load = (q.dequeueCall.1, .returned q.dequeueCall.2) := by
  by_cases hset : q.ptrs q.front = true
  · simp [dequeueAlone, dequeueStep, dequeueCall, hset]
  · simp [dequeueAlone, dequeueStep, dequeueCall, hset]

/-- With no call in progress the ring holds `xs`, the oldest first. -/
def Contents [NeZero n] (q : AtQueue n D) (xs : List D) : Prop :=
  ∃ f, Spsc (w := 0) q .idle .idle f xs

section
variable [NeZero n]

/-- A ring that has been filled with the ids of all blocks. -/
theorem spsc_full : Spsc (w := w) (full : AtQueue n Nat) .idle .idle 0 (List.range n) := by
  constructor
  case filled =>
    intro k x hk
    obtain ⟨hlt, rfl⟩ : k < n ∧ k = x := by
      obtain ⟨hlen, heq⟩ := List.getElem?_eq_some_iff.mp hk
      simpa using And.intro hlen heq
    simpa [full] using Nat.mod_eq_of_lt hlt
  all_goals simp [full, Pc.reads, Pc.writes, Pc.reading, Pc.writing]

variable {q : AtQueue n D} {xs : List D}

theorem Contents.enqueue (h : Contents q xs) (v : D) :
    Contents (q.enqueueCall v).1 (Fifo.enqueue n xs v).1 ∧
      (q.enqueueCall v).2 = (Fifo.enqueue n xs v).2 := by
  obtain ⟨f, h⟩ := h
  by_cases hfree : q.ptrs q.rear = false
  · have hload := h.enqueuer_rest rfl (.inr ⟨v, 0, 0, rfl⟩)
    have hcheck := hload.enqueue_goto (.loadRear v 0 0)
    have hexchange := hcheck.enqueue_goto (.free v 0 0 q.rear hfree)
    have hstore := hexchange.enqueue_goto (.reserve v 0 0)
    have hpublish := (hstore.enqueue_goto (.store v q.rear)).publish
    rw [Fifo.enqueue_room v (h.room_of_null rfl hfree)]
    simp only [enqueueCall, if_pos hfree]
    exact ⟨⟨f, hpublish⟩, trivial⟩
  · have hfull : n ≤ xs.length := by
      by_contra hroom
      have hrear : q.rear = slot n (f + xs.length) := h.rear
      rw [hrear] at hfree
      exact hfree (h.hollow xs.length (Nat.le_refl _) (Nat.lt_of_not_le hroom))
    rw [Fifo.enqueue_full v hfull]
    simp only [enqueueCall, if_neg hfree]
    exact ⟨⟨f, h⟩, trivial⟩

theorem Contents.dequeue (h : Contents q xs) :
    Contents q.dequeueCall.1 (Fifo.dequeue xs).1 ∧ q.dequeueCall.2 = (Fifo.dequeue xs).2 := by
  obtain ⟨f, h⟩ := h
  by_cases hset : q.ptrs q.front = true
  · have hload := h.dequeuer_rest rfl (.inr rfl)
    have hcheck := hload.dequeue_goto .loadFront
    have hexchange := hcheck.dequeue_goto (.seen q.front hset)
    have htake := hexchange.dequeue_goto .claim
    have hcont : Function.update q.cont q.front (id (q.cont q.front)) = q.cont :=
      Function.update_eq_self q.front q.cont
    have hclear := htake.dequeue_goto (.take q.front)
    rw [hcont] at hclear
    obtain ⟨ys, rfl, hys⟩ := hclear.clear
    simp only [dequeueCall, if_pos hset, Fifo.dequeue_cons]
    exact ⟨⟨f + 1, hys⟩, trivial⟩
  · have hnil := h.nil_of_null rfl (by simpa using hset)
    subst hnil
    simp only [dequeueCall, if_neg hset, Fifo.dequeue_nil]
    exact ⟨⟨f, h⟩, trivial⟩

end

end Vee.Lockfree.AtQueue
