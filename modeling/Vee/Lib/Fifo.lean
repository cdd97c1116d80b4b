import Mathlib.Data.List.Basic

/- The bounded first-in first-out queue over lists and the bounded last-in first-out
   stack: what `enqueue` and `dequeue`, `push` and `pop` do and return when each runs alone,
   and the queue whose oldest value makes room. In a stack the newest value is first. -/
namespace Fifo

variable {D : Type*}

/-- Append `v` unless `n` values are held. -/
def enqueue (n : Nat) (q : List D) (v : D) : List D × Bool :=
  if q.length < n then (q ++ [v], true) else (q, false)

/-- Take the oldest value out. -/
def dequeue : List D → List D × Option D
  | [] => ([], none)
  | v :: q => (q, some v)

/-- Append `v`; where `n` values are held the oldest one makes room. -/
def slide (n : Nat) (q : List D) (v : D) : List D := (q ++ [v]).drop (q.length + 1 - n)

theorem slide_room {n : Nat} {q : List D} (v : D) (h : q.length < n) :
    slide n q v = q ++ [v] := by
  rw [slide, Nat.sub_eq_zero_of_le h, List.drop_zero]

theorem slide_full {n : Nat} {q : List D} (v : D) (h : q.length = n) :
    slide n q v = (q ++ [v]).tail := by
  rw [slide, h, Nat.add_sub_cancel_left, List.drop_one]

/-- The last `n` values. -/
def recent (n : Nat) (q : List D) : List D := q.drop (q.length - n)

/-- The window slides over the values as they come. -/
theorem recent_append (n : Nat) (q : List D) (v : D) :
    recent n (q ++ [v]) = slide n (recent n q) v := by
  have hle : q.length - n ≤ q.length := Nat.sub_le _ _
  rw [slide, recent, recent, ← List.drop_append_of_le_length hle, List.drop_drop]
  congr 1
  simp only [List.length_append, List.length_singleton, List.length_drop]
  omega

theorem recent_of_le {n : Nat} {q : List D} (h : q.length ≤ n) : recent n q = q := by
  rw [recent, Nat.sub_eq_zero_of_le h, List.drop_zero]

theorem length_recent_le (n : Nat) (q : List D) : (recent n q).length ≤ n := by
  rw [recent, List.length_drop]
  omega

/-- What is in a queue with `x` appended was in it, or is `x` behind the rest. -/
theorem getElem?_append_value {q : List D} {x v : D} {k : Nat}
    (h : (q ++ [x])[k]? = some v) : k < q.length ∧ q[k]? = some v ∨ k = q.length ∧ v = x := by
  obtain ⟨hk, -⟩ := List.getElem?_eq_some_iff.mp h
  rw [List.length_append, List.length_singleton] at hk
  by_cases hlt : k < q.length
  · rw [List.getElem?_append_left hlt] at h
    exact .inl ⟨hlt, h⟩
  · have hlen : k = q.length := by omega
    rw [hlen, List.getElem?_concat_length] at h
    exact .inr ⟨hlen, (Option.some.inj h).symm⟩

theorem enqueue_room {n : Nat} {q : List D} (v : D) (h : q.length < n) :
    enqueue n q v = (q ++ [v], true) := if_pos h

theorem enqueue_full {n : Nat} {q : List D} (v : D) (h : n ≤ q.length) :
    enqueue n q v = (q, false) := if_neg (Nat.not_lt.mpr h)

@[simp] theorem dequeue_nil : dequeue ([] : List D) = ([], none) := rfl

@[simp] theorem dequeue_cons (v : D) (q : List D) : dequeue (v :: q) = (q, some v) := rfl

end Fifo

namespace Lifo

variable {D : Type*}

/-- Put `v` on top unless `n` values are held. -/
def push (n : Nat) (st : List D) (v : D) : List D × Bool :=
  if st.length < n then (v :: st, true) else (st, false)

/-- Take the newest value off. -/
def pop : List D → List D × Option D
  | [] => ([], none)
  | v :: st => (st, some v)

theorem push_room {n : Nat} {st : List D} (v : D) (h : st.length < n) :
    push n st v = (v :: st, true) := if_pos h

theorem push_full {n : Nat} {st : List D} (v : D) (h : n ≤ st.length) :
    push n st v = (st, false) := if_neg (Nat.not_lt.mpr h)

@[simp] theorem pop_nil : pop ([] : List D) = ([], none) := rfl

@[simp] theorem pop_cons (v : D) (st : List D) : pop (v :: st) = (st, some v) := rfl

end Lifo
