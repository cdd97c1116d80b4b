import Mathlib.Data.List.Range

/- A memory of bytes, what is read from it and written to it in one piece.

   An address is a number. `load` and `store` take the address of the first byte; a write is
   seen at its own addresses (`store_inside`) and at no others (`store_outside`). -/
namespace ByteMemory

/-- The byte at each address. -/
abbrev Memory := Nat → UInt8

/-- The `n` bytes from `ptr` on. -/
def load (m : Memory) (ptr n : Nat) : List UInt8 := (List.range n).map fun i => m (ptr + i)

/-- The memory with the bytes written from `ptr` on. -/
def store (m : Memory) (ptr : Nat) (bytes : List UInt8) : Memory := fun a =>
  if ptr ≤ a then bytes[a - ptr]?.getD (m a) else m a

variable {m : Memory} {ptr a n : Nat} {bytes : List UInt8}

@[simp] theorem length_load : (load m ptr n).length = n := by
  rw [load, List.length_map, List.length_range]

/-- The bytes up to one place, and those from there on. -/
theorem load_add (m : Memory) (ptr n k : Nat) :
    load m ptr (n + k) = load m ptr n ++ load m (ptr + n) k := by
  unfold load
  rw [List.range_add, List.map_append, List.map_map]
  congr 1
  exact List.map_congr_left fun i _ => congrArg m (Nat.add_assoc ptr n i).symm

theorem load_prefix (m : Memory) (ptr : Nat) {k : Nat} (h : n ≤ k) :
    load m ptr n <+: load m ptr k := by
  obtain ⟨d, rfl⟩ := Nat.exists_eq_add_of_le h
  rw [load_add]
  exact List.prefix_append _ _

theorem store_inside {i : Nat} (h : i < bytes.length) : store m ptr bytes (ptr + i) = bytes[i] := by
  rw [store, if_pos (Nat.le_add_right ptr i), Nat.add_sub_cancel_left,
    List.getElem?_eq_getElem h, Option.getD_some]

theorem store_outside (h : a < ptr ∨ ptr + bytes.length ≤ a) : store m ptr bytes a = m a := by
  unfold store
  split
  · rw [List.getElem?_eq_none (by omega), Option.getD_none]
  · rfl

theorem getElem_load {i : Nat} (h : i < (load m ptr n).length) :
    (load m ptr n)[i] = m (ptr + i) := by
  simp only [load, List.getElem_map, List.getElem_range]

/-- What is copied is found where it was copied to. -/
theorem store_load (f : Memory) (pos : Nat) {i : Nat} (h : i < n) :
    store m ptr (load f pos n) (ptr + i) = f (pos + i) := by
  have hlen : i < (load f pos n).length := by rwa [length_load]
  rw [store_inside hlen, getElem_load]

end ByteMemory
