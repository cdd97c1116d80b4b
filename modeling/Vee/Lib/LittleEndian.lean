import Mathlib.Data.Nat.Digits.Lemmas

/- The number that a sequence of bytes stands for, the least significant byte first.

   It is `Nat.ofDigits` to base 256; what is said here is how it goes with the prefixes,
   the rests and the zero padding of a sequence, and that of two sequences the part that is
   put behind decides first (`append_lt_append_iff`). -/
namespace LittleEndian

/-- The number of a byte sequence. -/
def value (l : List UInt8) : Nat := Nat.ofDigits 256 (l.map UInt8.toNat)

variable {l l' r r' : List UInt8}

/-- Bytes are digits. -/
theorem digit_lt (l : List UInt8) : ∀ x ∈ l.map UInt8.toNat, x < 256 := by
  intro x hx
  obtain ⟨b, -, rfl⟩ := List.mem_map.mp hx
  exact b.toNat_lt

/-- The first byte is the lowest. -/
theorem value_cons (b : UInt8) (l : List UInt8) : value (b :: l) = b.toNat + 256 * value l :=
  Nat.ofDigits_cons

theorem value_lt (l : List UInt8) : value l < 256 ^ l.length := by
  have hvalue := Nat.ofDigits_lt_base_pow_length (b := 256) (by omega) (digit_lt l)
  rwa [List.length_map] at hvalue

/-- Zero padding keeps the number. -/
@[simp] theorem value_append_zeros (l : List UInt8) (k : Nat) :
    value (l ++ List.replicate k 0) = value l := by
  rw [value, List.map_append, List.map_replicate]
  exact Nat.ofDigits_append_replicate_zero _

/-- A prefix is the number modulo. -/
theorem value_take (l : List UInt8) (k : Nat) : value (l.take k) = value l % 256 ^ k := by
  rw [value, List.map_take]
  exact (Nat.ofDigits_mod_pow_eq_ofDigits_take k (by omega) _ (digit_lt l)).symm

/-- Sequences of one length are told apart by their numbers. -/
theorem value_inj (hlen : l.length = l'.length) : value l = value l' ↔ l = l' := by
  refine ⟨?_, congrArg value⟩
  intro h
  have hdigits := Nat.ofDigits_inj_of_len_eq (by omega : 1 < 256) (by simpa using hlen)
    (digit_lt l) (digit_lt l') h
  exact List.map_injective_iff.mpr (fun _ _ => UInt8.toNat_inj.mp) hdigits

/-- The bytes put behind weigh more than all those before them. -/
theorem value_append (l r : List UInt8) : value (l ++ r) = value l + 256 ^ l.length * value r := by
  rw [value, List.map_append, Nat.ofDigits_append, List.length_map]
  rfl

/-- Numbers are compared from the bytes behind on. -/
theorem append_lt_append_iff (r r' : List UInt8) (hlen : l.length = l'.length) :
    value (l' ++ r') < value (l ++ r) ↔
      value r' < value r ∨ value r' = value r ∧ value l' < value l := by
  have hl := value_lt l
  have hl' := value_lt l'
  rw [value_append, value_append, ← hlen]
  rw [← hlen] at hl'
  generalize 256 ^ l.length = b at hl hl'
  rcases Nat.lt_trichotomy (value r') (value r) with hlt | heq | hgt
  · have hmul := Nat.mul_le_mul_left b (Nat.succ_le_of_lt hlt)
    rw [Nat.mul_succ] at hmul
    exact iff_of_true (by omega) (.inl hlt)
  · rw [heq]
    omega
  · have hmul := Nat.mul_le_mul_left b (Nat.succ_le_of_lt hgt)
    rw [Nat.mul_succ] at hmul
    exact iff_of_false (by omega) (by omega)

end LittleEndian
