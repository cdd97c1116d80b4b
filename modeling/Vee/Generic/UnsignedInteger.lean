import Vee.Lib.LittleEndian

/- `vee::unsigned_integer` (vee/type/generic/unsigned_integer.h) on a little-endian machine.

   An object is its bytes: `data` for an `unsigned_integer`, of which there are `TypeSize`,
   and the bytes at `&rhs` for any integer operand, of which there are `sizeof`. A call of
   `memmove`, `memset` or `memcmp` that leaves the bytes it is given is `none`, and so is
   what is computed with it. `equal_to` compares `sizeof(TypeSize)` bytes where it should
   compare `TypeSize` of them: `w` is what `sizeof(size_t)` is. -/
namespace Vee.Generic
open LittleEndian

/-- `memmove(dst, src, n)`: the bytes at `dst` afterwards. -/
def memmove (dst src : List UInt8) (n : Nat) : Option (List UInt8) :=
  if n ≤ dst.length ∧ n ≤ src.length then some (src.take n ++ dst.drop n) else none

/-- `n` bytes set to 0 by `memset`, or by `= { 0, }`. -/
def zeros (n : Nat) : List UInt8 := List.replicate n 0

/-- The comparison of `memcmp`, byte for byte. -/
def compareBytes : List UInt8 → List UInt8 → Ordering
  | a :: as, b :: bs => (compare a.toNat b.toNat).then (compareBytes as bs)
  | _, _ => .eq

/-- `memcmp(lhs, rhs, n)` -/
def memcmp (lhs rhs : List UInt8) (n : Nat) : Option Ordering :=
  if n ≤ lhs.length ∧ n ≤ rhs.length then some (compareBytes (lhs.take n) (rhs.take n)) else none

/-! ## The memory functions -/

section
variable {dst src lhs rhs : List UInt8} {n : Nat}

@[simp] theorem length_zeros (n : Nat) : (zeros n).length = n := List.length_replicate

theorem memmove_eq (hdst : n ≤ dst.length) (hsrc : n ≤ src.length) :
    memmove dst src n = some (src.take n ++ dst.drop n) := if_pos ⟨hdst, hsrc⟩

/-- The whole source goes before what is left of the zeros. -/
theorem memmove_zeros (h : src.length ≤ n) :
    memmove (zeros n) src src.length = some (src ++ zeros (n - src.length)) := by
  rw [memmove_eq (by simpa using h) (le_refl _), List.take_length, zeros, List.drop_replicate]
  rfl

/-- The whole destination is filled. -/
theorem memmove_full (h : dst.length ≤ src.length) :
    memmove dst src dst.length = some (src.take dst.length) := by
  rw [memmove_eq (le_refl _) h, List.drop_length, List.append_nil]

theorem compareBytes_eq (hlen : lhs.length = rhs.length) :
    compareBytes lhs rhs = .eq ↔ lhs = rhs := by
  induction lhs generalizing rhs with
  | nil =>
    obtain rfl := List.length_eq_zero_iff.mp hlen.symm
    simp [compareBytes]
  | cons a as ih =>
    obtain ⟨b, bs, rfl⟩ := List.exists_cons_of_length_eq_add_one hlen.symm
    rw [compareBytes, Ordering.then_eq_eq, ih (Nat.succ.inj hlen), Nat.compare_eq_eq,
      UInt8.toNat_inj, List.cons.injEq]

theorem memcmp_eq (hlhs : n ≤ lhs.length) (hrhs : n ≤ rhs.length) :
    memcmp lhs rhs n = some (compareBytes (lhs.take n) (rhs.take n)) := if_pos ⟨hlhs, hrhs⟩

end

/-! ## The integers -/

/-- `assign`: the integer's bytes afterwards. -/
def assign (data rhs : List UInt8) : Option (List UInt8) :=
  if data.length ≤ rhs.length then memmove data rhs data.length
  else memmove (zeros data.length) rhs rhs.length

/-- `casting` to a type of `size` bytes. -/
def casting (size : Nat) (data : List UInt8) : Option (List UInt8) :=
  if data.length ≤ size then memmove (zeros size) data data.length
  else memmove (zeros size) data size

/-- `unsigned_integer::unsigned_integer`: the bytes are 0 until the value is assigned. -/
def construct (size : Nat) (value : List UInt8) : Option (List UInt8) := assign (zeros size) value

/-- `equal_to`, for `operator==`. -/
def equalTo (w : Nat) (data rhs : List UInt8) : Option Bool :=
  if data.length = rhs.length then (memcmp data rhs data.length).map (· == .eq)
  else if data.length > rhs.length then
    (memmove (zeros data.length) rhs rhs.length).bind fun temp =>
      -- `sizeof(TypeSize)` is the size of a `size_t`
      (memcmp data temp w).map (· == .eq)
  else
    (memmove (zeros rhs.length) data data.length).bind fun temp =>
      (memcmp temp rhs rhs.length).map (· == .eq)

/-! ## Equality -/

section
variable {w : Nat} {data rhs : List UInt8}

/-- `memcmp` of so many bytes compares the numbers modulo. -/
theorem memcmp_value (hdata : w ≤ data.length) (hrhs : w ≤ rhs.length) :
    (memcmp data rhs w).map (· == .eq) =
      some (decide (value data % 256 ^ w = value rhs % 256 ^ w)) := by
  have hlen : (data.take w).length = (rhs.take w).length := by
    rw [List.length_take, List.length_take]
    omega
  rw [memcmp_eq hdata hrhs, Option.map_some, Option.some.injEq, Bool.eq_iff_iff, beq_iff_eq,
    decide_eq_true_iff, compareBytes_eq hlen, ← value_take, ← value_take, value_inj hlen]

/-- An operand that is not narrower is compared in full. -/
theorem equalTo_wide (h : data.length ≤ rhs.length) :
    equalTo w data rhs = some (decide (value data = value rhs)) := by
  have hrhs : value rhs % 256 ^ rhs.length = value rhs := Nat.mod_eq_of_lt (value_lt rhs)
  have hdata : value data % 256 ^ rhs.length = value data := by
    apply Nat.mod_eq_of_lt
    calc
      value data < 256 ^ data.length := value_lt data
      _ ≤ 256 ^ rhs.length := Nat.pow_le_pow_right (by omega) h
  unfold equalTo
  by_cases hlen : data.length = rhs.length
  · rw [if_pos hlen, hlen, memcmp_value hlen.ge (le_refl _), hdata, hrhs]
  · have hpad : rhs.length ≤ (data ++ zeros (rhs.length - data.length)).length := by
      rw [List.length_append, length_zeros]
      omega
    rw [if_neg hlen, if_neg (by omega), memmove_zeros h, Option.bind_some,
      memcmp_value hpad (le_refl _), zeros, value_append_zeros, hdata, hrhs]

/-- A narrower operand is compared in the bytes of a `size_t`, if the integer has them. -/
theorem equalTo_narrow (h : rhs.length < data.length) :
    equalTo w data rhs = if w ≤ data.length then
      some (decide (value data % 256 ^ w = value rhs % 256 ^ w)) else none := by
  have hpad : (rhs ++ zeros (data.length - rhs.length)).length = data.length := by
    rw [List.length_append, length_zeros]
    omega
  rw [equalTo, if_neg (by omega), if_pos h, memmove_zeros h.le, Option.bind_some]
  by_cases hw : w ≤ data.length
  · rw [if_pos hw, memcmp_value hw (by omega), zeros, value_append_zeros]
  · rw [if_neg hw, memcmp, if_neg (fun hle => hw hle.1), Option.map_none]

/-- **When `operator==` is numeric equality.** It says whether the values are equal, and
reads nothing but the operands' bytes and its temporary's, exactly if the right operand is not
narrower, or the left one has the bytes of a `size_t` and the values differ in these or not
above them. -/
theorem equalTo_iff (w : Nat) (data rhs : List UInt8) :
    equalTo w data rhs = some (decide (value data = value rhs)) ↔
      data.length ≤ rhs.length ∨ w ≤ data.length ∧
        (value data % 256 ^ w ≠ value rhs % 256 ^ w ∨
          value data / 256 ^ w = value rhs / 256 ^ w) := by
  rcases Nat.lt_or_ge rhs.length data.length with h | h
  · rw [equalTo_narrow h, or_iff_right (by omega)]
    by_cases hw : w ≤ data.length
    · rw [if_pos hw, and_iff_right hw, Option.some.injEq, decide_eq_decide]
      -- the values are equal if their parts are
      have hdata := Nat.div_add_mod (value data) (256 ^ w)
      have hrhs := Nat.div_add_mod (value rhs) (256 ^ w)
      refine ⟨?_, ?_⟩
      · intro hiff
        by_cases hmod : value data % 256 ^ w = value rhs % 256 ^ w
        · exact .inr (by rw [hiff.mp hmod])
        · exact .inl hmod
      · intro hcase
        rcases hcase with hmod | hdiv
        · exact iff_of_false hmod fun heq => hmod (by rw [heq])
        · refine ⟨?_, fun heq => by rw [heq]⟩
          intro hmod
          rw [← hdata, ← hrhs, hdiv, hmod]
    · rw [if_neg hw]
      simp [hw]
  · exact iff_of_true (equalTo_wide h) (.inl h)

/-- With eight bytes in a `size_t`: nine bytes against one byte, where the highest byte is not
compared, and three bytes against two, where eight are read. -/
theorem compares_size_t :
    equalTo 8 [5, 0, 0, 0, 0, 0, 0, 0, 1] [5] = some true ∧
      value [5, 0, 0, 0, 0, 0, 0, 0, 1] ≠ value [5] ∧ equalTo 8 [5, 0, 0] [5, 0] = none := by
  decide

end

end Vee.Generic
