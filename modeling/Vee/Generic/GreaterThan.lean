import Vee.Generic.Conversion
import Vee.Generic.WideComparator

/- `operator>` of `unsigned_small_integer` (vee/type/generic/unsigned_integer.h).

   The left operand has at most the eight bytes of a `uint64_t`. It is converted to one by the
   `casting` for types that are not smaller, or by the one for smaller types, and which of
   them is chosen by the size of the right operand: the second one copies eight bytes,
   whatever the integer has. A wider right operand goes to `unsigned_greater_than`. -/
namespace Vee.Generic
open LittleEndian

/-- `unsigned_small_integer`: `TypeSize` is at most `sizeof(uint64_t)`. -/
structure UnsignedSmallInteger where
  data : List UInt8
  size_le : data.length ≤ 8
  deriving DecidableEq, Repr

namespace UnsignedSmallInteger

variable (a : UnsignedSmallInteger) (rhs : Object)

/-- `casting<uint64_t>`, with the tag `target_type_size_is_greater_or_equal_to` or else
`target_type_size_is_less`. -/
def castingBy (greaterOrEqual : Bool) : Option (List UInt8) :=
  if greaterOrEqual then memmove (zeros 8) a.data a.data.length else memmove (zeros 8) a.data 8

/-- `greater_than` of an operand of at most 64 bits. -/
def greaterThanSmall : Option Bool :=
  -- the tag compares `TypeSize` with the size of the operand
  (a.castingBy (a.data.length ≤ rhs.bytes.length)).bind fun tempLhs =>
    (rhs.hop (.convert 8)).map fun tempRhs => decide (value tempRhs.bytes < value tempLhs)

/-- `greater_than` of a wider operand; `p` and `q` are around `temp_lhs` and `rhs`. -/
def greaterThanWide (p q : Int → UInt8) : Option Bool :=
  (memmove (zeros rhs.bytes.length) a.data a.data.length).bind fun tempLhs =>
    (unsignedGreaterThan 8 rhs.bytes.length (memoryAt tempLhs p) (memoryAt rhs.bytes q)).2

/-- `greater_than`, for `operator>`. -/
def greaterThan (p q : Int → UInt8) : Option Bool :=
  if rhs.bytes.length ≤ 8 then a.greaterThanSmall rhs else a.greaterThanWide rhs p q

section
variable {a rhs}

/-- Within eight bytes the conversion keeps the value. -/
theorem value_convert {l : List UInt8} (h : l.length ≤ 8) :
    value (integralConversion 8 l) = value l := by
  rw [integralConversion_wide h, zeros, value_append_zeros]

/-- The `casting` that copies `TypeSize` bytes is the conversion. -/
theorem castingBy_greaterOrEqual (a : UnsignedSmallInteger) :
    a.castingBy true = some (integralConversion 8 a.data) := by
  rw [castingBy, if_pos rfl, memmove_zeros a.size_le, integralConversion_wide a.size_le]

/-- The one that copies eight bytes needs an integer of eight bytes. -/
theorem castingBy_less (a : UnsignedSmallInteger) :
    a.castingBy false = if a.data.length = 8 then some (integralConversion 8 a.data) else none := by
  have hle := a.size_le
  rw [castingBy, if_neg (by decide)]
  by_cases h : a.data.length = 8
  · have hzeros : 8 ≤ (zeros 8).length := by rw [length_zeros]
    rw [if_pos h, memmove_eq hzeros (by omega), integralConversion_narrow (by omega), zeros,
      List.drop_replicate, List.replicate_zero, List.append_nil]
  · rw [if_neg h, memmove, if_neg (by omega)]

/-- Converted operands compare as the values do. -/
theorem greaterThanSmall_eq (hrhs : rhs.bytes.length ≤ 8)
    (hcast : a.castingBy (a.data.length ≤ rhs.bytes.length) =
      some (integralConversion 8 a.data)) :
    a.greaterThanSmall rhs = some (decide (value rhs.bytes < value a.data)) := by
  obtain ⟨tempRhs, hhop, hbytes⟩ := hop_eq rhs (.convert 8)
  rw [greaterThanSmall, hcast, Option.bind_some, hhop, Option.map_some, hbytes, Hop.size,
    value_convert a.size_le, value_convert hrhs]

end

/-- **When `operator>` compares the values** of a small integer and an operand of at most 64
bits: it says whether the left value is greater, and copies nothing from outside the left
operand, exactly if that is no wider than the right one or has eight bytes. -/
theorem greaterThan_iff (a : UnsignedSmallInteger) (rhs : Object) (p q : Int → UInt8)
    (hrhs : rhs.bytes.length ≤ 8) :
    a.greaterThan rhs p q = some (decide (value rhs.bytes < value a.data)) ↔
      a.data.length ≤ rhs.bytes.length ∨ a.data.length = 8 := by
  rw [greaterThan, if_pos hrhs]
  by_cases hle : a.data.length ≤ rhs.bytes.length
  · refine iff_of_true (greaterThanSmall_eq hrhs ?_) (.inl hle)
    rw [decide_eq_true hle, castingBy_greaterOrEqual]
  · by_cases height : a.data.length = 8
    · refine iff_of_true (greaterThanSmall_eq hrhs ?_) (.inr height)
      rw [decide_eq_false hle, castingBy_less, if_pos height]
    · refine iff_of_false ?_ (by simp [hle, height])
      rw [greaterThanSmall, decide_eq_false hle, castingBy_less, if_neg height]
      simp

/-- Three bytes and four, and eight bytes and four. -/
theorem greaterThan_iff_uint32 :
    (⟨[6, 1, 0], by decide⟩ : UnsignedSmallInteger).greaterThan (.builtin [5, 1, 0, 0])
        (fun _ => 0) (fun _ => 0) = some (decide (value [5, 1, 0, 0] < value [6, 1, 0])) ∧
      (⟨[6, 1, 0, 0, 0, 0, 0, 0], by decide⟩ : UnsignedSmallInteger).greaterThan
        (.builtin [5, 1, 0, 0]) (fun _ => 0) (fun _ => 0) =
          some (decide (value [5, 1, 0, 0] < value [6, 1, 0, 0, 0, 0, 0, 0])) :=
  ⟨(greaterThan_iff _ _ _ _ (by decide)).mpr (.inl (by decide)),
    (greaterThan_iff _ _ _ _ (by decide)).mpr (.inr rfl)⟩

/-- Three bytes and two: eight bytes of the three are copied. -/
theorem casts_past_data :
    (⟨[5, 0, 0], by decide⟩ : UnsignedSmallInteger).greaterThan (.generic [5, 0])
      (fun _ => 0) (fun _ => 0) = none := by
  decide

end UnsignedSmallInteger

end Vee.Generic
