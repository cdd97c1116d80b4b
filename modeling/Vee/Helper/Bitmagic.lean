import Mathlib.Data.BitVec

/- `getbit` and `to_bit_string` (vee/helper/bitmagic.h).

   An integer type has a width in bytes and a signedness, `int` has 32 bits, and an object
   is stored with its lowest byte first. `getbit` masks the value with `1 << n`, an `int`
   whatever the type of the value is: bit 31 of the mask is its sign, and there is no bit
   32. So it yields the digits that `to_bit_string` prints for the types of at most 16
   bits, for the unsigned type of 32 bits and for the values of the signed one that are
   not negative, and for no others (`agrees_iff`). The string itself tells all values
   apart (`ofBitString_toBitString`). -/
namespace Vee.Bitmagic

/-- A shift by an amount smaller than the width of its operand; any other is undefined. -/
def shifted {k : Nat} (n : Nat) (result : BitVec k) : Option (BitVec k) :=
  if n < k then some result else none

/-- The width of the common type of `int` and a type of `w` bytes. -/
def commonWidth (w : Nat) : Nat := max 32 (8 * w)

/-- The common type is signed unless the other one is unsigned and no narrower than `int`. -/
def commonSigned (signed : Bool) (w : Nat) : Bool := signed || decide (w < 4)

variable {w : Nat}

/-- The value in the common type. -/
def promoted (signed : Bool) (x : BitVec (8 * w)) : BitVec (commonWidth w) :=
  if signed then x.signExtend (commonWidth w) else x.setWidth (commonWidth w)

/-- `getbit(x, n)` for a type of `w` bytes. -/
def getbit (signed : Bool) (x : BitVec (8 * w)) (n : Nat) : Option (BitVec 32) := do
  let mask ← shifted n (1#32 <<< n)
  let masked := promoted signed x &&& mask.signExtend (commonWidth w)
  let bit ← shifted n (if commonSigned signed w then masked.sshiftRight n else masked >>> n)
  pure (bit.setWidth 32)

/-- The byte at an address in the object. -/
def byte (x : BitVec (8 * w)) (i : Nat) : BitVec (8 * 1) := x.extractLsb' (8 * i) 8

/-- `getbit(c, j) + 48` -/
def bitChar (c : BitVec (8 * 1)) (j : Nat) : Option Char :=
  (getbit false c j).map fun bit => Char.ofNat (bit + 48#32).toNat

/-- The nine characters of a byte; the tenth ends the string that is appended. -/
def byteString (c : BitVec (8 * 1)) : Option (List Char) :=
  ((List.range 8).mapM (bitChar c)).map (· ++ [' '])

/-- `to_bit_string(arg)` -/
def toBitString (x : BitVec (8 * w)) : Option (List Char) :=
  ((List.range w).mapM fun i => byteString (byte x i)).map List.flatten

/-- The character of a bit. -/
def digit (b : Bool) : Char := if b then '1' else '0'

/-- The value whose bits stand in the string. -/
def ofBitString (w : Nat) (str : List Char) : BitVec (8 * w) :=
  (BitVec.ofBoolListLE ((List.range (8 * w)).map fun k =>
    str[9 * (k / 8) + k % 8]? == some '1')).setWidth (8 * w)

/-! ## `getbit` -/

/-- The power of two that is the mask stays one, or becomes the least value. -/
theorem signExtend_twoPow {n k : Nat} (h : n < 31 ∨ n = 31 ∧ k = 32) :
    (BitVec.twoPow 32 n).signExtend k = (BitVec.twoPow 32 n).setWidth k := by
  rcases h with hn | ⟨-, rfl⟩
  · have hmsb : (BitVec.twoPow 32 n).msb = false := by
      rw [BitVec.msb_twoPow]
      simp
      omega
    exact BitVec.signExtend_eq_setWidth_of_msb_false hmsb
  · simp

theorem setWidth_twoPow {n k : Nat} (hn : n < 32) (hk : 32 ≤ k) :
    (BitVec.twoPow 32 n).setWidth k = BitVec.twoPow k n := by
  apply BitVec.eq_of_getLsbD_eq
  intro i hi
  simp only [BitVec.getLsbD_setWidth, BitVec.getLsbD_twoPow, hi, decide_true, Bool.true_and]
  congr 1
  exact decide_eq_decide.mpr (by omega)

/-- Shifted back, the power of two is 1, or all ones if it is the least value. -/
theorem twoPow_ushiftRight {n k : Nat} (h : n < k) : BitVec.twoPow k n >>> n = 1#k := by
  apply BitVec.eq_of_getLsbD_eq
  intro i hi
  rw [BitVec.getLsbD_ushiftRight, BitVec.getLsbD_twoPow, BitVec.getLsbD_one]
  by_cases hzero : i = 0
  · subst hzero
    simp
    omega
  · simp [hzero]

section
variable (signed : Bool) (x : BitVec (8 * w)) {n : Nat}

theorem getLsbD_promoted (h : n < 8 * w) : (promoted signed x).getLsbD n = x.getLsbD n := by
  have hlt : n < commonWidth w := by
    rw [commonWidth]
    omega
  cases signed with
  | false => simp [promoted, h, hlt]
  | true => rw [promoted, if_pos rfl, BitVec.getLsbD_signExtend, if_pos h, decide_eq_true hlt,
      Bool.true_and]

/-- There is no bit 32 of an `int`. -/
theorem getbit_undefined (hn : 32 ≤ n) : getbit signed x n = none := by
  rw [getbit, shifted, if_neg (Nat.not_lt.mpr hn)]
  rfl

/-- The bits below the sign of `int`, and its sign where nothing is extended. -/
theorem getbit_eq (hn : n < 31 ∨ n = 31 ∧ commonWidth w = 32) (h : n < 8 * w) :
    getbit signed x n = some ((if x.getLsbD n then
      (if commonSigned signed w then (BitVec.twoPow (commonWidth w) n).sshiftRight n
        else 1#(commonWidth w)) else 0#(commonWidth w)).setWidth 32) := by
  have hwide : 32 ≤ commonWidth w := Nat.le_max_left _ _
  have hlt : n < 32 := by omega
  have hmask : (1#32 <<< n).signExtend (commonWidth w) = BitVec.twoPow (commonWidth w) n := by
    rw [← BitVec.twoPow_eq, signExtend_twoPow hn, setWidth_twoPow hlt hwide]
  have hmasked : promoted signed x &&& (1#32 <<< n).signExtend (commonWidth w) =
      if x.getLsbD n then BitVec.twoPow (commonWidth w) n else 0#(commonWidth w) := by
    rw [hmask, BitVec.and_twoPow, getLsbD_promoted signed x h]
  rw [getbit, shifted, if_pos hlt]
  simp only [Option.bind_eq_bind, Option.bind_some, hmasked, shifted,
    if_pos (Nat.lt_of_lt_of_le hlt hwide)]
  cases x.getLsbD n with
  | false => simp
  | true => simp [twoPow_ushiftRight (Nat.lt_of_lt_of_le hlt hwide)]

/-- Where bit `n` is not the sign of the common type. -/
theorem getbit_bit (hn : n < 31 ∨ n = 31 ∧ commonWidth w = 32) (h : n < 8 * w)
    (hplain : n < 31 ∨ commonSigned signed w = false) :
    getbit signed x n = some ((BitVec.ofBool (x.getLsbD n)).setWidth 32) := by
  have hwide : 32 ≤ commonWidth w := Nat.le_max_left _ _
  have hshift : (if commonSigned signed w then (BitVec.twoPow (commonWidth w) n).sshiftRight n
      else 1#(commonWidth w)) = 1#(commonWidth w) := by
    split
    · rename_i hsigned
      have hlow : n < 31 := by simpa [hsigned] using hplain
      have hmsb : (BitVec.twoPow (commonWidth w) n).msb = false := by
        rw [BitVec.msb_twoPow]
        simp
        omega
      rw [BitVec.sshiftRight_eq_of_msb_false hmsb, twoPow_ushiftRight (by omega)]
    · rfl
  rw [getbit_eq signed x hn h, hshift]
  cases x.getLsbD n with
  | false => simp
  | true =>
    apply congrArg some
    apply BitVec.eq_of_getLsbD_eq
    intro i hi
    simp only [if_true, BitVec.getLsbD_setWidth, BitVec.getLsbD_one]
    have hpos : 0 < commonWidth w := by omega
    cases i <;> simp [hpos]

/-- The sign of a negative value of 32 bits is shifted into all bits of the result. -/
theorem getbit_sign (x : BitVec (8 * 4)) (h : x.msb = true) :
    getbit true x 31 = some (BitVec.allOnes 32) := by
  have hbit : x.getLsbD 31 = true := by rwa [BitVec.msb_eq_getLsbD_last] at h
  rw [getbit_eq true x (.inr ⟨rfl, rfl⟩) (by omega), hbit]
  decide

end

/-! ## `to_bit_string` -/

theorem mapM_some {α β : Type} {f : α → Option β} {g : α → β} {l : List α}
    (h : ∀ a ∈ l, f a = some (g a)) : l.mapM f = some (l.map g) := by
  induction l with
  | nil => rfl
  | cons a l ih =>
    rw [List.mapM_cons, h a List.mem_cons_self, ih fun b hb => h b (List.mem_cons_of_mem a hb)]
    rfl

/-- Blocks of one length stand one after another. -/
theorem getElem?_flatMap_range {α : Type} {f : Nat → List α} {m : Nat}
    (hf : ∀ i, (f i).length = m) (w : Nat) : ((List.range w).flatMap f).length = m * w ∧
      ∀ i < w, ∀ j < m, ((List.range w).flatMap f)[m * i + j]? = (f i)[j]? := by
  induction w with
  | zero => simp
  | succ w ih =>
    obtain ⟨hlen, hget⟩ := ih
    rw [List.range_succ, List.flatMap_append, List.flatMap_singleton]
    refine ⟨by rw [List.length_append, hlen, hf, Nat.mul_succ], ?_⟩
    intro i hi j hj
    rcases Nat.lt_succ_iff_lt_or_eq.mp hi with hlt | rfl
    · have hpos : m * i + j < m * w := by
        calc m * i + j < m * i + m := by omega
          _ = m * (i + 1) := by rw [Nat.mul_succ]
          _ ≤ m * w := Nat.mul_le_mul_left m hlt
      rw [List.getElem?_append_left (hlen ▸ hpos), hget i hlt j hj]
    · rw [List.getElem?_append_right (by omega), hlen, Nat.add_sub_cancel_left]

/-- The characters of the byte whose bits are `bits`. -/
def block (bits : Nat → Bool) : List Char := (List.range 8).map (fun j => digit (bits j)) ++ [' ']

theorem bitChar_eq (c : BitVec (8 * 1)) {j : Nat} (hj : j < 8) :
    bitChar c j = some (digit (c.getLsbD j)) := by
  rw [bitChar, getbit_bit false c (.inl (by omega)) (by omega) (.inl (by omega))]
  cases c.getLsbD j <;> decide

theorem byteString_eq (c : BitVec (8 * 1)) : byteString c = some (block c.getLsbD) := by
  rw [byteString, mapM_some fun j hj => bitChar_eq c (List.mem_range.mp hj)]
  rfl

variable (x : BitVec (8 * w))

/-- The bits of the bytes in the object, as they are printed. -/
theorem toBitString_eq : toBitString x =
    some ((List.range w).flatMap fun i => block fun j => x.getLsbD (8 * i + j)) := by
  have hbytes : ∀ i ∈ List.range w,
      byteString (byte x i) = some (block fun j => x.getLsbD (8 * i + j)) := by
    intro i _
    rw [byteString_eq]
    apply congrArg some
    rw [block, block]
    congr 1
    apply List.map_congr_left
    intro j hj
    have hj : j < 8 := List.mem_range.mp hj
    rw [byte, BitVec.getLsbD_extractLsb', decide_eq_true hj, Bool.true_and]
  rw [toBitString, mapM_some hbytes]
  rfl

theorem toBitString_get : ∃ str, toBitString x = some str ∧ str.length = 9 * w ∧
    ∀ i < w, ∀ j < 8, str[9 * i + j]? = some (digit (x.getLsbD (8 * i + j))) := by
  have hblock : ∀ i, (block fun j => x.getLsbD (8 * i + j)).length = 9 := by
    intro i
    simp [block]
  obtain ⟨hlen, hget⟩ := getElem?_flatMap_range hblock w
  refine ⟨_, toBitString_eq x, hlen, ?_⟩
  intro i hi j hj
  rw [hget i hi j (by omega), block, List.getElem?_append_left (by simpa using hj),
    List.getElem?_map, List.getElem?_range hj]
  rfl

/-- The value can be recovered from its bit string. -/
theorem ofBitString_toBitString : (toBitString x).map (ofBitString w) = some x := by
  obtain ⟨str, hstr, -, hget⟩ := toBitString_get x
  rw [hstr]
  apply congrArg some
  apply BitVec.eq_of_getLsbD_eq
  intro k hk
  have hdigit := hget (k / 8) (by omega) (k % 8) (by omega)
  rw [Nat.div_add_mod] at hdigit
  rw [ofBitString, BitVec.getLsbD_setWidth, BitVec.getLsbD_ofBoolListLE, decide_eq_true hk,
    Bool.true_and, List.getD_eq_getElem?_getD, List.getElem?_map, List.getElem?_range hk]
  simp only [Option.map_some, Option.getD_some, hdigit]
  cases x.getLsbD k <;> decide

/-! ## The two together -/

/-- The string has nine characters for each byte, each bit of the value stands in it as
`getbit` yields it, and it tells the value. -/
def Agrees (signed : Bool) : Prop :=
  ∃ str, toBitString x = some str ∧ str.length = 9 * w ∧
    (∀ i < w, ∀ j < 8, ∃ bit, getbit signed x (8 * i + j) = some bit ∧ (bit = 0 ∨ bit = 1) ∧
      str[9 * i + j]? = some (digit (bit == 1))) ∧
    ofBitString w str = x

/-- Where `getbit` yields the bits of the value. -/
theorem getbit_agrees {signed : Bool} (h : w < 4 ∨ w = 4 ∧ (signed = false ∨ x.msb = false))
    {n : Nat} (hn : n < 8 * w) :
    getbit signed x n = some ((BitVec.ofBool (x.getLsbD n)).setWidth 32) := by
  by_cases hlow : n < 31
  · exact getbit_bit signed x (.inl hlow) hn (.inl hlow)
  · -- the last bit of four bytes
    obtain ⟨rfl, hsign⟩ : w = 4 ∧ (signed = false ∨ x.msb = false) := by
      rcases h with h | h
      · omega
      · exact h
    obtain rfl : n = 31 := by omega
    rcases hsign with rfl | hmsb
    · exact getbit_bit false x (.inr ⟨rfl, rfl⟩) hn (.inr rfl)
    · have hbit : x.getLsbD 31 = false := by rwa [BitVec.msb_eq_getLsbD_last] at hmsb
      rw [getbit_eq signed x (.inr ⟨rfl, rfl⟩) hn, hbit]
      simp

/-- **Bits and digits.** `getbit` yields the digits that are printed exactly for the types
of less than four bytes, for the unsigned one of four and for the values of the signed one
of four that are not negative. -/
theorem agrees_iff (signed : Bool) :
    Agrees x signed ↔ w < 4 ∨ w = 4 ∧ (signed = false ∨ x.msb = false) := by
  refine ⟨?_, ?_⟩
  · intro h
    obtain ⟨str, -, -, hbits, -⟩ := h
    rcases Nat.lt_trichotomy w 4 with hlt | rfl | hgt
    · exact .inl hlt
    · refine .inr ⟨rfl, ?_⟩
      by_contra hneg
      obtain ⟨rfl, hmsb⟩ : signed = true ∧ x.msb = true := by simpa using hneg
      obtain ⟨bit, hbit, hval, -⟩ := hbits 3 (by omega) 7 (by omega)
      obtain rfl : BitVec.allOnes 32 = bit := Option.some.inj ((getbit_sign x hmsb).symm.trans hbit)
      exact absurd hval (by decide)
    · -- bit 32
      obtain ⟨bit, hbit, -⟩ := hbits 4 hgt 0 (by omega)
      rw [getbit_undefined signed x (by omega)] at hbit
      cases hbit
  · intro h
    obtain ⟨str, hstr, hlen, hget⟩ := toBitString_get x
    have hvalue := ofBitString_toBitString x
    rw [hstr] at hvalue
    refine ⟨str, hstr, hlen, ?_, Option.some.inj hvalue⟩
    intro i hi j hj
    refine ⟨_, getbit_agrees x h (by omega), ?_, ?_⟩
    · cases x.getLsbD (8 * i + j) <;> decide
    · rw [hget i hi j hj]
      cases x.getLsbD (8 * i + j) <;> decide

/-- The last bit of minus one comes out as all ones, and bit 32 of eight bytes not at all. -/
theorem minus_one_disagrees : ¬ Agrees (BitVec.allOnes (8 * 4)) true ∧
    getbit true (BitVec.allOnes (8 * 4)) 31 = some (BitVec.allOnes 32) ∧
    getbit false (0 : BitVec (8 * 8)) 32 = none := by
  have hsign : getbit true (BitVec.allOnes (8 * 4)) 31 = some (BitVec.allOnes 32) := by decide
  refine ⟨?_, hsign, by decide⟩
  intro h
  obtain ⟨str, -, -, hbits, -⟩ := h
  obtain ⟨bit, hbit, hval, -⟩ := hbits 3 (by omega) 7 (by omega)
  obtain rfl := Option.some.inj (hsign.symm.trans hbit)
  exact absurd hval (by decide)

end Vee.Bitmagic
