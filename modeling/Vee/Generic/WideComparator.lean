import Vee.Generic.UnsignedInteger

/- `unsigned_greater_than` (vee/type/generic/unsigned_integer.h), the comparison of two byte
   arrays word by word from the top.

   `w` is `sizeof(BaseIntTy)`. An array is what is at a pointer, with the memory around it. A
   call is what it accesses and what it returns; it returns nothing where more bytes are
   copied into a word than it has. The words that are compared lie under the top byte, at
   the offsets `Offset - w`, so the top byte is not looked at, and what is left at the bottom is
   a word that starts before the array or a copy of more than `w` bytes: the comparison stays
   inside exactly where a word above is greater (`inBounds_iff`). The numbers are ordered by
   the top byte, then by the first word that differs and then by the bottom (`value_lt_iff`),
   and the comparison is right where those agree with a word that is greater, or with the
   bottom (`greaterThan_order_iff`). -/
namespace Vee.Generic
open LittleEndian

/-- What is at a pointer to the array, and around it. -/
def memoryAt (l : List UInt8) (around : Int → UInt8) : Int → UInt8
  | .ofNat i => l.getD i (around i)
  | .negSucc i => around (.negSucc i)

/-- The word of `w` bytes at an offset. -/
def word (w : Nat) (p : Int → UInt8) (offset : Int) : Nat :=
  value ((List.range w).map fun i : Nat => p (offset + i))

/-- An access to both arrays. -/
inductive Access where
  /-- a word is read at the offset -/
  | word (offset : Int)
  /-- so many bytes are copied from the start into a word -/
  | move (n : Nat)
  deriving DecidableEq, Repr

/-- The access stays inside arrays of `n` bytes, and inside the word it writes. -/
def Access.Inside (w n : Nat) : Access → Prop
  | word offset => 0 ≤ offset ∧ offset + w ≤ n
  | move k => k ≤ w

instance (w n : Nat) : DecidablePred (Access.Inside w n)
  | .word _ => inferInstanceAs (Decidable (_ ∧ _))
  | .move _ => inferInstanceAs (Decidable (_ ≤ _))

/-- `iteration(padding_required)`, of which `RemainedBytes` is `Offset + 1`. -/
def iterationPadding (w : Nat) (p q : Int → UInt8) (offset : Nat) : List Access × Option Bool :=
  ([.move (offset + 1)],
    if offset + 1 ≤ w then some (decide (word (offset + 1) q 0 < word (offset + 1) p 0)) else none)

/-- `iteration(end_of_array)` -/
def iterationEnd : List Access × Option Bool := ([], some false)

/-- `iteration(no_padding_required)` -/
def iteration (w : Nat) [NeZero w] (p q : Int → UInt8) (offset : Nat) :
    List Access × Option Bool :=
  if word w q (offset - w) < word w p (offset - w) then ([.word (offset - w)], some true)
  else
    let next :=
      if offset + 1 - w = 0 then iterationEnd
      else if w ≤ offset + 1 - w then iteration w p q (offset - w)
      -- the offset stays what it was
      else iterationPadding w p q offset
    (.word (offset - w) :: next.1, next.2)
termination_by offset
decreasing_by
  have := NeZero.pos w
  omega

/-- `unsigned_greater_than::operator()` for arrays of `n` bytes. -/
def unsignedGreaterThan (w n : Nat) [NeZero w] (p q : Int → UInt8) : List Access × Option Bool :=
  if n - w = 0 then iterationEnd
  else if w ≤ n - w then iteration w p q (n - 1)
  else iterationPadding w p q (n - 1)

/-! ## The words that are compared -/

/-- The word under `offset` is greater in the first array. -/
def Greater (w : Nat) (p q : Int → UInt8) (offset : Nat) : Prop :=
  word w q (offset - w) < word w p (offset - w)

/-- One of the words that the loop gets to from `offset` is greater, at `low` or above. -/
def Wins (w low : Nat) (p q : Int → UInt8) (offset : Nat) : Prop :=
  ∃ k, low ≤ k ∧ k ≤ offset ∧ k % w = offset % w ∧ Greater w p q k

variable {w : Nat} {p q : Int → UInt8} {low offset n : Nat}

/-- The offsets go down in steps of a word. -/
theorem add_le_of_mod {k : Nat} (hlt : k < offset) (hmod : k % w = offset % w) :
    k + w ≤ offset := by
  have hdvd := Nat.dvd_of_mod_eq_zero (Nat.sub_mod_eq_zero_of_mod_eq hmod.symm)
  have hle := Nat.le_of_dvd (by omega) hdvd
  omega

theorem wins_of_greater (h : Greater w p q offset) (hlow : low ≤ offset) :
    Wins w low p q offset := ⟨offset, hlow, le_refl _, rfl, h⟩

/-- A word that is not greater leaves it to the words under it. -/
theorem wins_next (h : ¬ Greater w p q offset) (hw : w ≤ offset) :
    Wins w low p q offset ↔ Wins w low p q (offset - w) := by
  have hmod : (offset - w) % w = offset % w := (Nat.mod_eq_sub_mod hw).symm
  refine ⟨?_, ?_⟩
  · intro hall
    obtain ⟨k, hlow, hle, hk, hgreater⟩ := hall
    have hne : k ≠ offset := by
      intro heq
      subst heq
      exact h hgreater
    have hstep := add_le_of_mod (lt_of_le_of_ne hle hne) hk
    exact ⟨k, hlow, by omega, hk.trans hmod.symm, hgreater⟩
  · intro hall
    obtain ⟨k, hlow, hle, hk, hgreater⟩ := hall
    exact ⟨k, hlow, by omega, hk.trans hmod, hgreater⟩

/-- The lowest word is the last. -/
theorem not_wins (h : ¬ Greater w p q offset) (hlast : offset < low + w) :
    ¬ Wins w low p q offset := by
  intro hall
  obtain ⟨k, hlow, hle, hk, hgreater⟩ := hall
  have hne : k ≠ offset := by
    intro heq
    subst heq
    exact h hgreater
  have hstep := add_le_of_mod (lt_of_le_of_ne hle hne) hk
  omega

/-! ## The loop -/

section
variable [NeZero w]

/-- What the loop returns: true at a word that is greater, and else false where the words end
with the array. -/
theorem iteration_cases (hw : w ≤ offset + 1) :
    Wins w (w - 1) p q offset ∧ (iteration w p q offset).2 = some true ∨
      ¬ Wins w (w - 1) p q offset ∧ (iteration w p q offset).2 =
        if w ∣ offset + 1 then some false else none := by
  have hpos := NeZero.pos w
  induction offset using Nat.strongRecOn with
  | ind offset ih =>
    rw [iteration]
    by_cases hgreater : word w q (offset - w) < word w p (offset - w)
    · rw [if_pos hgreater]
      exact .inl ⟨wins_of_greater hgreater (by omega), rfl⟩
    · rw [if_neg hgreater]
      dsimp only
      by_cases hend : offset + 1 - w = 0
      · have heq : offset + 1 = w := by omega
        rw [if_pos hend, if_pos (heq ▸ dvd_refl _)]
        exact .inr ⟨not_wins hgreater (by omega), rfl⟩
      · rw [if_neg hend]
        by_cases hnext : w ≤ offset + 1 - w
        · rw [if_pos hnext, wins_next hgreater (by omega)]
          have hdvd : w ∣ offset - w + 1 ↔ w ∣ offset + 1 := by
            rw [show offset + 1 = offset - w + 1 + w by omega, Nat.dvd_add_self_right]
          simpa only [hdvd] using ih (offset - w) (by omega) (by omega)
        · have hdvd : ¬ w ∣ offset + 1 := by
            intro h
            have hrest : w ∣ offset + 1 - w := Nat.dvd_sub h (dvd_refl w)
            have hle := Nat.le_of_dvd (by omega) hrest
            omega
          rw [if_neg hnext, if_neg hdvd, iterationPadding, if_neg (by omega)]
          exact .inr ⟨not_wins hgreater (by omega), rfl⟩

/-- The loop stays inside exactly if it ends at a word that is greater and inside. -/
theorem iteration_inside (hw : w ≤ offset + 1) (hn : offset < n) :
    (∀ a ∈ (iteration w p q offset).1, a.Inside w n) ↔ Wins w w p q offset := by
  have hpos := NeZero.pos w
  induction offset using Nat.strongRecOn with
  | ind offset ih =>
    rw [iteration]
    by_cases hgreater : word w q (offset - w) < word w p (offset - w)
    · rw [if_pos hgreater]
      by_cases hin : w ≤ offset
      · refine iff_of_true ?_ (wins_of_greater hgreater hin)
        simp only [List.mem_singleton, forall_eq, Access.Inside]
        omega
      · refine iff_of_false ?_ ?_
        · simp only [List.mem_singleton, forall_eq, Access.Inside]
          omega
        · intro hall
          obtain ⟨k, hlow, hle, -⟩ := hall
          omega
    · rw [if_neg hgreater]
      dsimp only
      rw [List.forall_mem_cons]
      by_cases hend : offset + 1 - w = 0
      · refine iff_of_false ?_ (not_wins hgreater (by omega))
        intro hall
        obtain ⟨hin, -⟩ := hall
        simp only [Access.Inside] at hin
        omega
      · have hin : (Access.word (offset - w)).Inside w n := by
          simp only [Access.Inside]
          omega
        rw [if_neg hend, and_iff_right hin]
        by_cases hnext : w ≤ offset + 1 - w
        · rw [if_pos hnext, wins_next hgreater (by omega)]
          exact ih (offset - w) (by omega) (by omega) (by omega)
        · rw [if_neg hnext]
          refine iff_of_false ?_ (not_wins hgreater (by omega))
          simp only [iterationPadding, List.mem_singleton, forall_eq, Access.Inside]
          omega

/-- **When the comparison stays in bounds.** Every word that is read is inside both arrays
and no copy is longer than a word, exactly if the arrays have two words and a word inside, under
the top byte and a number of words below it, is greater in the first array: the loop ends
there. -/
theorem inBounds_iff (w n : Nat) [NeZero w] (p q : Int → UInt8) (hn : w < n) :
    (∀ a ∈ (unsignedGreaterThan w n p q).1, a.Inside w n) ↔ 2 * w ≤ n ∧ Wins w w p q (n - 1) := by
  rw [unsignedGreaterThan, if_neg (by omega)]
  by_cases htwo : w ≤ n - w
  · rw [if_pos htwo, and_iff_right (by omega)]
    exact iteration_inside (by omega) (by omega)
  · rw [if_neg htwo]
    refine iff_of_false ?_ (fun h => htwo (by omega))
    simp only [iterationPadding, List.mem_singleton, forall_eq, Access.Inside]
    omega

/-- Sixteen bytes, where the upper word is greater. -/
theorem inBounds_iff_ended :
    (unsignedGreaterThan 8 16 (memoryAt (zeros 8 ++ List.replicate 8 1) fun _ => 0)
        (memoryAt (zeros 16) fun _ => 0)).1 = [.word 7] ∧
      ∀ a ∈ (unsignedGreaterThan 8 16 (memoryAt (zeros 8 ++ List.replicate 8 1) fun _ => 0)
        (memoryAt (zeros 16) fun _ => 0)).1, a.Inside 8 16 := by
  refine ⟨?_, (inBounds_iff 8 16 _ _ (by decide)).mpr
    ⟨by decide, 15, by decide, by decide, rfl, ?_⟩⟩
  · rw [unsignedGreaterThan, iteration]
    decide
  · rw [Greater]
    decide

/-- Sixteen bytes that are all equal, where the second word starts before the arrays, and nine
bytes, which are copied into a word of eight. -/
theorem reads_before_array :
    (unsignedGreaterThan 8 16 (memoryAt (zeros 16) fun _ => 0)
        (memoryAt (zeros 16) fun _ => 0)).1 = [.word 7, .word (-1)] ∧
      ¬ (Access.word (-1)).Inside 8 16 ∧
      (unsignedGreaterThan 8 9 (memoryAt (zeros 9) fun _ => 0)
        (memoryAt (zeros 9) fun _ => 0)).1 = [.move 9] ∧ ¬ (Access.move 9).Inside 8 9 := by
  refine ⟨?_, by decide, by decide, by decide⟩
  rw [unsignedGreaterThan, iteration, iteration]
  decide

/-! ## The order of the numbers -/

/-- The word of `w` bytes under the byte at `offset`. -/
def wordUnder (w : Nat) (l : List UInt8) (offset : Nat) : Nat :=
  value ((l.drop (offset - w)).take w)

/-- A word inside the arrays that the loop gets to is greater in `lhs`. -/
def Ahead (w : Nat) (lhs rhs : List UInt8) : Prop :=
  ∃ k, w ≤ k ∧ k < lhs.length ∧ k % w = (lhs.length - 1) % w ∧
    wordUnder w rhs k < wordUnder w lhs k

/-- What is left under the words, where they end one byte before the array. -/
def bottom (w : Nat) (l : List UInt8) : Nat := value (l.take (w - 1))

/-- The byte that is not looked at. -/
def topByte (l : List UInt8) : Nat := value (l.drop (l.length - 1))

/-- The words under `offset` that the loop gets to are the same, down to `low`. -/
def Same (w low : Nat) (lhs rhs : List UInt8) (offset : Nat) : Prop :=
  ∀ k, low ≤ k → k ≤ offset → k % w = offset % w → wordUnder w rhs k = wordUnder w lhs k

/-- The first of these words that differs is greater in `lhs`. -/
def FirstGreater (w : Nat) (lhs rhs : List UInt8) (offset : Nat) : Prop :=
  ∃ k, w ≤ k ∧ k ≤ offset ∧ k % w = offset % w ∧ wordUnder w rhs k < wordUnder w lhs k ∧
    Same w (k + 1) lhs rhs offset

/-- There are two words, and: `lhs` has the greater top byte and a greater word; or the top bytes
are equal and the first word that differs is greater in `lhs`; or no word is greater in `lhs` and
the words end one byte before the arrays, where the bottom of `lhs` is greater, and so is the top
byte or all above is equal, or the bottom of `lhs` is less and its top byte not greater. -/
def Decided (w : Nat) (lhs rhs : List UInt8) : Prop :=
  2 * w ≤ lhs.length ∧
    (topByte rhs < topByte lhs ∧ Ahead w lhs rhs ∨
      topByte rhs = topByte lhs ∧ FirstGreater w lhs rhs (lhs.length - 1) ∨
      w ∣ lhs.length ∧ ¬ Ahead w lhs rhs ∧
        (bottom w rhs < bottom w lhs ∧ (topByte rhs < topByte lhs ∨
            topByte rhs = topByte lhs ∧ Same w w lhs rhs (lhs.length - 1)) ∨
          bottom w lhs < bottom w rhs ∧ topByte lhs ≤ topByte rhs))

end

section
variable {lhs rhs l : List UInt8} {around : Int → UInt8}

theorem memoryAt_getElem (l : List UInt8) (around : Int → UInt8) {i : Nat} (h : i < l.length) :
    memoryAt l around i = l[i] := by
  show l.getD i _ = _
  rw [List.getD_eq_getElem?_getD, List.getElem?_eq_getElem h, Option.getD_some]

/-- A word inside is made of bytes of the array. -/
theorem word_inside (around : Int → UInt8) (h : w ≤ offset) (hl : offset ≤ l.length) :
    word w (memoryAt l around) (offset - w) = wordUnder w l offset := by
  rw [word, wordUnder]
  congr 1
  apply List.ext_getElem
  · simp only [List.length_map, List.length_range, List.length_take, List.length_drop]
    omega
  · intro i hi _
    have hi : i < w := by simpa using hi
    simp only [List.getElem_map, List.getElem_range, List.getElem_take, List.getElem_drop]
    rw [show (offset : Int) - w + i = ((offset - w + i : Nat) : Int) by omega]
    exact memoryAt_getElem l around (by omega)

/-- The word that starts one byte before the array. -/
theorem word_before (around : Int → UInt8) {k : Nat} (hl : k ≤ l.length) :
    word (k + 1) (memoryAt l around) (-1) = (around (-1)).toNat + 256 * value (l.take k) := by
  rw [word, List.range_succ_eq_map, List.map_cons, List.map_map, value_cons]
  congr 3
  apply List.ext_getElem
  · simp only [List.length_map, List.length_range, List.length_take]
    omega
  · intro i hi _
    have hi : i < k := by simpa using hi
    simp only [List.getElem_map, List.getElem_range, List.getElem_take, Function.comp]
    rw [show (-1 : Int) + (i.succ : Nat) = (i : Nat) by omega]
    exact memoryAt_getElem l around (by omega)

theorem greater_inside (p q : Int → UInt8) (h : w ≤ offset) (hl : offset ≤ lhs.length)
    (hlen : lhs.length = rhs.length) :
    Greater w (memoryAt lhs p) (memoryAt rhs q) offset ↔
      wordUnder w rhs offset < wordUnder w lhs offset := by
  rw [Greater, word_inside p h hl, word_inside q h (hlen ▸ hl)]

variable [NeZero w]

/-- The words under the top byte end one byte before an array of whole words. -/
theorem mod_iff_dvd (hn : 0 < n) : (w - 1) % w = (n - 1) % w ↔ w ∣ n := by
  have hpos := NeZero.pos w
  have hw : w - 1 + 1 = w := by omega
  have hsucc : n - 1 + 1 = n := by omega
  rw [Nat.dvd_iff_mod_eq_zero]
  refine ⟨?_, ?_⟩
  · intro h
    have hmod : w - 1 + 1 ≡ n - 1 + 1 [MOD w] := Nat.ModEq.add_right 1 h
    rw [hw, hsucc] at hmod
    exact Eq.trans hmod.symm (Nat.mod_self w)
  · intro h
    have hmod : w - 1 + 1 ≡ n - 1 + 1 [MOD w] := by
      rw [hw, hsucc]
      exact Eq.trans (Nat.mod_self w) h.symm
    exact Nat.ModEq.add_right_cancel' 1 hmod

/-- The words the loop gets to are those inside and, in an array of whole words, the one that
starts before the array. -/
theorem wins_memoryAt (p q : Int → UInt8) (hlen : lhs.length = rhs.length)
    (hn : w ≤ lhs.length) :
    Wins w (w - 1) (memoryAt lhs p) (memoryAt rhs q) (lhs.length - 1) ↔
      Ahead w lhs rhs ∨ w ∣ lhs.length ∧
        (q (-1)).toNat + 256 * bottom w rhs < (p (-1)).toNat + 256 * bottom w lhs := by
  have hpos := NeZero.pos w
  have hw : w - 1 + 1 = w := by omega
  -- the word that starts before the array
  have hfirst : Greater w (memoryAt lhs p) (memoryAt rhs q) (w - 1) ↔
      (q (-1)).toNat + 256 * bottom w rhs < (p (-1)).toNat + 256 * bottom w lhs := by
    rw [Greater, show ((w - 1 : Nat) : Int) - w = -1 by omega]
    have hlhs := word_before (l := lhs) p (k := w - 1) (by omega)
    have hrhs := word_before (l := rhs) q (k := w - 1) (by omega)
    rw [hw] at hlhs hrhs
    rw [hlhs, hrhs, bottom, bottom]
  rw [← hfirst, ← mod_iff_dvd (n := lhs.length) (by omega)]
  refine ⟨?_, ?_⟩
  · intro hall
    obtain ⟨k, hlow, hle, hmod, hgreater⟩ := hall
    by_cases hk : w ≤ k
    · rw [greater_inside p q hk (by omega) hlen] at hgreater
      exact .inl ⟨k, hk, by omega, hmod, hgreater⟩
    · obtain rfl : k = w - 1 := by omega
      exact .inr ⟨hmod, hgreater⟩
  · intro hcase
    rcases hcase with ⟨k, hk, hlt, hmod, hgreater⟩ | ⟨hmod, hgreater⟩
    · rw [← greater_inside p q hk (by omega) hlen] at hgreater
      exact ⟨k, by omega, by omega, hmod, hgreater⟩
    · exact ⟨w - 1, le_refl _, by omega, hmod, hgreater⟩

/-- A byte below decides only between equal numbers. -/
theorem low_byte_lt (b c : UInt8) {x y : Nat} (hne : x ≠ y) :
    c.toNat + 256 * y < b.toNat + 256 * x ↔ y < x := by
  have hb := b.toNat_lt
  have hc := c.toNat_lt
  omega

/-- The byte before each array decides between equal numbers, and may do so either way. -/
theorem low_byte_iff {x y : Nat} {P : Prop} :
    (∀ p q : Int → UInt8, (q (-1)).toNat + 256 * y < (p (-1)).toNat + 256 * x ↔ P) ↔
      x ≠ y ∧ (y < x ↔ P) := by
  refine ⟨?_, ?_⟩
  · intro h
    have hne : x ≠ y := by
      intro heq
      have hzero := h (fun _ => 0) (fun _ => 0)
      have hone := h (fun _ => 1) (fun _ => 0)
      rw [heq] at hzero hone
      have hlt : (0 : UInt8).toNat + 256 * y < (1 : UInt8).toNat + 256 * y :=
        Nat.add_lt_add_right (by decide) _
      exact absurd (hzero.mpr (hone.mp hlt)) (Nat.lt_irrefl _)
    exact ⟨hne, (low_byte_lt 0 0 hne).symm.trans (h (fun _ => 0) (fun _ => 0))⟩
  · intro hall p q
    obtain ⟨hne, hiff⟩ := hall
    exact (low_byte_lt _ _ hne).trans hiff

/-- How the loop ends, from the top byte on. -/
theorem iteration_memoryAt (p q : Int → UInt8) (hlen : lhs.length = rhs.length)
    (hn : w ≤ lhs.length) :
    (Ahead w lhs rhs ∨ w ∣ lhs.length ∧
        (q (-1)).toNat + 256 * bottom w rhs < (p (-1)).toNat + 256 * bottom w lhs) ∧
      (iteration w (memoryAt lhs p) (memoryAt rhs q) (lhs.length - 1)).2 = some true ∨
    ¬ (Ahead w lhs rhs ∨ w ∣ lhs.length ∧
        (q (-1)).toNat + 256 * bottom w rhs < (p (-1)).toNat + 256 * bottom w lhs) ∧
      (iteration w (memoryAt lhs p) (memoryAt rhs q) (lhs.length - 1)).2 =
        if w ∣ lhs.length then some false else none := by
  have hpos := NeZero.pos w
  have hcases := iteration_cases (p := memoryAt lhs p) (q := memoryAt rhs q)
    (by omega : w ≤ lhs.length - 1 + 1)
  rwa [wins_memoryAt p q hlen hn, Nat.sub_add_cancel (by omega : 1 ≤ lhs.length)] at hcases

/-- It returns at a word inside, where there is one to return at. -/
theorem iteration_ahead (p q : Int → UInt8) (hlen : lhs.length = rhs.length)
    (hn : w ≤ lhs.length) (hahead : Ahead w lhs rhs) :
    (iteration w (memoryAt lhs p) (memoryAt rhs q) (lhs.length - 1)).2 = some true := by
  rcases iteration_memoryAt p q hlen hn with ⟨-, h⟩ | ⟨hnot, -⟩
  · exact h
  · exact absurd (.inl hahead) hnot

/-- Else the last word decides, in arrays of whole words. -/
theorem iteration_last (p q : Int → UInt8) (hlen : lhs.length = rhs.length)
    (hn : w ≤ lhs.length) (hahead : ¬ Ahead w lhs rhs) (hdvd : w ∣ lhs.length) :
    (iteration w (memoryAt lhs p) (memoryAt rhs q) (lhs.length - 1)).2 =
      some (decide
        ((q (-1)).toNat + 256 * bottom w rhs < (p (-1)).toNat + 256 * bottom w lhs)) := by
  rcases iteration_memoryAt p q hlen hn with ⟨hlt, h⟩ | ⟨hnot, h⟩
  · rw [h, decide_eq_true ((or_iff_right hahead).mp hlt).2]
  · rw [h, if_pos hdvd, decide_eq_false fun hlt => hnot (.inr ⟨hdvd, hlt⟩)]

/-- And in other arrays the last bytes do not fit into a word. -/
theorem iteration_none (p q : Int → UInt8) (hlen : lhs.length = rhs.length)
    (hn : w ≤ lhs.length) (hahead : ¬ Ahead w lhs rhs) (hdvd : ¬ w ∣ lhs.length) :
    (iteration w (memoryAt lhs p) (memoryAt rhs q) (lhs.length - 1)).2 = none := by
  rcases iteration_memoryAt p q hlen hn with ⟨hlt, -⟩ | ⟨-, h⟩
  · exact absurd ((or_iff_right hahead).mp hlt).1 hdvd
  · rw [h, if_neg hdvd]

/-! ### The order, from the top -/

omit [NeZero w] in
/-- What is under `offset` is the word there, on top of what is under that. -/
theorem take_under (l : List UInt8) (hw : w ≤ offset) :
    l.take offset = l.take (offset - w) ++ (l.drop (offset - w)).take w := by
  rw [← List.take_add, Nat.sub_add_cancel hw]

omit [NeZero w] in
theorem same_next {low : Nat} (hw : w ≤ offset) (hlow : low ≤ offset) :
    Same w low lhs rhs offset ↔
      wordUnder w rhs offset = wordUnder w lhs offset ∧ Same w low lhs rhs (offset - w) := by
  have hmod : (offset - w) % w = offset % w := (Nat.mod_eq_sub_mod hw).symm
  refine ⟨?_, ?_⟩
  · intro h
    refine ⟨h offset hlow (le_refl _) rfl, ?_⟩
    intro k hk hle hkmod
    exact h k hk (by omega) (hkmod.trans hmod)
  · intro hall k hk hle hkmod
    obtain ⟨hword, hrest⟩ := hall
    by_cases heq : k = offset
    · rw [heq, hword]
    · have hstep := add_le_of_mod (lt_of_le_of_ne hle heq) hkmod
      exact hrest k hk (by omega) (hkmod.trans hmod.symm)

theorem firstGreater_next (hw : w ≤ offset) :
    FirstGreater w lhs rhs offset ↔
      wordUnder w rhs offset < wordUnder w lhs offset ∨
        wordUnder w rhs offset = wordUnder w lhs offset ∧
          FirstGreater w lhs rhs (offset - w) := by
  have hpos := NeZero.pos w
  have hmod : (offset - w) % w = offset % w := (Nat.mod_eq_sub_mod hw).symm
  refine ⟨?_, ?_⟩
  · intro hall
    obtain ⟨k, hk, hle, hkmod, hgreater, hsame⟩ := hall
    by_cases heq : k = offset
    · exact .inl (heq ▸ hgreater)
    · have hstep := add_le_of_mod (lt_of_le_of_ne hle heq) hkmod
      obtain ⟨hword, hrest⟩ := (same_next hw (by omega)).mp hsame
      exact .inr ⟨hword, k, hk, by omega, hkmod.trans hmod.symm, hgreater, hrest⟩
  · intro hcase
    rcases hcase with hgreater | ⟨hword, k, hk, hle, hkmod, hgreater, hsame⟩
    · refine ⟨offset, hw, le_refl _, rfl, hgreater, ?_⟩
      intro j hj hle
      omega
    · exact ⟨k, hk, by omega, hkmod.trans hmod, hgreater,
        (same_next hw (by omega)).mpr ⟨hword, hsame⟩⟩

/-- Under an offset the first word that differs decides, and else what is left at the bottom. -/
theorem take_lt_iff (hlen : lhs.length = rhs.length) (hle : offset ≤ lhs.length) :
    value (rhs.take offset) < value (lhs.take offset) ↔
      FirstGreater w lhs rhs offset ∨ Same w w lhs rhs offset ∧
        value (rhs.take (offset % w)) < value (lhs.take (offset % w)) := by
  have hpos := NeZero.pos w
  induction offset using Nat.strongRecOn with
  | ind offset ih =>
    by_cases hw : w ≤ offset
    · have htake : (lhs.take (offset - w)).length = (rhs.take (offset - w)).length := by
        simp [hlen]
      have hmod : (offset - w) % w = offset % w := (Nat.mod_eq_sub_mod hw).symm
      have hbelow := ih (offset - w) (by omega) (by omega)
      rw [take_under lhs hw, take_under rhs hw, append_lt_append_iff _ _ htake]
      refine (or_congr_right (and_congr_right fun _ => hbelow)).trans ?_
      rw [firstGreater_next hw, same_next hw hw, hmod]
      simp only [wordUnder]
      tauto
    · -- there is no word left
      have hnone : ¬ FirstGreater w lhs rhs offset := by
        intro hall
        obtain ⟨k, hk, hkle, -⟩ := hall
        omega
      have hsame : Same w w lhs rhs offset := by
        intro k hk hkle
        omega
      rw [Nat.mod_eq_of_lt (by omega), or_iff_right hnone, and_iff_right hsame]

/-- The numbers are ordered by the top bytes, the first word that differs and the bottoms. -/
theorem value_lt_iff (hlen : lhs.length = rhs.length) (hne : 0 < lhs.length) :
    value rhs < value lhs ↔ topByte rhs < topByte lhs ∨ topByte rhs = topByte lhs ∧
      (FirstGreater w lhs rhs (lhs.length - 1) ∨ Same w w lhs rhs (lhs.length - 1) ∧
        value (rhs.take ((lhs.length - 1) % w)) < value (lhs.take ((lhs.length - 1) % w))) := by
  have htake : (lhs.take (lhs.length - 1)).length = (rhs.take (lhs.length - 1)).length := by
    simp [hlen]
  have happend := append_lt_append_iff (lhs.drop (lhs.length - 1)) (rhs.drop (lhs.length - 1))
    htake
  rw [List.take_append_drop, List.take_append_drop] at happend
  rw [happend, take_lt_iff (w := w) hlen (by omega), topByte, topByte, ← hlen]

omit [NeZero w] in
/-- The first word that differs is one that the loop gets to. -/
theorem FirstGreater.ahead (h : FirstGreater w lhs rhs (lhs.length - 1)) (hne : 0 < lhs.length) :
    Ahead w lhs rhs := by
  obtain ⟨k, hk, hle, hmod, hgreater, -⟩ := h
  exact ⟨k, hk, by omega, hmod, hgreater⟩

omit [NeZero w] in
/-- A word that is greater is not the same. -/
theorem Ahead.not_same (h : Ahead w lhs rhs) : ¬ Same w w lhs rhs (lhs.length - 1) := by
  intro hsame
  obtain ⟨k, hk, hlt, hmod, hgreater⟩ := h
  rw [hsame k hk (by omega) hmod] at hgreater
  exact Nat.lt_irrefl _ hgreater

/-- **When the comparison is that of the numbers.** Whatever is around the arrays, it returns
whether the number in `lhs` is the greater one, exactly if there are two words and the top byte,
the first word that differs and what is left under the words are as `Decided` says. -/
theorem greaterThan_order_iff (w : Nat) [NeZero w] (lhs rhs : List UInt8)
    (hlen : lhs.length = rhs.length) (hw : w < lhs.length) :
    (∀ p q : Int → UInt8,
        (unsignedGreaterThan w lhs.length (memoryAt lhs p) (memoryAt rhs q)).2 =
          some (decide (value rhs < value lhs))) ↔ Decided w lhs rhs := by
  have horder := value_lt_iff (w := w) hlen (by omega)
  by_cases htwo : w ≤ lhs.length - w
  · simp only [unsignedGreaterThan, if_neg (by omega : ¬ lhs.length - w = 0), if_pos htwo, Decided,
      and_iff_right (by omega : 2 * w ≤ lhs.length)]
    by_cases hahead : Ahead w lhs rhs
    · -- it returns true
      simp only [iteration_ahead _ _ hlen hw.le hahead, Option.some.injEq, forall_const, horder,
        hahead, hahead.not_same, not_true_eq_false, false_and, and_false, or_false, and_true,
        true_eq_decide_iff]
    · have hfirst : ¬ FirstGreater w lhs rhs (lhs.length - 1) :=
        fun h => hahead (h.ahead (by omega))
      by_cases hdvd : w ∣ lhs.length
      · -- it returns which bottom is greater, and so it is right if the rest is equal
        have hmod : (lhs.length - 1) % w = w - 1 := by
          rw [← (mod_iff_dvd (w := w) (by omega)).mpr hdvd]
          exact Nat.mod_eq_of_lt (by have := NeZero.pos w; omega)
        simp only [hmod, hfirst, false_or] at horder
        simp only [iteration_last _ _ hlen hw.le hahead hdvd, Option.some.injEq, decide_eq_decide,
          low_byte_iff]
        simp only [horder, bottom, hahead, hfirst, hdvd, and_false, false_or, not_false_eq_true,
          true_and]
        by_cases hsame : Same w w lhs rhs (lhs.length - 1)
        · simp only [hsame, true_and, and_true]
          omega
        · simp only [hsame, false_and, and_false, or_false]
          omega
      · simp [iteration_none _ _ hlen hw.le hahead hdvd, hdvd, hahead, hfirst]
  · -- all the bytes are copied into one word
    refine iff_of_false ?_ (fun h => htwo (by have := h.1; omega))
    intro h
    have hpad := h (fun _ => 0) (fun _ => 0)
    rw [unsignedGreaterThan, if_neg (by omega), if_neg htwo, iterationPadding, if_neg (by omega)]
      at hpad
    cases hpad

/-- Sixteen bytes, where the word under the top byte is greater. -/
theorem greaterThan_order_iff_ahead :
    value (zeros 16) < value (zeros 8 ++ List.replicate 8 1) ∧ ∀ p q : Int → UInt8,
      (unsignedGreaterThan 8 16 (memoryAt (zeros 8 ++ List.replicate 8 1) p)
        (memoryAt (zeros 16) q)).2 = some true := by
  have hgreater : value (zeros 16) < value (zeros 8 ++ List.replicate 8 1) := by decide
  have hdecided : Decided 8 (zeros 8 ++ List.replicate 8 1) (zeros 16) :=
    ⟨by decide, .inl ⟨by decide, 15, by decide, by decide, rfl, by decide⟩⟩
  refine ⟨hgreater, ?_⟩
  intro p q
  have hresult := (greaterThan_order_iff 8 _ _ (by decide) (by decide)).mpr hdecided p q
  rwa [decide_eq_true hgreater] at hresult

/-- Sixteen bytes, where only the top byte is greater; and where the upper word is less and the
lower one greater. -/
theorem top_byte_ignored :
    (unsignedGreaterThan 8 16 (memoryAt (zeros 15 ++ [1]) fun _ => 0)
        (memoryAt (zeros 16) fun _ => 0)).2 = some false ∧
      value (zeros 16) < value (zeros 15 ++ [1]) ∧
      (unsignedGreaterThan 8 16 (memoryAt (1 :: zeros 15) fun _ => 0)
        (memoryAt (zeros 14 ++ [1, 0]) fun _ => 0)).2 = some true ∧
      value (1 :: zeros 15) < value (zeros 14 ++ [1, 0]) := by
  refine ⟨?_, by decide, ?_, by decide⟩ <;> rw [unsignedGreaterThan, iteration, iteration] <;>
    decide

end

end Vee.Generic
