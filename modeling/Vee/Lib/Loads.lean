import Mathlib.Algebra.BigOperators.Fin
import Mathlib.Algebra.Order.BigOperators.Group.Finset

/- Loads and their mean, rounded down.

   Some load is at most the mean (`exists_le_mean`). So where all that have room are loaded
   up to some bound and all below it have room, one with room is loaded no more than the
   mean, if there is one with room at all (`exists_room_le_mean`). Work that is given to one
   loaded no more than the mean keeps any two loads within 1 of each other (`Level.raise`). -/
namespace Loads

variable {ι : Type*} [Fintype ι] {f : ι → Nat}

/-- The floor of the mean. -/
def mean (f : ι → Nat) : Nat := (∑ i, f i) / Fintype.card ι

/-- Any two loads differ by at most 1. -/
def Level (f : ι → Nat) : Prop := ∀ i j, f i ≤ f j + 1

theorem le_mean_iff (i : ι) {k : Nat} : k ≤ mean f ↔ Fintype.card ι * k ≤ ∑ i, f i := by
  have hpos : 0 < Fintype.card ι := Fintype.card_pos_iff.mpr ⟨i⟩
  rw [mean, Nat.le_div_iff_mul_le hpos, Nat.mul_comm]

theorem exists_le_mean (i : ι) : ∃ j, f j ≤ mean f := by
  by_contra hnone
  have hlt : ∀ j, mean f + 1 ≤ f j := by
    intro j
    by_contra hle
    exact hnone ⟨j, by omega⟩
  have hsum : Fintype.card ι * (mean f + 1) ≤ ∑ j, f j := by
    calc Fintype.card ι * (mean f + 1)
        = ∑ _j : ι, (mean f + 1) := by rw [Finset.sum_const, Finset.card_univ, smul_eq_mul]
      _ ≤ ∑ j, f j := Finset.sum_le_sum fun j _ => hlt j
  have hle := (le_mean_iff (f := f) i).mpr hsum
  omega

/-- **Completeness of the test against the mean.** -/
theorem exists_room_le_mean {Room : ι → Prop} {bound : Nat} (hle : ∀ i, Room i → f i ≤ bound)
    (hlt : ∀ i, f i < bound → Room i) {i : ι} (hi : Room i) : ∃ j, Room j ∧ f j ≤ mean f := by
  by_cases hmean : f i ≤ mean f
  · exact ⟨i, hi, hmean⟩
  · obtain ⟨j, hj⟩ := exists_le_mean (f := f) i
    have hbound := hle i hi
    exact ⟨j, hlt j (by omega), hj⟩

/-- One loaded no more than the mean of level loads is loaded least. -/
theorem Level.least (h : Level f) {i : ι} (hi : f i ≤ mean f) (j : ι) : f i ≤ f j := by
  by_contra hlt
  have hall : ∀ k, f k ≤ f i := by
    intro k
    have hk := h k j
    omega
  have hsum : ∑ k, f k < Fintype.card ι * f i := by
    calc ∑ k, f k
        < ∑ _k : ι, f i :=
          Finset.sum_lt_sum (fun k _ => hall k) ⟨j, Finset.mem_univ j, by omega⟩
      _ = Fintype.card ι * f i := by rw [Finset.sum_const, Finset.card_univ, smul_eq_mul]
  have hle := (le_mean_iff i).mp hi
  omega

theorem Level.raise [DecidableEq ι] (h : Level f) {i : ι} (hi : f i ≤ mean f) :
    Level (Function.update f i (f i + 1)) := by
  intro j k
  have hleast := h.least hi
  by_cases hj : j = i
  · by_cases hk : k = i
    · rw [hj, hk]
      exact Nat.le_succ _
    · rw [hj, Function.update_self, Function.update_of_ne hk]
      exact Nat.succ_le_succ (hleast k)
  · rw [Function.update_of_ne hj]
    by_cases hk : k = i
    · have hji := h j i
      rw [hk, Function.update_self]
      omega
    · rw [Function.update_of_ne hk]
      exact h j k

end Loads
