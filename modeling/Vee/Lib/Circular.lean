import Mathlib.Data.Fin.Basic
import Mathlib.Data.Fintype.EquivFin
import Mathlib.Data.Nat.ModEq

/- Positions in a circular buffer.

   A buffer of `n` slots is walked by counting up and reducing modulo `n`. Two
   counts less than a lap apart are at different slots, a lap passes every slot, and a
   lap later a count is back where it was. -/
namespace Circular

variable {n : Nat} [NeZero n]

/-- The slot of the `k`-th position. -/
def slot (n : Nat) [NeZero n] (k : Nat) : Fin n := ⟨k % n, Nat.mod_lt k (Nat.pos_of_neZero n)⟩

@[simp] theorem slot_val (k : Nat) : (slot n k : Nat) = k % n := rfl

@[simp] theorem slot_zero : slot n 0 = 0 := by
  apply Fin.ext
  simp

@[simp] theorem slot_self : slot n n = 0 := by
  apply Fin.ext
  simp

/-- One slot on. -/
def next (i : Fin n) : Fin n := slot n (i + 1)

@[simp] theorem next_slot (k : Nat) : next (slot n k) = slot n (k + 1) := by
  apply Fin.ext
  simp [next]

/-- A lap later the position is the same. -/
theorem slot_lap (k : Nat) : slot n (k + n) = slot n k := by
  apply Fin.ext
  simp

/-- Within a lap positions are distinct. -/
theorem slot_inj {j k : Nat} (h : slot n j = slot n k) (hjk : j < k + n) (hkj : k < j + n) :
    j = k := by
  have hmod : j ≡ k [MOD n] := congrArg Fin.val h
  rcases Nat.le_total j k with hle | hle
  · have hdvd : n ∣ k - j := (Nat.modEq_iff_dvd' hle).mp hmod
    have hzero : k - j = 0 := Nat.eq_zero_of_dvd_of_lt hdvd (by omega)
    omega
  · have hdvd : n ∣ j - k := (Nat.modEq_iff_dvd' hle).mp hmod.symm
    have hzero : j - k = 0 := Nat.eq_zero_of_dvd_of_lt hdvd (by omega)
    omega

/-- A lap passes every slot. -/
theorem slot_window (f : Nat) (i : Fin n) : ∃ k, f ≤ k ∧ k < f + n ∧ slot n k = i := by
  have hinj : Function.Injective fun j : Fin n => slot n (f + j) := by
    intro j k hjk
    have heq : f + (j : Nat) = f + k := slot_inj hjk (by omega) (by omega)
    exact Fin.ext (by omega)
  obtain ⟨j, hj⟩ := Finite.surjective_of_injective hinj i
  exact ⟨f + j, by omega, by omega, hj⟩

end Circular
