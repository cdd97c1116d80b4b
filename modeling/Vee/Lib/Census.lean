import Mathlib.Data.Finset.Card

/- Counting the threads whose state has a property.

   There may be infinitely many threads, so the count is that of a finite set with just
   those threads; `Census P f U` says that `U` is it. A step changes the state of one thread,
   and with it the count by one at most. -/
namespace Counting

variable {T V : Type*} {P : V → Prop} {f : T → V} {U : Finset T}

/-- `U` are the threads whose state has the property `P`. -/
def Census (P : V → Prop) (f : T → V) (U : Finset T) : Prop := ∀ t, t ∈ U ↔ P (f t)

theorem census_none (h : ∀ t, ¬ P (f t)) : Census P f ∅ := by
  intro t
  simp [h t]

/-- Nobody is counted where nobody has the property. -/
theorem Census.eq_empty (h : Census P f U) (hnone : ∀ t, ¬ P (f t)) : U = ∅ :=
  Finset.eq_empty_of_forall_notMem fun t ht => hnone t ((h t).mp ht)

theorem Census.card_pos (h : Census P f U) {t : T} (ht : P (f t)) : 0 < U.card :=
  Finset.card_pos.mpr ⟨t, (h t).mpr ht⟩

/-- A thread after one thread has gone to state `v`. -/
theorem of_update [DecidableEq T] {t u : T} {v : V} (h : P (Function.update f t v u)) :
    u = t ∧ P v ∨ u ≠ t ∧ P (f u) := by
  by_cases hu : u = t
  · rw [hu, Function.update_self] at h
    exact .inl ⟨hu, h⟩
  · rw [Function.update_of_ne hu] at h
    exact .inr ⟨hu, h⟩

/-- One thread goes to state `v`. -/
theorem Census.update [DecidableEq T] [DecidablePred P] (h : Census P f U) (t : T) (v : V) :
    ∃ U', Census P (Function.update f t v) U' ∧
      U'.card + (if P (f t) then 1 else 0) = U.card + if P v then 1 else 0 := by
  have hother : ∀ u, u ≠ t → Function.update f t v u = f u :=
    fun u hu => Function.update_of_ne hu _ _
  by_cases hv : P v
  · refine ⟨insert t U, ?_, ?_⟩
    · intro u
      by_cases hu : u = t
      · simp [hu, hv]
      · rw [hother u hu]
        simp [hu, h u]
    · by_cases ht : P (f t)
      · simp [hv, ht, Finset.insert_eq_of_mem ((h t).mpr ht)]
      · simp [hv, ht, Finset.card_insert_of_notMem (fun hmem => ht ((h t).mp hmem))]
  · refine ⟨U.erase t, ?_, ?_⟩
    · intro u
      by_cases hu : u = t
      · simp [hu, hv]
      · rw [hother u hu]
        simp [hu, h u]
    · by_cases ht : P (f t)
      · simp [hv, ht, Finset.card_erase_add_one ((h t).mpr ht)]
      · simp [hv, ht, Finset.erase_eq_of_notMem (fun hmem => ht ((h t).mp hmem))]

end Counting
