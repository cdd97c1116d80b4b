import Mathlib.Logic.Relation

/- Loops as a body that either goes on with a new state or ends with a result.

   `Reaches` is between the states a loop passes through, `Ends` says that it ends and
   with what. A loop ends if each round takes a measure down (`ends_of_measure`), it never
   does if each round can be followed by another (`not_ends`), and it ends in one way only
   (`Ends.unique`). `run` executes a number of rounds. -/
namespace Loop

variable {σ ρ : Type*} (body : σ → σ ⊕ ρ)

/-- One round leads from `s` to `s'`. -/
def Next (s s' : σ) : Prop := body s = .inl s'

/-- The loop passes through `s'` when it starts at `s`. -/
def Reaches : σ → σ → Prop := Relation.ReflTransGen (Next body)

/-- The loop that starts at `s` ends with `r`. -/
def Ends (s : σ) (r : ρ) : Prop := ∃ s', Reaches body s s' ∧ body s' = .inr r

/-- The result after at most so many rounds. -/
def run : Nat → σ → Option ρ
  | 0, _ => none
  | k + 1, s =>
    match body s with
    | .inl s' => run k s'
    | .inr r => some r

section
variable {body} {s s' : σ} {r r' : ρ}

/-- A round, and the rest of the loop. -/
theorem reaches_next (h : body s = .inl s') {x : σ} :
    Reaches body s x ↔ x = s ∨ Reaches body s' x := by
  refine ⟨?_, ?_⟩
  · intro hx
    rcases Relation.ReflTransGen.cases_head hx with rfl | ⟨m, hm, hx⟩
    · exact .inl rfl
    · obtain rfl : s' = m := Sum.inl.inj (h.symm.trans hm)
      exact .inr hx
  · intro hcase
    rcases hcase with rfl | hx
    · exact .refl
    · exact .head h hx

/-- A loop that ends at once passes through no other state. -/
theorem reaches_done (h : body s = .inr r) {x : σ} : Reaches body s x ↔ x = s := by
  refine ⟨?_, fun hx => hx ▸ .refl⟩
  intro hx
  rcases Relation.ReflTransGen.cases_head hx with rfl | ⟨m, hm, -⟩
  · rfl
  · cases h.symm.trans hm

theorem ends_next (h : body s = .inl s') : Ends body s r ↔ Ends body s' r := by
  refine ⟨?_, ?_⟩
  · intro hall
    obtain ⟨x, hx, hr⟩ := hall
    rcases (reaches_next h).mp hx with rfl | hx
    · cases h.symm.trans hr
    · exact ⟨x, hx, hr⟩
  · intro hall
    obtain ⟨x, hx, hr⟩ := hall
    exact ⟨x, (reaches_next h).mpr (.inr hx), hr⟩

theorem ends_done (h : body s = .inr r) : Ends body s r' ↔ r' = r := by
  refine ⟨?_, ?_⟩
  · intro hall
    obtain ⟨x, hx, hr⟩ := hall
    obtain rfl := (reaches_done h).mp hx
    exact Sum.inr.inj (hr.symm.trans h)
  · intro heq
    subst heq
    exact ⟨s, .refl, h⟩

/-- What holds at the start and is kept by every round holds all along. -/
theorem Reaches.invariant {I : σ → Prop} (h : Reaches body s s') (hs : I s)
    (keep : ∀ x y, I x → body x = .inl y → I y) : I s' := by
  induction h with
  | refl => exact hs
  | tail _ hstep ih => exact keep _ _ ih hstep

/-- What an invariant says of the result. -/
theorem Ends.invariant {I : σ → Prop} {Q : ρ → Prop} (h : Ends body s r) (hs : I s)
    (keep : ∀ x y, I x → body x = .inl y → I y) (last : ∀ x q, I x → body x = .inr q → Q q) :
    Q r := by
  obtain ⟨x, hx, hr⟩ := h
  exact last x r (hx.invariant hs keep) hr

theorem Ends.unique (h : Ends body s r) (h' : Ends body s r') : r = r' := by
  obtain ⟨x, hx, hr⟩ := h
  induction hx using Relation.ReflTransGen.head_induction_on with
  | refl => exact ((ends_done hr).mp h').symm
  | head hstep _ ih => exact ih ((ends_next hstep).mp h')

/-- A loop ends if each of its rounds takes the measure down. -/
theorem ends_of_measure {I : σ → Prop} (μ : σ → Nat) (hs : I s)
    (keep : ∀ x y, I x → body x = .inl y → I y ∧ μ y < μ x) : ∃ r, Ends body s r := by
  induction hk : μ s using Nat.strongRecOn generalizing s with
  | ind k ih =>
    cases hbody : body s with
    | inr r => exact ⟨r, (ends_done hbody).mpr rfl⟩
    | inl y =>
      obtain ⟨hy, hlt⟩ := keep s y hs hbody
      obtain ⟨r, hr⟩ := ih (μ y) (hk ▸ hlt) hy rfl
      exact ⟨r, (ends_next hbody).mpr hr⟩

/-- A loop never ends if each of its rounds can be followed by another. -/
theorem not_ends {I : σ → Prop} (hs : I s) (keep : ∀ x, I x → ∃ y, body x = .inl y ∧ I y) :
    ¬ Ends body s r := by
  intro h
  refine h.invariant (Q := fun _ => False) hs ?_ ?_
  · intro x y hx hxy
    obtain ⟨z, hz, hI⟩ := keep x hx
    obtain rfl : z = y := Sum.inl.inj (hz.symm.trans hxy)
    exact hI
  · intro x q hx hq
    obtain ⟨z, hz, -⟩ := keep x hx
    cases hz.symm.trans hq

theorem ends_of_run {k : Nat} (h : run body k s = some r) : Ends body s r := by
  induction k generalizing s with
  | zero => cases h
  | succ k ih =>
    rw [run] at h
    split at h
    · rename_i y hy
      exact (ends_next hy).mpr (ih h)
    · rename_i q hq
      exact (ends_done hq).mpr (Option.some.inj h).symm

end

end Loop
