import Mathlib.Data.Fintype.EquivFin
import Mathlib.Logic.ExistsUnique

/- Items that each have exactly one owner.

   `Owns o b` says that owner `o` holds item `b`. The items in circulation are
   the live ones; a program that never copies an item keeps `OwnedOnce`, since
   each of its steps either leaves the relation alone or hands one item from one
   owner to another.

   Where the owners are processes and each is at one place at most, `at_update_iff` says
   which places are taken after one of them has moved. -/
namespace Ownership

variable {O ι : Type*} {live : ι → Prop} {Owns Owns' : O → ι → Prop}

/-- Only live items are owned, and each of them by exactly one owner. -/
def OwnedOnce (live : ι → Prop) (Owns : O → ι → Prop) : Prop :=
  (∀ o b, Owns o b → live b) ∧ ∀ b, live b → ∃! o, Owns o b

theorem OwnedOnce.congr (h : OwnedOnce live Owns) (hiff : ∀ o b, Owns' o b ↔ Owns o b) :
    OwnedOnce live Owns' := by
  have heq : Owns' = Owns := by
    funext o b
    exact propext (hiff o b)
  rw [heq]
  exact h

/-- Two owners of one item are the same. -/
theorem OwnedOnce.owner_eq (h : OwnedOnce live Owns) {o o' : O} {b : ι} (ho : Owns o b)
    (ho' : Owns o' b) : o = o' :=
  (h.2 b (h.1 o b ho)).unique ho ho'

/-- `x` hands `b` to `y`, which held nothing; nobody else is concerned. -/
theorem OwnedOnce.transfer (h : OwnedOnce live Owns) {x y : O} {b : ι} (hx : Owns x b)
    (hxy : x ≠ y) (hx' : ∀ c, Owns' x c ↔ Owns x c ∧ c ≠ b)
    (hy : ∀ c, ¬ Owns y c) (hy' : ∀ c, Owns' y c ↔ c = b)
    (ho : ∀ o, o ≠ x → o ≠ y → ∀ c, Owns' o c ↔ Owns o c) : OwnedOnce live Owns' := by
  have hlive : live b := h.1 x b hx
  refine ⟨?_, ?_⟩
  · intro o c hc
    by_cases hox : o = x
    · subst hox
      exact h.1 o c ((hx' c).mp hc).1
    · by_cases hoy : o = y
      · subst hoy
        rwa [(hy' c).mp hc]
      · exact h.1 o c ((ho o hox hoy c).mp hc)
  · intro c hc
    -- `b` is now owned by `y` alone, any other item by its old owner
    by_cases hcb : c = b
    · subst hcb
      refine ⟨y, (hy' c).mpr rfl, ?_⟩
      intro o hoc
      by_cases hoy : o = y
      · exact hoy
      have hox : o ≠ x := by
        intro heq
        subst heq
        exact ((hx' c).mp hoc).2 rfl
      exact absurd (h.owner_eq ((ho o hox hoy c).mp hoc) hx) hox
    · obtain ⟨o, hoc, huniq⟩ := h.2 c hc
      have hoy : o ≠ y := by
        intro heq
        subst heq
        exact hy c hoc
      refine ⟨o, ?_, ?_⟩
      · by_cases hox : o = x
        · subst hox
          exact (hx' c).mpr ⟨hoc, hcb⟩
        · exact (ho o hox hoy c).mpr hoc
      · intro p hp
        apply huniq
        by_cases hpx : p = x
        · subst hpx
          exact ((hx' c).mp hp).1
        · by_cases hpy : p = y
          · subst hpy
            exact absurd ((hy' c).mp hp) hcb
          · exact (ho p hpx hpy c).mp hp

/-- Of `n` items in circulation `n` owners that hold something hold all. -/
theorem OwnedOnce.all_held {n : Nat} {Owns : O → Nat → Prop} (h : OwnedOnce (· < n) Owns)
    {o : Fin n → O} (hinj : Function.Injective o) (ho : ∀ i, ∃ b, Owns (o i) b) {x : O} {b : Nat}
    (hx : Owns x b) : ∃ i, x = o i := by
  choose g hg using ho
  have hlive : ∀ i, g i < n := fun i => h.1 _ _ (hg i)
  have hinj' : Function.Injective fun i => (⟨g i, hlive i⟩ : Fin n) := by
    intro i j heq
    have hij : g i = g j := Fin.mk.inj heq
    exact hinj (h.owner_eq (hg i) (hij ▸ hg j))
  obtain ⟨i, hi⟩ := Finite.surjective_of_injective hinj' ⟨b, h.1 x b hx⟩
  obtain rfl : g i = b := Fin.mk.inj hi
  exact ⟨i, h.owner_eq hx (hg i)⟩

section
variable {T P : Type*} [DecidableEq T] {f : P → Option ι} {pcs : T → P} {t : T} {p : P} {i : ι}

/-- After `t` has moved, a place is taken by `t`, or it was by another. -/
theorem at_update_iff (hone : ∀ u, f (pcs t) = some i → f (pcs u) = some i → t = u) :
    (∃ u, f (Function.update pcs t p u) = some i) ↔
      f p = some i ∨ (∃ u, f (pcs u) = some i) ∧ f (pcs t) ≠ some i := by
  constructor
  · intro htaken
    obtain ⟨u, hu⟩ := htaken
    by_cases hut : u = t
    · rw [hut, Function.update_self] at hu
      exact .inl hu
    · rw [Function.update_of_ne hut] at hu
      exact .inr ⟨⟨u, hu⟩, fun ht => hut (hone u ht hu).symm⟩
  · intro hcases
    rcases hcases with hp | ⟨⟨u, hu⟩, hne⟩
    · exact ⟨t, by rw [Function.update_self]; exact hp⟩
    · have hut : u ≠ t := fun heq => hne (heq ▸ hu)
      exact ⟨u, by rw [Function.update_of_ne hut]; exact hu⟩

/-- If `t` stays at its place, the same places are taken. -/
theorem at_update_same (hp : f p = f (pcs t)) :
    (∃ u, f (Function.update pcs t p u) = some i) ↔ ∃ u, f (pcs u) = some i := by
  apply exists_congr
  intro u
  by_cases hut : u = t
  · rw [hut, Function.update_self, hp]
  · rw [Function.update_of_ne hut]

end

end Ownership
