import Vee.Lib.Keyed
import Vee.Lib.Loop

/- A loop over the entries of one container that inserts each of them into another, which may
   be the same one.

   The loop holds an iterator, which stays with its entry when another is inserted (`follow`),
   so that what it comes to next depends on where the new one was put. It ends with all entries
   inserted where the containers are two (`pour_apart`); where they are one it ends if nothing
   is put in twice (`pour_kept`) and never does if each entry is put behind its original
   (`not_pour_grows`). -/
namespace Keyed
open Loop

/-- A kind of container, as such a loop uses it: where an entry was put in it stands at `rank`,
and where it was not nothing has changed. -/
structure Container (C K V : Type*) where
  entries : C → List (K × V)
  insert : C → K → V → C × Bool
  rank : C → K → Nat
  modify : C → Nat → (V → V) → C
  entries_put : ∀ {c k v}, (insert c k v).2 = true →
    entries (insert c k v).1 = (entries c).insertIdx (rank c k) (k, v)
  entries_kept : ∀ {c k v}, (insert c k v).2 = false → (insert c k v).1 = c
  entries_modify : ∀ {c p f}, entries (modify c p f) = (entries c).modify p (Prod.map id f)

namespace Container

variable {C K V I : Type*} [DecidableEq I] (o : Container C K V)

/-- Where the entry at place `p` stands after an insertion. -/
def follow (c : C) (k : K) (isNew : Bool) (p : Nat) : Nat :=
  if isNew ∧ o.rank c k ≤ p then p + 1 else p

/-- One round: insert the entry the iterator is at, and go on to the next one. `left` is what
the insertion leaves of the value it was given. -/
def pour (left : Bool → V → V) (i j : I) : (I → C) × Nat → (I → C) × Nat ⊕ (I → C)
  | (t, p) =>
    match (o.entries (t j))[p]? with
    | none => .inr t
    | some (key, value) =>
      let (c, isNew) := o.insert (t i) key value
      let inserted := Function.update t i c
      let p := if i = j then o.follow (t j) key isNew p else p
      .inl (Function.update inserted j (o.modify (inserted j) p (left isNew)), p + 1)

/-- Insert the entries one after another. -/
def insertAll (c : C) (l : List (K × V)) : C := l.foldl (fun c e => (o.insert c e.1 e.2).1) c

variable {o} {left : Bool → V → V} {i j : I} {t t' : I → C} {p : Nat}

theorem pour_end (h : (o.entries (t j))[p]? = none) : o.pour left i j (t, p) = .inr t := by
  simp only [pour, h]

theorem pour_entry (left : Bool → V → V) {e : K × V} (h : (o.entries (t j))[p]? = some e)
    (hij : i ≠ j) :
    o.pour left i j (t, p) =
      .inl (Function.update (Function.update t i (o.insert (t i) e.1 e.2).1) j
        (o.modify (t j) p (left (o.insert (t i) e.1 e.2).2)), p + 1) := by
  simp only [pour, h, if_neg hij, Function.update_of_ne hij.symm]

theorem pour_same {e : K × V} (h : (o.entries (t i))[p]? = some e) :
    o.pour left i i (t, p) =
      .inl (Function.update t i (o.modify (o.insert (t i) e.1 e.2).1
          (o.follow (t i) e.1 (o.insert (t i) e.1 e.2).2 p) (left (o.insert (t i) e.1 e.2).2)),
        o.follow (t i) e.1 (o.insert (t i) e.1 e.2).2 p + 1) := by
  simp only [pour, h, if_true, Function.update_self, Function.update_idem]

/-- Into another container: the rest of the entries is inserted and the loop ends. -/
theorem pour_rest (hij : i ≠ j) : ∀ (l : List (K × V)) (t : I → C) (p : Nat),
    (o.entries (t j)).drop p = l →
      ∃ t', Ends (o.pour left i j) (t, p) t' ∧ t' i = o.insertAll (t i) l
  | [], t, p, hl => by
    have hend : (o.entries (t j))[p]? = none :=
      List.getElem?_eq_none (List.drop_eq_nil_iff.mp hl)
    exact ⟨t, (ends_done (pour_end hend)).mpr rfl, rfl⟩
  | e :: l, t, p, hl => by
    have hentry : (o.entries (t j))[p]? = some e := by
      rw [← List.head?_drop, hl, List.head?_cons]
    have hnext := pour_entry left hentry hij
    have hdrop : (o.entries (t j)).drop (p + 1) = l := by
      rw [← List.tail_drop, hl, List.tail_cons]
    generalize hu : Function.update (Function.update t i _) j _ = u at hnext
    have hrest : (o.entries (u j)).drop (p + 1) = l := by
      rw [← hu, Function.update_self, o.entries_modify,
        List.drop_modify_of_lt _ _ _ _ (Nat.lt_succ_self p), hdrop]
    obtain ⟨t', hends, hput⟩ := pour_rest hij l u (p + 1) hrest
    refine ⟨t', (ends_next hnext).mpr hends, ?_⟩
    rw [hput, ← hu, Function.update_of_ne hij, Function.update_self]
    rfl

theorem pour_apart (left : Bool → V → V) (hij : i ≠ j) (t : I → C) :
    ∃ t', Ends (o.pour left i j) (t, 0) t' ∧ t' i = o.insertAll (t i) (o.entries (t j)) :=
  pour_rest hij _ t 0 List.drop_zero

/-- Into the same container, which takes none of its own entries in again. -/
theorem pour_kept (left : Bool → V → V) (i : I)
    (hkept : ∀ {c : C} {p : Nat} {e : K × V}, (o.entries c)[p]? = some e →
      (o.insert c e.1 e.2).2 = false) (t : I → C) (p : Nat) :
    ∃ t', Ends (o.pour left i i) (t, p) t' := by
  refine ends_of_measure (I := fun _ => True) (fun x => (o.entries (x.1 i)).length - x.2)
    trivial ?_
  rintro ⟨t, p⟩ y - hy
  refine ⟨trivial, ?_⟩
  cases he : (o.entries (t i))[p]? with
  | none => cases (pour_end he).symm.trans hy
  | some e =>
    obtain ⟨hp, -⟩ := List.getElem?_eq_some_iff.mp he
    rw [pour_same he, hkept he, o.entries_kept (hkept he)] at hy
    obtain rfl := Sum.inl.inj hy
    simp only [Function.update_self, follow, o.entries_modify, List.length_modify,
      Bool.false_eq_true, false_and, if_false]
    omega

/-- Into the same container, which puts an entry behind the one it is a copy of: there is
always a next one. -/
theorem not_pour_grows (hput : ∀ {c : C} {p : Nat} {e : K × V}, (o.entries c)[p]? = some e →
      (o.insert c e.1 e.2).2 = true ∧ p < o.rank c e.1 ∧ o.rank c e.1 ≤ (o.entries c).length)
    (hne : o.entries (t i) ≠ []) : ¬ Ends (o.pour left i i) (t, 0) t' := by
  refine not_ends (I := fun x => x.2 < (o.entries (x.1 i)).length)
    (List.length_pos_of_ne_nil hne) ?_
  intro hall hp
  obtain ⟨t, p⟩ := hall
  change p < (o.entries (t i)).length at hp
  have he := List.getElem?_eq_getElem hp
  obtain ⟨hnew, hbehind, hlast⟩ := hput he
  refine ⟨_, pour_same he, ?_⟩
  rw [hnew, follow, if_neg (fun h => absurd hbehind (Nat.not_lt.mpr h.2))]
  show p + 1 < (o.entries (Function.update t i _ i)).length
  rw [Function.update_self, o.entries_modify, List.length_modify, o.entries_put hnew,
    List.length_insertIdx_of_le_length hlast]
  exact Nat.succ_lt_succ hp

end Container

end Keyed
