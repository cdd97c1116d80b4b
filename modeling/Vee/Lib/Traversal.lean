import Mathlib.Data.List.Nodup

/- A loop over a list that is changed on the way.

   The loop stands at an item, and when it goes on it goes to the one that is next at that
   moment. In between, items that were never there before are put in anywhere, and any are taken
   out. As long as the item it stands at is there, no item is visited twice, items that are
   there are visited in the order they stand in, and when the loop is through it has visited
   each item that was there at its start and is there still (`Walks.advance`). That an item
   stands before another is said by the two being a sublist, which changes elsewhere in the list
   leave alone. -/
namespace Traversal

variable {α β : Type*} {items items' started visited : List α} {current : Option α}
  {c d e x y : α}

section
variable [DecidableEq α]

/-- The entry behind the one of `c`. -/
def after (f : β → α) (c : α) (l : List β) : Option β := (l.dropWhile fun y => f y ≠ c).tail.head?

variable {f : β → α} {l l' : List β}

theorem after_cons_self {y : β} (h : f y = c) : after f c (y :: l) = l.head? := by
  simp [after, h]

theorem after_cons_of_ne {y : β} (h : f y ≠ c) : after f c (y :: l) = after f c l := by
  simp [after, h]

/-- The list around an entry. -/
theorem after_split (h : c ∈ l.map f) :
    ∃ a b, l.map f = a ++ c :: b ∧ (after f c l).map f = b.head? := by
  induction l with
  | nil => cases h
  | cons y l ih =>
    by_cases hy : f y = c
    · refine ⟨[], l.map f, by rw [List.map_cons, hy]; rfl, ?_⟩
      rw [after_cons_self hy, List.head?_map]
    · have hmem : c ∈ l.map f := (List.mem_cons.mp h).resolve_left fun heq => hy heq.symm
      obtain ⟨a, b, hsplit, hafter⟩ := ih hmem
      refine ⟨f y :: a, b, by rw [List.map_cons, hsplit]; rfl, ?_⟩
      rw [after_cons_of_ne hy, hafter]

/-- Behind the last entry of one list comes the first of the next. -/
theorem after_append_left (h : c ∈ l.map f) :
    after f c (l ++ l') = (after f c l).or l'.head? := by
  induction l with
  | nil => cases h
  | cons y l ih =>
    by_cases hy : f y = c
    · rw [List.cons_append, after_cons_self hy, after_cons_self hy, List.head?_append]
    · have hmem : c ∈ l.map f := (List.mem_cons.mp h).resolve_left fun heq => hy heq.symm
      rw [List.cons_append, after_cons_of_ne hy, after_cons_of_ne hy, ih hmem]

theorem after_append_right (h : c ∉ l.map f) : after f c (l ++ l') = after f c l' := by
  induction l with
  | nil => rfl
  | cons y l ih =>
    obtain ⟨hy, hl⟩ := not_or.mp (mt List.mem_cons.mpr h)
    rw [List.cons_append, after_cons_of_ne (Ne.symm hy), ih hl]

theorem after_map {γ : Type*} (g : γ → β) (l : List γ) :
    after f c (l.map g) = (after (fun z => f (g z)) c l).map g := by
  unfold after
  rw [List.dropWhile_map, ← List.map_tail, List.head?_map]
  rfl

end

/-! ## Which item stands before which -/

section
variable {a b : List α}

theorem behind_iff (h : (a ++ c :: b).Nodup) : [c, x].Sublist (a ++ c :: b) ↔ x ∈ b := by
  obtain ⟨-, hcb, hab⟩ := List.nodup_append.mp h
  constructor
  · intro hsub
    obtain ⟨l₁, l₂, heq, h₁, h₂⟩ := List.sublist_append_iff.mp hsub
    cases l₁ with
    | cons y l₁ =>
      -- `c` is not among the first ones
      obtain ⟨rfl, -⟩ := List.cons.inj heq
      exact absurd rfl (hab c (h₁.subset List.mem_cons_self) c List.mem_cons_self)
    | nil =>
      obtain rfl : [c, x] = l₂ := heq
      exact List.singleton_sublist.mp (List.cons_sublist_cons.mp h₂)
  · intro hx
    have hpair : [c, x].Sublist (c :: b) := (List.singleton_sublist.mpr hx).cons_cons c
    exact hpair.trans (List.sublist_append_right a _)

theorem before_iff (h : (a ++ c :: b).Nodup) : [x, c].Sublist (a ++ c :: b) ↔ x ∈ a := by
  have hrev : (b.reverse ++ c :: a.reverse).Nodup := by
    have hnodup := List.nodup_reverse.mpr h
    rwa [List.reverse_append, List.reverse_cons, List.append_assoc] at hnodup
  have hiff := behind_iff hrev (x := x)
  rw [List.mem_reverse] at hiff
  rw [← hiff, ← List.reverse_sublist]
  simp

/-- Two items stand one before the other. -/
theorem pair_of_mem {l : List α} (hx : x ∈ l) (hy : y ∈ l) (hne : x ≠ y) :
    [x, y].Sublist l ∨ [y, x].Sublist l := by
  obtain ⟨a, b, rfl⟩ := List.append_of_mem hx
  rcases List.mem_append.mp hy with hy | hy
  · right
    exact (List.singleton_sublist.mpr hy).append (List.singleton_sublist.mpr List.mem_cons_self)
  · have hyb : y ∈ b := (List.mem_cons.mp hy).resolve_left (Ne.symm hne)
    left
    exact ((List.singleton_sublist.mpr hyb).cons_cons x).trans (List.sublist_append_right a _)

/-- They do not stand both ways. -/
theorem not_both {l : List α} (h : l.Nodup) (hxy : [x, y].Sublist l) : ¬ [y, x].Sublist l := by
  intro hyx
  obtain ⟨a, b, rfl⟩ := List.append_of_mem (hxy.subset List.mem_cons_self)
  have hyb := (behind_iff h).mp hxy
  have hya := (before_iff h).mp hyx
  exact (List.nodup_append.mp h).2.2 y hya y (List.mem_cons_of_mem x hyb) rfl

end

/-! ## The loop -/

/-- The loop stands at `current`, or is through where that is none. -/
structure Walks (started items visited : List α) (current : Option α) : Prop where
  nodup : items.Nodup
  once : visited.Nodup
  reached : ∀ c ∈ current, c ∈ visited
  ahead : ∀ c ∈ current, ∀ x, [c, x].Sublist items → x ∉ visited
  passed : ∀ c ∈ current, ∀ x, [x, c].Sublist items → x ∈ started → x ∈ visited
  through : current = none → ∀ x ∈ items, x ∈ started → x ∈ visited
  order : ∀ x ∈ items, ∀ y ∈ items, [x, y].Sublist visited → [x, y].Sublist items

/-- The loop begins with the first item. -/
theorem Walks.start (h : items.Nodup) : Walks items items items.head?.toList items.head? := by
  cases items with
  | nil => exact ⟨h, .nil, by simp, by simp, by simp, by simp, by simp⟩
  | cons c b =>
    have hsplit : ([] ++ c :: b).Nodup := h
    constructor
    case nodup => exact h
    case once => exact List.nodup_singleton c
    case reached => simp
    case ahead =>
      intro d hd x hx
      obtain rfl := Option.some.inj hd
      have hxb := (behind_iff hsplit).mp hx
      intro hmem
      obtain rfl := List.mem_singleton.mp hmem
      exact (List.nodup_cons.mp h).1 hxb
    case passed =>
      intro d hd x hx
      obtain rfl := Option.some.inj hd
      cases (before_iff hsplit).mp hx
    case through => simp
    case order =>
      intro x _ y _ hxy
      have hlen := hxy.length_le
      simp at hlen

/-- An item is put in that was never there before. -/
theorem Walks.insert [DecidableEq α] (h : Walks started items visited current)
    (hnodup : items'.Nodup) (herase : items'.erase e = items) (hvisited : e ∉ visited)
    (hstarted : e ∉ started) : Walks started items' visited current := by
  -- the other items stand as they stood
  have hpair : ∀ {y z : α}, e ≠ y → e ≠ z → [y, z].Sublist items' → [y, z].Sublist items := by
    intro y z hy hz hsub
    have hkept : [y, z].erase e = [y, z] := List.erase_of_not_mem (by simp [hy, hz])
    rw [← hkept, ← herase]
    exact hsub.erase e
  constructor
  case nodup => exact hnodup
  case once => exact h.once
  case reached => exact h.reached
  case ahead =>
    intro c hc x hx
    by_cases hex : e = x
    · exact hex ▸ hvisited
    · have hec : e ≠ c := fun heq => hvisited (heq ▸ h.reached c hc)
      exact h.ahead c hc x (hpair hec hex hx)
  case passed =>
    intro c hc x hx hxs
    have hex : e ≠ x := fun heq => hstarted (heq ▸ hxs)
    have hec : e ≠ c := fun heq => hvisited (heq ▸ h.reached c hc)
    exact h.passed c hc x (hpair hex hec hx) hxs
  case through =>
    intro hend x hx hxs
    have hex : x ≠ e := fun heq => hstarted (heq ▸ hxs)
    exact h.through hend x (herase ▸ (List.mem_erase_of_ne hex).mpr hx) hxs
  case order =>
    intro x hx y hy hxy
    have hstays : ∀ z ∈ items', z ∈ visited → z ∈ items := by
      intro z hz hzv
      have hez : z ≠ e := fun heq => hvisited (heq ▸ hzv)
      exact herase ▸ (List.mem_erase_of_ne hez).mpr hz
    have hold := h.order x (hstays x hx (hxy.subset (by simp))) y
      (hstays y hy (hxy.subset (by simp))) hxy
    exact hold.trans (herase ▸ List.erase_sublist)

/-- Items are taken out. -/
theorem Walks.remove (h : Walks started items visited current) (hsub : items'.Sublist items) :
    Walks started items' visited current where
  nodup := h.nodup.sublist hsub
  once := h.once
  reached := h.reached
  ahead c hc x hx := h.ahead c hc x (hx.trans hsub)
  passed c hc x hx hxs := h.passed c hc x (hx.trans hsub) hxs
  through hend x hx hxs := h.through hend x (hsub.subset hx) hxs
  order x hx y hy hxy := by
    have hold := h.order x (hsub.subset hx) y (hsub.subset hy) hxy
    have hne : x ≠ y := by
      intro heq
      have hpair := hold.nodup h.nodup
      simp [heq] at hpair
    exact (pair_of_mem hx hy hne).resolve_right fun hyx =>
      not_both h.nodup hold (hyx.trans hsub)

/-- **The loop goes on.** -/
theorem Walks.advance [DecidableEq α] {f : β → α} {l : List β}
    (h : Walks started (l.map f) visited (some c)) (hc : c ∈ l.map f) :
    Walks started (l.map f) (visited ++ ((after f c l).map f).toList) ((after f c l).map f) := by
  obtain ⟨a, b, hsplit, hafter⟩ := after_split hc
  rw [hsplit] at h ⊢
  have hbehind : ∀ x ∈ b, x ∉ visited := fun x hx =>
    h.ahead c rfl x ((behind_iff h.nodup).mpr hx)
  have hbefore : ∀ x ∈ a, x ∈ started → x ∈ visited := fun x hx =>
    h.passed c rfl x ((before_iff h.nodup).mpr hx)
  rw [hafter]
  cases b with
  | nil =>
    rw [List.head?_nil, Option.toList_none, List.append_nil]
    refine ⟨h.nodup, h.once, by simp, by simp, by simp, ?_, h.order⟩
    intro _ x hx hxs
    rcases List.mem_append.mp hx with hx | hx
    · exact hbefore x hx hxs
    · obtain rfl := List.mem_singleton.mp hx
      exact h.reached x rfl
  | cons d b =>
    have hnext : ((a ++ [c]) ++ d :: b).Nodup := by
      rw [List.append_assoc]
      exact h.nodup
    have hbeyond : ∀ x, [d, x].Sublist (a ++ c :: d :: b) → x ∈ b := by
      intro x hx
      exact (behind_iff hnext).mp (by rwa [List.append_assoc])
    constructor
    case nodup => exact h.nodup
    case once =>
      rw [List.nodup_append_comm]
      exact List.nodup_cons.mpr ⟨hbehind d List.mem_cons_self, h.once⟩
    case reached =>
      intro y hy
      obtain rfl := Option.some.inj hy
      simp
    case ahead =>
      intro y hy x hx
      obtain rfl := Option.some.inj hy
      have hxb := hbeyond x hx
      intro hmem
      rcases List.mem_append.mp hmem with hmem | hmem
      · exact hbehind x (List.mem_cons_of_mem d hxb) hmem
      · obtain rfl : x = d := by simpa using hmem
        exact (List.nodup_cons.mp (List.nodup_append.mp hnext).2.1).1 hxb
    case passed =>
      intro y hy x hx hxs
      obtain rfl := Option.some.inj hy
      have hxa := (before_iff hnext).mp (by rwa [List.append_assoc])
      refine List.mem_append_left _ ?_
      rcases List.mem_append.mp hxa with hx | hx
      · exact hbefore x hx hxs
      · obtain rfl := List.mem_singleton.mp hx
        exact h.reached x rfl
    case through =>
      intro hend
      cases hend
    case order =>
      intro x hx y hy hxy
      have hlast : (visited ++ d :: []).Nodup := by
        rw [List.nodup_append_comm]
        exact List.nodup_cons.mpr ⟨hbehind d List.mem_cons_self, h.once⟩
      have hxd : x ≠ d := by
        intro heq
        subst heq
        cases (behind_iff hlast).mp hxy
      by_cases hyd : y = d
      · subst hyd
        have hxv : x ∈ visited := (before_iff hlast).mp hxy
        refine (pair_of_mem hx hy hxd).resolve_right ?_
        intro hyx
        exact hbehind x (List.mem_cons_of_mem y (hbeyond x hyx)) hxv
      · -- neither of the two is the new one
        have hkept : [x, y].erase d = [x, y] :=
          List.erase_of_not_mem (by simp [Ne.symm hxd, Ne.symm hyd])
        have hnew : (visited ++ d :: []).erase d = visited := by
          rw [List.erase_append_right _ (hbehind d List.mem_cons_self)]
          simp
        have hold : [x, y].Sublist visited := by
          rw [← hkept, ← hnew]
          exact hxy.erase d
        exact h.order x hx y hy hold

end Traversal
