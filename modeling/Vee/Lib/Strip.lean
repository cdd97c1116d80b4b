import Mathlib.Data.List.DropRight

/- A list without the elements of one kind at its two ends, and a list cut at them.

   `Stripped p s t` says which list is left of `s` without those at its ends; `strip` computes
   one (`stripped_strip`), and there is no other (`Stripped.eq`). `pieces` are those between
   the separators, empty ones left out: a list with separators put between pieces that have
   none is cut into those pieces again (`pieces_intercalate`). -/
namespace Strip

variable {α : Type*} (p : α → Bool)

/-- `t` is `s` without what it has of `p` around it. -/
structure Stripped (s t : List α) : Prop where
  around : ∃ u v, s = u ++ t ++ v ∧ (∀ x ∈ u, p x = true) ∧ ∀ x ∈ v, p x = true
  head : ∀ x, t.head? = some x → p x = false
  last : ∀ x, t.getLast? = some x → p x = false

/-- Drop from the end, and then from the start. -/
def strip (s : List α) : List α := (s.rdropWhile p).dropWhile p

variable {p} {s t u v : List α}

theorem rdropWhile_append_of_all (t : List α) (h : ∀ x ∈ v, p x = true) :
    (t ++ v).rdropWhile p = t.rdropWhile p := by
  rw [List.rdropWhile, List.rdropWhile, List.reverse_append,
    List.dropWhile_append_of_pos fun x hx => h x (List.mem_reverse.mp hx)]

theorem rdropWhile_of_last (h : ∀ x, t.getLast? = some x → p x = false) : t.rdropWhile p = t := by
  refine List.rdropWhile_eq_self_iff.mpr ?_
  intro hne
  rw [h _ (List.getLast?_eq_some_getLast hne)]
  simp

theorem dropWhile_of_head (h : ∀ x, t.head? = some x → p x = false) : t.dropWhile p = t := by
  cases t with
  | nil => rfl
  | cons x t => rw [List.dropWhile_cons_of_neg (by simp [h x rfl])]

theorem strip_of_all (h : ∀ x ∈ s, p x = true) : strip p s = [] := by
  rw [strip, List.rdropWhile_eq_nil_iff.mpr h, List.dropWhile_nil]

/-- The last element that is not in `p` is kept. -/
theorem getLast?_dropWhile (h : t.dropWhile p ≠ []) : (t.dropWhile p).getLast? = t.getLast? := by
  conv_rhs => rw [← List.takeWhile_append_dropWhile (p := p) (l := t)]
  rw [List.getLast?_append_of_ne_nil _ h]

theorem stripped_strip (s : List α) : Stripped p s (strip p s) where
  around := by
    refine ⟨(s.rdropWhile p).takeWhile p, s.rtakeWhile p, ?_, ?_, ?_⟩
    · rw [strip, List.takeWhile_append_dropWhile, List.rdropWhile_append_rtakeWhile]
    · exact fun x hx => List.mem_takeWhile_imp hx
    · exact fun x hx => List.mem_rtakeWhile_imp hx
  head x hx := by
    have hnot := List.head?_dropWhile_not p (s.rdropWhile p)
    rw [← strip, hx] at hnot
    simpa using hnot
  last x hx := by
    have hne : strip p s ≠ [] := by
      intro hnil
      rw [hnil] at hx
      cases hx
    rw [strip, getLast?_dropWhile hne] at hx
    have hr : s.rdropWhile p ≠ [] := by
      intro hnil
      rw [hnil] at hx
      cases hx
    have hlast := List.rdropWhile_last_not p s hr
    rw [List.getLast?_eq_some_getLast hr] at hx
    rw [Option.some.inj hx] at hlast
    simpa using hlast

theorem Stripped.eq (h : Stripped p s t) : t = strip p s := by
  obtain ⟨⟨u, v, rfl, hu, hv⟩, hhead, hlast⟩ := h
  rw [strip, rdropWhile_append_of_all _ hv]
  cases t with
  | nil =>
    rw [List.append_nil, List.rdropWhile_eq_nil_iff.mpr hu, List.dropWhile_nil]
  | cons x t =>
    have hkept : (u ++ x :: t).rdropWhile p = u ++ x :: t := by
      apply rdropWhile_of_last
      intro y hy
      rw [List.getLast?_append_of_ne_nil _ (List.cons_ne_nil x t)] at hy
      exact hlast y hy
    rw [hkept, List.dropWhile_append_of_pos hu, dropWhile_of_head hhead]

/-- What is said of one end is said of the other. -/
theorem Stripped.reverse (h : Stripped p s t) : Stripped p s.reverse t.reverse := by
  obtain ⟨⟨u, v, rfl, hu, hv⟩, hhead, hlast⟩ := h
  refine ⟨⟨v.reverse, u.reverse, ?_, ?_, ?_⟩, ?_, ?_⟩
  · rw [List.reverse_append, List.reverse_append, List.append_assoc]
  · exact fun x hx => hv x (List.mem_reverse.mp hx)
  · exact fun x hx => hu x (List.mem_reverse.mp hx)
  · rwa [List.head?_reverse]
  · rwa [List.getLast?_reverse]

/-- It makes no difference which end is dropped first. -/
theorem strip_comm (s : List α) : (s.dropWhile p).rdropWhile p = strip p s := by
  have hrev : (strip p s.reverse).reverse = (s.dropWhile p).rdropWhile p := by
    rw [strip, List.rdropWhile_reverse, List.rdropWhile]
  have hs := (stripped_strip (p := p) s.reverse).reverse
  rw [List.reverse_reverse, hrev] at hs
  exact hs.eq

theorem strip_strip (s : List α) : strip p (strip p s) = strip p s := by
  obtain ⟨-, hhead, hlast⟩ := stripped_strip (p := p) s
  exact (Stripped.eq ⟨⟨[], [], by simp, by simp, by simp⟩, hhead, hlast⟩).symm

/-- What is kept has an element that is not in `p`, and all of those are kept. -/
theorem mem_strip {x : α} (hx : x ∈ s) (hp : p x = false) : x ∈ strip p s := by
  obtain ⟨⟨u, v, hs, hu, hv⟩, -, -⟩ := stripped_strip (p := p) s
  rw [hs, List.append_assoc, List.mem_append, List.mem_append] at hx
  rcases hx with hx | hx | hx
  · rw [hu x hx] at hp
    cases hp
  · exact hx
  · rw [hv x hx] at hp
    cases hp

end Strip

namespace Pieces

variable {α : Type*} (sep : α → Bool)

/-- The pieces, the first of which begins with `cur`. -/
def pieces (cur : List α) : List α → List (List α)
  | [] => if cur.isEmpty then [] else [cur]
  | x :: s =>
    if sep x then (if cur.isEmpty then pieces [] s else cur :: pieces [] s)
    else pieces (cur ++ [x]) s

variable {sep} {cur s : List α} {x : α}

theorem pieces_sep (hx : sep x = true) (hcur : cur ≠ []) (s : List α) :
    pieces sep cur (x :: s) = cur :: pieces sep [] s := by
  rw [pieces, if_pos hx, if_neg (by simpa using hcur)]

/-- What is no separator goes to the piece at hand. -/
theorem pieces_append (h : ∀ x ∈ s, sep x = false) (cur rest : List α) :
    pieces sep cur (s ++ rest) = pieces sep (cur ++ s) rest := by
  induction s generalizing cur with
  | nil => rw [List.nil_append, List.append_nil]
  | cons x s ih =>
    have hx : ¬ sep x = true := by rw [h x List.mem_cons_self]; simp
    rw [List.cons_append, pieces, if_neg hx, ih (fun y hy => h y (List.mem_cons_of_mem x hy)),
      List.append_assoc]
    rfl

theorem pieces_intercalate (hx : sep x = true) : ∀ (l : List (List α)),
    (∀ s ∈ l, s ≠ [] ∧ ∀ y ∈ s, sep y = false) → pieces sep [] (List.intercalate [x] l) = l
  | [], _ => rfl
  | [s], h => by
    obtain ⟨hne, hclean⟩ := h s List.mem_cons_self
    rw [List.intercalate_singleton, ← List.append_nil s, pieces_append hclean, List.nil_append,
      pieces, if_neg (by simpa using hne), List.append_nil]
  | s :: s' :: l, h => by
    obtain ⟨hne, hclean⟩ := h s List.mem_cons_self
    have hrest := pieces_intercalate hx (s' :: l) fun y hy => h y (List.mem_cons_of_mem s hy)
    rw [List.intercalate_cons_cons, List.append_assoc, pieces_append hclean, List.nil_append,
      List.singleton_append, pieces_sep hx hne, hrest]

end Pieces
