import Vee.Delegate.Registry
import Vee.Lib.Pour

/- `operator+=` of another delegate (vee/delegate.h), in its two forms.

   Both walk the two containers of `rhs` and insert what they find into those of `*this`; they
   differ in what `insert` leaves of the callable it was given. A merge of two delegates returns
   and adds the counts up (`merges_apart`, `merges_holds`); registering one by one does the same
   or throws (`merge_registerEach_iff`). A merge of a delegate with itself comes to each entry
   it has just put in, since `std::multimap` puts it behind the one it came from
   (`merge_counts_iff`). -/
namespace Vee
open Keyed Loop

namespace Registry

variable {F G K : Type*}

/-- Both registrations of each function, and what is registered in one or else in the other. -/
def merge (r r' : Registry F G K) : Registry F G K :=
  { times := fun f => r.times f + r'.times f
    keyed := fun k => (r.keyed k).or (r'.keyed k) }

end Registry

namespace Delegate

variable {I F G K : Type*} [LinearOrder F] [LinearOrder K] [DecidableEq I]

/-- `_cont`, as a loop over it uses it. -/
def conts : Container (Multimap F (Callable F G)) F (Callable F G) where
  entries := Multimap.entries
  insert c k v := (c.insert k v, true)
  rank := Multimap.rank
  modify := Multimap.modify
  entries_put _ := Multimap.entries_insert _ _ _
  entries_kept h := Bool.noConfusion h
  entries_modify := rfl

/-- `_usrcont`, as a loop over it uses it. -/
def usrconts : Container (Map K (Callable F G)) K (Callable F G) where
  entries c := c.entries
  insert := Map.insert
  rank c := c.toMultimap.rank
  modify := Map.modify
  entries_put {c k v} h := by
    cases hfind : c.find k with
    | none =>
      rw [Map.insert_of_none hfind]
      exact Multimap.entries_insert _ _ _
    | some w =>
      rw [Map.insert_of_some hfind] at h
      cases h
  entries_kept {c k v} h := by
    cases hfind : c.find k with
    | none =>
      rw [Map.insert_of_none hfind] at h
      cases h
    | some w => rw [Map.insert_of_some hfind]
  entries_modify := rfl

/-- `operator+=` of the delegate `j` to the delegate `i` returns and leaves `s'`. -/
def Merges (left : Bool → Callable F G → Callable F G) (i j : I)
    (s s' : I → Delegate F G K) : Prop :=
  Ends (conts.pour left i j) (fun n => (s n).cont, 0) (fun n => (s' n).cont) ∧
    Ends (usrconts.pour left i j) (fun n => (s n).usrcont, 0) (fun n => (s' n).usrcont)

/-- The lvalue form copies a callable. -/
def copied (_ : Bool) (obj : Callable F G) : Callable F G := obj

/-- The calls of an operation one after another, up to one that throws. -/
def inTurn {D E : Type*} (act : D → E → D × Except DelegateError Unit) :
    D → List E → D × Except DelegateError Unit
  | d, [] => (d, .ok ())
  | d, e :: l =>
    match act d e with
    | (d, .ok ()) => inTurn act d l
    | (d, .error err) => (d, .error err)

/-- Each callable of another delegate, registered with `operator+=`. -/
def registerEach (d other : Delegate F G K) : Delegate F G K × Except DelegateError Unit :=
  match inTurn (fun d e => d.register e.2) d other.cont.entries with
  | (d, .ok ()) => inTurn (fun d e => d.registerPair e.1 e.2) d other.usrcont.entries
  | (d, .error err) => (d, .error err)

section
variable {left : Bool → Callable F G → Callable F G} {i j : I} {s s' s'' : I → Delegate F G K}
  {d d' : Delegate F G K}

theorem perm_insertAll (l : List (F × Callable F G)) (c : Multimap F (Callable F G)) :
    (conts.insertAll c l).entries.Perm (l ++ c.entries) := by
  induction l generalizing c with
  | nil => exact .refl _
  | cons e l ih =>
    have hrest : (conts.insertAll c (e :: l)).entries.Perm (l ++ (c.insert e.1 e.2).entries) :=
      ih (c.insert e.1 e.2)
    have hfirst := (c.perm_insert e.1 e.2).append_left l
    exact (hrest.trans hfirst).trans List.perm_middle

theorem count_insertAll (c c' : Multimap F (Callable F G)) (f : F) :
    (conts.insertAll c c'.entries).count f = c.count f + c'.count f := by
  unfold Multimap.count
  rw [(perm_insertAll c'.entries c).countP_eq, List.countP_append, Nat.add_comm]

omit [LinearOrder F] in
/-- A key that is there keeps its callback. -/
theorem find_insertAll (l : List (K × Callable F G)) (c : Map K (Callable F G)) (k : K) :
    (usrconts.insertAll c l).find k =
      (c.find k).or ((l.find? fun e => e.1 == k).map Prod.snd) := by
  induction l generalizing c with
  | nil => exact (Option.or_none).symm
  | cons e l ih =>
    refine (ih (c.insert e.1 e.2).1).trans ?_
    rw [List.find?_cons]
    cases hfind : c.find e.1 with
    | none =>
      rw [Map.find_insert hfind]
      by_cases hk : k = e.1
      · subst hk
        simp [hfind]
      · rw [if_neg hk, beq_false_of_ne (Ne.symm hk)]
    | some obj =>
      rw [Map.insert_of_some hfind]
      by_cases hk : k = e.1
      · subst hk
        simp [hfind]
      · rw [beq_false_of_ne (Ne.symm hk)]

theorem Merges.unique (h : Merges left i j s s') (h' : Merges left i j s s'') : s' = s'' := by
  funext n
  have hcont := congrFun (h.1.unique h'.1) n
  have husrcont := congrFun (h.2.unique h'.2) n
  calc s' n = ⟨(s' n).cont, (s' n).usrcont⟩ := rfl
    _ = ⟨(s'' n).cont, (s'' n).usrcont⟩ := by rw [hcont, husrcont]

/-- A merge of two delegates returns, with all callables inserted. -/
theorem merges_apart (hij : i ≠ j) (left : Bool → Callable F G → Callable F G)
    (s : I → Delegate F G K) : ∃ s', Merges left i j s s' ∧ s' i =
      { cont := conts.insertAll (s i).cont (s j).cont.entries
        usrcont := usrconts.insertAll (s i).usrcont (s j).usrcont.entries } := by
  obtain ⟨t, ht, hcont⟩ := conts.pour_apart left hij fun n => (s n).cont
  obtain ⟨u, hu, husrcont⟩ := usrconts.pour_apart left hij fun n => (s n).usrcont
  refine ⟨fun n => ⟨t n, u n⟩, ⟨ht, hu⟩, ?_⟩
  show (⟨t i, u i⟩ : Delegate F G K) = _
  rw [hcont, husrcont]
  rfl

/-- The merged delegate holds what the two registries say together. -/
theorem merges_holds (hij : i ≠ j) {r r' : Registry F G K} (hr : Holds (s i) r)
    (hr' : Holds (s j) r') (h : Merges left i j s s') : Holds (s' i) (r.merge r') := by
  obtain ⟨x, hx, hmerged⟩ := merges_apart hij left s
  rw [h.unique hx, hmerged]
  constructor
  case times =>
    intro f
    rw [count_insertAll, hr.times f, hr'.times f]
    rfl
  case keyed =>
    intro k
    rw [find_insertAll, hr.keyed k]
    exact congrArg _ (hr'.keyed k)
  case own =>
    intro e he
    rcases List.mem_append.mp ((perm_insertAll _ _).mem_iff.mp he) with he | he
    · exact hr'.own e he
    · exact hr.own e he

/-- A delegate with a plain function is merged with itself for ever. -/
theorem not_merges_self (h : (s i).cont.entries ≠ []) : ¬ Merges left i i s s' := by
  intro hall
  obtain ⟨hends, -⟩ := hall
  refine conts.not_pour_grows (t := fun n => (s n).cont) ?_ h hends
  intro c p e he
  exact ⟨rfl, Multimap.lt_rank he, List.findIdx_le_length⟩

theorem merges_self (h : (s i).cont.entries = []) : ∃ s', Merges left i i s s' ∧
    (s' i).cont = (s i).cont := by
  have hend : (conts.entries (s i).cont)[0]? = none := by
    show (s i).cont.entries[0]? = none
    rw [h]
    rfl
  obtain ⟨u, hu⟩ := usrconts.pour_kept left i (by
    intro c p e he
    have hmem : c.find e.1 = some e.2 := Map.find_eq_some.mpr (List.mem_of_getElem? he)
    show (c.insert e.1 e.2).2 = false
    rw [Map.insert_of_some hmem]) (fun n => (s n).usrcont) 0
  have hcont : Ends (conts.pour left i i) (fun n => (s n).cont, 0) (fun n => (s n).cont) :=
    (ends_done (conts.pour_end (t := fun n => (s n).cont) hend)).mpr rfl
  exact ⟨fun n => ⟨(s n).cont, u n⟩, ⟨hcont, hu⟩, rfl⟩

/-- The merge returns and each function is then registered as often as in both delegates. -/
theorem merge_counts_iff (left : Bool → Callable F G → Callable F G) (i j : I)
    (s : I → Delegate F G K) :
    (∃ s', Merges left i j s s' ∧
      ∀ f, (s' i).cont.count f = (s i).cont.count f + (s j).cont.count f) ↔
      i ≠ j ∨ (s i).cont.entries = [] := by
  constructor
  · intro hall
    obtain ⟨s', hs', -⟩ := hall
    by_contra hnot
    obtain ⟨hij, hne⟩ := not_or.mp hnot
    obtain rfl := not_not.mp hij
    exact not_merges_self hne hs'
  · intro h
    by_cases hij : i = j
    · subst hij
      have hempty := h.resolve_left (fun hne => hne rfl)
      obtain ⟨s', hs', hcont⟩ := merges_self hempty
      refine ⟨s', hs', ?_⟩
      intro f
      rw [hcont]
      unfold Multimap.count
      rw [hempty]
      rfl
    · obtain ⟨s', hs', hmerged⟩ := merges_apart hij left s
      refine ⟨s', hs', ?_⟩
      intro f
      rw [hmerged, count_insertAll]

/-- A delegate of one function, merged with itself. -/
theorem self_merge_never_ends : ¬ ∃ s', Merges copied () ()
    (fun _ => ((new : Delegate Nat Nat Int).register (.function 5)).1) s' := by
  intro hall
  obtain ⟨s', h⟩ := hall
  exact not_merges_self (by decide) h

/-- Functions under their own addresses are registered as `insert` puts them. -/
theorem register_inTurn (l : List (F × Callable F G)) (d : Delegate F G K)
    (hown : ∀ e ∈ l, e.2 = .function e.1) : inTurn (fun d e => d.register e.2) d l =
      ({ d with cont := conts.insertAll d.cont l }, .ok ()) := by
  induction l generalizing d with
  | nil => rfl
  | cons e l ih =>
    have hfirst : d.register e.2 = ({ d with cont := d.cont.insert e.1 e.2 }, .ok ()) := by
      rw [hown e List.mem_cons_self]
      rfl
    simp only [inTurn, hfirst]
    exact ih _ fun e' he' => hown e' (List.mem_cons_of_mem e he')

/-- The entry is a function under its own address. -/
def own (e : F × Callable F G) : Bool :=
  match e.2 with
  | .function f => f == e.1
  | .object _ => false

omit [LinearOrder K] [DecidableEq I] in
theorem own_iff {e : F × Callable F G} : own e = true ↔ e.2 = .function e.1 := by
  obtain ⟨key, f | g⟩ := e <;> simp [own]

/-- Whatever is registered without a throw is registered under its own address. -/
theorem countP_inTurn {l : List (F × Callable F G)} {d : Delegate F G K}
    (h : inTurn (fun d e => d.register e.2) d l = (d', .ok ())) :
    d'.cont.entries.countP own = l.length + d.cont.entries.countP own := by
  induction l generalizing d with
  | nil =>
    obtain rfl := congrArg Prod.fst h
    exact (Nat.zero_add _).symm
  | cons e l ih =>
    cases hobj : e.2 with
    | object g => simp [inTurn, register, genKey, hobj] at h
    | function f =>
      simp only [inTurn, register, genKey, hobj] at h
      rw [ih h, (d.cont.perm_insert f _).countP_eq, List.countP_cons,
        if_pos (own_iff.mpr rfl), List.length_cons]
      omega

/-- Pairs do not touch the functions. -/
theorem cont_inTurn (l : List (K × Callable F G)) (d : Delegate F G K) :
    (inTurn (fun d e => d.registerPair e.1 e.2) d l).1.cont = d.cont := by
  induction l generalizing d with
  | nil => rfl
  | cons e l ih =>
    cases hfind : d.usrcont.find e.1 with
    | some obj => simp only [inTurn, registerPair_taken hfind]
    | none =>
      simp only [inTurn, registerPair_new hfind]
      exact ih _

/-- Pairs of distinct keys that are not taken are registered as `insert` puts them. -/
theorem registerPair_inTurn (l : List (K × Callable F G)) (d : Delegate F G K)
    (hdistinct : (l.map Prod.fst).Nodup) (hnew : ∀ e ∈ l, d.usrcont.find e.1 = none) :
    inTurn (fun d e => d.registerPair e.1 e.2) d l =
      ({ d with usrcont := usrconts.insertAll d.usrcont l }, .ok ()) := by
  induction l generalizing d with
  | nil => rfl
  | cons e l ih =>
    obtain ⟨hnot, hdistinct⟩ := List.nodup_cons.mp hdistinct
    have hfree := hnew e List.mem_cons_self
    simp only [inTurn, registerPair_new hfree]
    refine ih _ hdistinct ?_
    intro e' he'
    have hne : e'.1 ≠ e.1 := fun heq => hnot (heq ▸ List.mem_map_of_mem he')
    show (d.usrcont.insert e.1 e.2).1.find e'.1 = none
    rw [Map.find_insert hfree, if_neg hne]
    exact hnew e' (List.mem_cons_of_mem e he')

/-- A key that is taken makes one of the calls throw. -/
theorem registerPair_inTurn_taken {l : List (K × Callable F G)} {d : Delegate F G K}
    (h : ∃ e ∈ l, d.usrcont.find e.1 ≠ none) :
    (inTurn (fun d e => d.registerPair e.1 e.2) d l).2 = .error .keyAlreadyExist := by
  induction l generalizing d with
  | nil =>
    obtain ⟨e, he, -⟩ := h
    cases he
  | cons e l ih =>
    cases hfind : d.usrcont.find e.1 with
    | some obj => simp only [inTurn, registerPair_taken hfind]
    | none =>
      simp only [inTurn, registerPair_new hfind]
      apply ih
      obtain ⟨e', he', htaken⟩ := h
      rcases List.mem_cons.mp he' with rfl | he'
      · exact absurd hfind htaken
      · refine ⟨e', he', ?_⟩
        show (d.usrcont.insert e.1 e.2).1.find e'.1 ≠ none
        rw [Map.find_insert hfind]
        split
        · exact Option.some_ne_none _
        · exact htaken

omit [LinearOrder F] in
/-- Two maps have no key in common. -/
theorem disjoint_iff {c c' : Map K (Callable F G)} :
    (∀ k, c.find k = none ∨ c'.find k = none) ↔ ∀ e ∈ c'.entries, c.find e.1 = none := by
  constructor
  · intro h e he
    refine (h e.1).resolve_right ?_
    rw [Map.find_eq_some.mpr he]
    exact Option.some_ne_none _
  · intro h k
    cases hfind : c'.find k with
    | none => exact .inr rfl
    | some obj => exact .inl (h (k, obj) (Map.find_eq_some.mp hfind))

/-- Registering one by one throws at a key that both have. -/
theorem registerEach_taken {other : Delegate F G K}
    (hown : ∀ e ∈ other.cont.entries, e.2 = .function e.1)
    (h : ∃ k, d.usrcont.find k ≠ none ∧ other.usrcont.find k ≠ none) :
    (d.registerEach other).2 = .error .keyAlreadyExist := by
  obtain ⟨k, htaken, hk⟩ := h
  obtain ⟨obj, hobj⟩ := Option.ne_none_iff_exists'.mp hk
  simp only [registerEach, register_inTurn _ d hown]
  exact registerPair_inTurn_taken ⟨(k, obj), Map.find_eq_some.mp hobj, htaken⟩

theorem registerEach_free {other : Delegate F G K}
    (hown : ∀ e ∈ other.cont.entries, e.2 = .function e.1)
    (h : ∀ k, d.usrcont.find k = none ∨ other.usrcont.find k = none) :
    d.registerEach other =
      ({ cont := conts.insertAll d.cont other.cont.entries
         usrcont := usrconts.insertAll d.usrcont other.usrcont.entries }, .ok ()) := by
  simp only [registerEach, register_inTurn _ d hown]
  exact registerPair_inTurn _ _ other.usrcont.nodup (disjoint_iff.mp h)

/-- What returns from registering one by one with the functions of a merge was given functions
under their own addresses. -/
theorem own_of_registerEach {other : Delegate F G K} (h : d.registerEach other = (d', .ok ()))
    (hcont : d'.cont = conts.insertAll d.cont other.cont.entries) :
    ∀ e ∈ other.cont.entries, e.2 = .function e.1 := by
  unfold registerEach at h
  split at h
  · rename_i d₁ hregister
    have hkept : d'.cont = d₁.cont := by
      rw [← cont_inTurn other.usrcont.entries d₁, h]
    -- as many own entries come in as entries
    have hcount := countP_inTurn hregister
    rw [← hkept, hcont, (perm_insertAll _ _).countP_eq, List.countP_append] at hcount
    have hall := List.countP_eq_length.mp (Nat.add_right_cancel hcount)
    exact fun e he => own_iff.mp (hall e he)
  · cases congrArg Prod.snd h

/-- The merge of another delegate does what registering its callables one by one does. -/
theorem merge_registerEach_iff (left : Bool → Callable F G → Callable F G) (hij : i ≠ j)
    (s : I → Delegate F G K) :
    (∃ s', Merges left i j s s' ∧ (s i).registerEach (s j) = (s' i, .ok ())) ↔
      (∀ e ∈ (s j).cont.entries, e.2 = .function e.1) ∧
        ∀ k, (s i).usrcont.find k = none ∨ (s j).usrcont.find k = none := by
  obtain ⟨x, hx, hmerged⟩ := merges_apart hij left s
  constructor
  · intro hall
    obtain ⟨s', hs', hok⟩ := hall
    rw [hs'.unique hx, hmerged] at hok
    have hown := own_of_registerEach hok rfl
    refine ⟨hown, ?_⟩
    by_contra hshared
    simp only [not_forall, not_or] at hshared
    cases (registerEach_taken hown hshared).symm.trans (congrArg Prod.snd hok)
  · intro hall
    obtain ⟨hown, hfree⟩ := hall
    exact ⟨x, hx, by rw [registerEach_free hown hfree, hmerged]⟩

/-- A delegate of one function and one pair. -/
def pairOf (f : Nat) (key : Int) (g : Nat) : Delegate Nat Nat Int :=
  { cont := Multimap.empty.insert f (.function f)
    usrcont := (Map.empty.insert key (.object g)).1 }

/-- Two delegates with no key in common. -/
theorem merge_registerEach_iff_disjoint :
    ∃ s', Merges copied false true (fun n => if n then pairOf 5 2 20 else pairOf 5 1 10) s' ∧
      (pairOf 5 1 10).registerEach (pairOf 5 2 20) = (s' false, .ok ()) :=
  (merge_registerEach_iff copied (by decide) _).mpr
    ⟨by decide, disjoint_iff.mpr (by decide)⟩

/-- Two delegates with a key in common: the merge returns without the second callback. -/
theorem callback_dropped :
    (∃ s', Merges copied false true (fun n => if n then pairOf 5 1 20 else pairOf 5 1 10) s' ∧
      (s' false).usrcont.find 1 = some (.object 10)) ∧
      ((pairOf 5 1 10).registerEach (pairOf 5 1 20)).2 = .error .keyAlreadyExist := by
  constructor
  · obtain ⟨s', hs', hmerged⟩ := merges_apart (by decide : false ≠ true) copied
      fun n => if n then pairOf 5 1 20 else pairOf 5 1 10
    refine ⟨s', hs', ?_⟩
    rw [hmerged, find_insertAll]
    rfl
  · exact registerEach_taken (by decide) ⟨1, by decide, by decide⟩

end

end Delegate

end Vee
