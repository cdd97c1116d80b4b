import Vee.Delegate.Shared
import Vee.Lib.Traversal

/- `operator()` of a `vee::delegate` whose callbacks change the delegate.

   The lock a delegate has by default, `empty_lock`, keeps nobody out, a callback least of all.
   An entry is a node here, with a number of its own, so that the loops of `operator()` stand
   at a node while its callback is under way: nodes put in and taken out elsewhere do not
   concern them, and where the node itself has been taken out their iterator is no longer
   valid, which sets `wild`. A callback may invoke the delegate in turn; what that comes to for
   the call is what the callbacks of the inner one change. -/
namespace Vee
open Keyed Transition Traversal

namespace Delegate

variable {F G K : Type*} [LinearOrder F] [LinearOrder K]

/-- The containers of a delegate with their nodes, and how many of these have been made. -/
structure Nodes (F G K : Type*) [LinearOrder F] [LinearOrder K] where
  cont : Multimap F (Nat × Callable F G)
  usrcont : Map K (Nat × Callable F G)
  made : Nat

namespace Nodes

def new : Nodes F G K := { cont := .empty, usrcont := .empty, made := 0 }

/-- The delegate, without the numbers. -/
def forget (d : Nodes F G K) : Delegate F G K :=
  { cont := d.cont.map Prod.snd, usrcont := d.usrcont.map Prod.snd }

/-- What a change does and throws. -/
def change (d : Nodes F G K) : Change F G K → Nodes F G K × Except DelegateError Unit
  | .register obj =>
    match genKey obj with
    | .error e => (d, .error e)
    | .ok key => ({ d with cont := d.cont.insert key (d.made, obj), made := d.made + 1 }, .ok ())
  | .registerPair first second =>
    match d.usrcont.insert first (d.made, second) with
    | (usrcont, false) => ({ d with usrcont := usrcont }, .error .keyAlreadyExist)
    | (usrcont, true) => ({ d with usrcont := usrcont, made := d.made + 1 }, .ok ())
  | .remove obj =>
    match genKey obj with
    | .error e => (d, .error e)
    | .ok key =>
      match d.cont.find key with
      | none => (d, .error .targetNotFound)
      | some _ => ({ d with cont := d.cont.erase key }, .ok ())
  | .removeKey key =>
    match d.usrcont.find key with
    | none => (d, .error .targetNotFound)
    | some _ => ({ d with usrcont := d.usrcont.erase key }, .ok ())
  | .clear => ({ d with cont := .empty, usrcont := .empty }, .ok ())

/-- The number of an entry. -/
def idOf {A : Type*} (e : A × Nat × Callable F G) : Nat := e.2.1

def contIds (d : Nodes F G K) : List Nat := d.cont.entries.map idOf

def usrIds (d : Nodes F G K) : List Nat := d.usrcont.entries.map idOf

/-- The nodes in the order in which the two loops come to them. -/
def ids (d : Nodes F G K) : List Nat := d.contIds ++ d.usrIds

end Nodes

/-- Where `operator()` is: not invoked or returned, at a node of one of the containers while the
callback is under way, or left by an exception. -/
inductive Place where
  | idle
  | cont (it : Nat)
  | usrcont (it : Nat)
  | left
  deriving DecidableEq, Repr

/-- A delegate and a call of it: the nodes there were when the call began and those whose
callbacks it has invoked. -/
structure Calling (F G K : Type*) [LinearOrder F] [LinearOrder K] where
  nodes : Nodes F G K
  place : Place
  started : List Nat
  invoked : List (Nat × Callable F G)
  wild : Bool

/-- A change, made by the callback or while no call is under way; a call; the return of a
callback, and an exception out of it. -/
inductive Happening (F G K : Type*) where
  | change (c : Change F G K)
  | invoke
  | returns
  | throws
  deriving DecidableEq

namespace Calling

def init : Calling F G K :=
  { nodes := .new, place := .idle, started := [], invoked := [], wild := false }

/-- The loop over `_usrcont` comes to an entry or to its end. -/
def comeToUsr (x : Calling F G K) : Option (K × Nat × Callable F G) → Calling F G K
  | some e => { x with place := .usrcont e.2.1, invoked := x.invoked ++ [e.2] }
  | none => { x with place := .idle }

/-- The loop over `_cont` comes to an entry or to its end, where the other loop begins. -/
def comeToCont (x : Calling F G K) : Option (F × Nat × Callable F G) → Calling F G K
  | some e => { x with place := .cont e.2.1, invoked := x.invoked ++ [e.2] }
  | none => x.comeToUsr x.nodes.usrcont.entries.head?

/-- A call is made. -/
def invoke (x : Calling F G K) : Calling F G K :=
  { x with started := x.nodes.ids, invoked := [] }.comeToCont x.nodes.cont.entries.head?

/-- A callback returns: the loop goes on behind the node it stands at. -/
def goOn (x : Calling F G K) : Option (Calling F G K) :=
  match x.place with
  | .cont it =>
    some (if it ∈ x.nodes.contIds then x.comeToCont (after Nodes.idOf it x.nodes.cont.entries)
      else { x with place := .left, wild := true })
  | .usrcont it =>
    some (if it ∈ x.nodes.usrIds then x.comeToUsr (after Nodes.idOf it x.nodes.usrcont.entries)
      else { x with place := .left, wild := true })
  | .idle | .left => none

def step (x : Calling F G K) : Happening F G K → Option (Calling F G K)
  | .change c => some { x with nodes := (x.nodes.change c).1 }
  | .invoke =>
    match x.place with
    | .idle | .left => some x.invoke
    | .cont _ | .usrcont _ => none
  | .returns => x.goOn
  | .throws =>
    match x.place with
    | .cont _ | .usrcont _ => some { x with place := .left }
    | .idle | .left => none

end Calling

/-! ## What a change does to the nodes -/

section
variable {d : Nodes F G K}

theorem find_forget_cont (d : Nodes F G K) (f : F) :
    d.forget.cont.find f = (d.cont.find f).map Prod.snd := Multimap.find_map Prod.snd

theorem find_forget_usrcont (d : Nodes F G K) (k : K) :
    d.forget.usrcont.find k = (d.usrcont.find k).map Prod.snd := Multimap.find_map Prod.snd

/-- Without their numbers, the nodes are those of the delegate. -/
theorem forget_change (d : Nodes F G K) (c : Change F G K) :
    (d.change c).1.forget = (step (fun _ => d.forget) c.op).1 () ∧
      (d.change c).2 = (step (fun _ => d.forget) c.op).2 := by
  cases c with
  | register obj =>
    cases obj with
    | function f => exact ⟨congrArg (Delegate.mk · _) (Multimap.map_insert Prod.snd), rfl⟩
    | object g => exact ⟨rfl, rfl⟩
  | registerPair first second =>
    cases hk : d.usrcont.find first with
    | none =>
      have hfind : d.forget.usrcont.find first = none := by rw [find_forget_usrcont, hk]; rfl
      have hinsert : d.forget.usrcont.insert first second =
          ((d.usrcont.insert first (d.made, second)).1.map Prod.snd, _) :=
        Map.map_insert (v := (d.made, second)) Prod.snd
      simp only [Nodes.change, Change.op, step, registerPair_new hfind, Map.insert_of_none hk]
      rw [hinsert, Map.insert_of_none hk]
      exact ⟨rfl, rfl⟩
    | some old =>
      have hfind : d.forget.usrcont.find first = some old.2 := by
        rw [find_forget_usrcont, hk]
        rfl
      simp only [Nodes.change, Change.op, step, registerPair_taken hfind, Map.insert_of_some hk]
      exact ⟨rfl, rfl⟩
  | remove obj =>
    cases obj with
    | object g => exact ⟨rfl, rfl⟩
    | function f =>
      cases hf : d.cont.find f with
      | none =>
        have hfind : d.forget.cont.find f = none := by rw [find_forget_cont, hf]; rfl
        simp only [Nodes.change, genKey, Change.op, step, remove_missing hfind, hf]
        exact ⟨rfl, rfl⟩
      | some old =>
        have hfind : d.forget.cont.find f = some old.2 := by
          rw [find_forget_cont, hf]
          rfl
        simp only [Nodes.change, genKey, Change.op, step, remove_found hfind, hf]
        exact ⟨congrArg (Delegate.mk · _) (Multimap.map_erase Prod.snd), rfl⟩
  | removeKey key =>
    cases hk : d.usrcont.find key with
    | none =>
      have hfind : d.forget.usrcont.find key = none := by rw [find_forget_usrcont, hk]; rfl
      simp only [Nodes.change, Change.op, step, removeKey_missing hfind, hk]
      exact ⟨rfl, rfl⟩
    | some old =>
      have hfind : d.forget.usrcont.find key = some old.2 := by
        rw [find_forget_usrcont, hk]
        rfl
      simp only [Nodes.change, Change.op, step, removeKey_found hfind, hk]
      exact ⟨congrArg (Delegate.mk _) (Map.map_erase Prod.snd), rfl⟩
  | clear => exact ⟨rfl, rfl⟩

/-- How a change leaves the numbers: some taken out, or a new one put in. -/
inductive Renumbered (d d' : Nodes F G K) : Prop where
  | fewer (hcont : d'.contIds.Sublist d.contIds) (husr : d'.usrIds.Sublist d.usrIds)
      (hmade : d'.made = d.made)
  | inCont (hperm : d'.contIds.Perm (d.made :: d.contIds))
      (herase : d.made ∉ d.contIds → d'.contIds.erase d.made = d.contIds)
      (husr : d'.usrIds = d.usrIds) (hmade : d'.made = d.made + 1)
  | inUsrcont (hcont : d'.contIds = d.contIds) (hperm : d'.usrIds.Perm (d.made :: d.usrIds))
      (herase : d.made ∉ d.usrIds → d'.usrIds.erase d.made = d.usrIds)
      (hmade : d'.made = d.made + 1)

theorem renumbered_change (d : Nodes F G K) (c : Change F G K) :
    Renumbered d (d.change c).1 := by
  have hsame : Renumbered d d := .fewer (.refl _) (.refl _) rfl
  cases c with
  | register obj =>
    cases obj with
    | object g => exact hsame
    | function f =>
      have herase := Multimap.erase_map_insert (m := d.cont) (k := f)
        (v := (d.made, Callable.function f)) Nodes.idOf
      exact .inCont ((d.cont.perm_insert f (d.made, _)).map Nodes.idOf) herase rfl rfl
  | registerPair first second =>
    cases hk : d.usrcont.find first with
    | some old =>
      simp only [Nodes.change, Map.insert_of_some hk]
      exact hsame
    | none =>
      have herase := Multimap.erase_map_insert (m := d.usrcont.toMultimap) (k := first)
        (v := (d.made, second)) Nodes.idOf
      simp only [Nodes.change, Map.insert_of_none hk]
      exact .inUsrcont rfl ((d.usrcont.perm_insert first (d.made, second)).map Nodes.idOf) herase
        rfl
  | remove obj =>
    cases obj with
    | object g => exact hsame
    | function f =>
      cases hf : d.cont.find f with
      | none =>
        simp only [Nodes.change, genKey, hf]
        exact hsame
      | some old =>
        simp only [Nodes.change, genKey, hf]
        exact .fewer (List.eraseP_sublist.map _) (.refl _) rfl
  | removeKey key =>
    cases hk : d.usrcont.find key with
    | none =>
      simp only [Nodes.change, hk]
      exact hsame
    | some old =>
      simp only [Nodes.change, hk]
      exact .fewer (.refl _) (List.eraseP_sublist.map _) rfl
  | clear => exact .fewer (List.nil_sublist _) (List.nil_sublist _) rfl

variable {d' : Nodes F G K}

/-- The numbers of both containers are fewer, or one that is new is put in. -/
theorem Renumbered.ids (h : Renumbered d d') (hnew : d.made ∉ d.ids) :
    d'.ids.Sublist d.ids ∧ d'.made = d.made ∨
      d'.ids.Perm (d.made :: d.ids) ∧ d'.ids.erase d.made = d.ids ∧ d'.made = d.made + 1 := by
  obtain ⟨hcont, husr⟩ := not_or.mp (mt List.mem_append.mpr hnew)
  cases h with
  | fewer hcont husr hmade => exact .inl ⟨hcont.append husr, hmade⟩
  | inCont hperm herase husr hmade =>
    refine .inr ⟨?_, ?_, hmade⟩
    · rw [Nodes.ids, husr]
      exact hperm.append_right _
    · have hmem : d.made ∈ d'.contIds := hperm.mem_iff.mpr List.mem_cons_self
      rw [Nodes.ids, List.erase_append_left _ hmem, herase hcont, husr]
      rfl
  | inUsrcont hsame hperm herase hmade =>
    refine .inr ⟨?_, ?_, hmade⟩
    · rw [Nodes.ids, hsame]
      exact (hperm.append_left _).trans List.perm_middle
    · rw [Nodes.ids, hsame, List.erase_append_right _ hcont, herase husr]
      rfl

/-- No number but the new one comes into a container. -/
theorem Renumbered.not_mem (h : Renumbered d d') {n : Nat} (hn : n < d.made) :
    (n ∉ d.contIds → n ∉ d'.contIds) ∧ (n ∉ d.usrIds → n ∉ d'.usrIds) := by
  have hne : n ≠ d.made := Nat.ne_of_lt hn
  cases h with
  | fewer hcont husr hmade =>
    exact ⟨mt fun hin => hcont.subset hin, mt fun hin => husr.subset hin⟩
  | inCont hperm herase husr hmade =>
    refine ⟨?_, by rw [husr]; exact id⟩
    rw [hperm.mem_iff, List.mem_cons]
    exact fun hnot hin => hnot (hin.resolve_left hne)
  | inUsrcont hsame hperm herase hmade =>
    refine ⟨by rw [hsame]; exact id, ?_⟩
    rw [hperm.mem_iff, List.mem_cons]
    exact fun hnot hin => hnot (hin.resolve_left hne)

/-! ## The two loops as one -/

/-- The nodes in the order in which the loops come to them. -/
def Nodes.all (d : Nodes F G K) : List (Nat × Callable F G) :=
  d.cont.entries.map Prod.snd ++ d.usrcont.entries.map Prod.snd

theorem ids_eq (d : Nodes F G K) : d.ids = d.all.map Prod.fst := by
  rw [Nodes.all, List.map_append, List.map_map, List.map_map]
  rfl

/-- What comes behind a node of `_cont`. -/
theorem after_cont {it : Nat} (h : it ∈ d.contIds) : (after Prod.fst it d.all).map Prod.fst =
    ((after Nodes.idOf it d.cont.entries).map Nodes.idOf).or d.usrIds.head? := by
  have hmem : it ∈ (d.cont.entries.map Prod.snd).map Prod.fst := by
    rw [List.map_map]
    exact h
  rw [Nodes.all, after_append_left hmem, Option.map_or, after_map, Option.map_map, List.head?_map,
    Option.map_map, Nodes.usrIds, List.head?_map]
  rfl

/-- What comes behind a node of `_usrcont`. -/
theorem after_usrcont {it : Nat} (h : it ∉ d.contIds) : (after Prod.fst it d.all).map Prod.fst =
    (after Nodes.idOf it d.usrcont.entries).map Nodes.idOf := by
  have hmem : it ∉ (d.cont.entries.map Prod.snd).map Prod.fst := by
    rw [List.map_map]
    exact h
  rw [Nodes.all, after_append_right hmem, after_map, Option.map_map]
  rfl

omit [LinearOrder F] in
theorem mem_of_after {A : Type*} {l : List (A × Nat × Callable F G)} {it : Nat}
    {e : A × Nat × Callable F G} (h : e ∈ after Nodes.idOf it l) : e ∈ l :=
  (List.dropWhile_suffix _).subset (List.mem_of_mem_tail (List.mem_of_mem_head? h))

end

/-- The node the call stands at. -/
def Place.current : Place → Option Nat
  | cont it | usrcont it => some it
  | idle | left => none

/-- The nodes are distinct, and those that a call concerns have been made. -/
structure Calling.Numbered (x : Calling F G K) : Prop where
  nodup : x.nodes.ids.Nodup
  ids : ∀ n ∈ x.nodes.ids, n < x.nodes.made
  invoked : ∀ n ∈ x.invoked.map Prod.fst, n < x.nodes.made
  started : ∀ n ∈ x.started, n < x.nodes.made

/-- The two loops are one over all nodes, and stand at a node of the container that they are
in. -/
structure Calling.Sound (x : Calling F G K) : Prop where
  numbered : x.Numbered
  once : (x.invoked.map Prod.fst).Nodup
  walks : x.place ≠ .left → Walks x.started x.nodes.ids (x.invoked.map Prod.fst) x.place.current
  inCont : ∀ it, x.place = .cont it → it ∉ x.nodes.usrIds
  inUsrcont : ∀ it, x.place = .usrcont it → it ∉ x.nodes.contIds

section
variable {x x' : Calling F G K}

theorem sound_init : (Calling.init : Calling F G K).Sound where
  numbered := ⟨List.nodup_nil, by simp [Calling.init, Nodes.new, Nodes.ids, Nodes.contIds,
    Nodes.usrIds, Multimap.empty, Map.empty], by simp [Calling.init], by simp [Calling.init]⟩
  once := List.nodup_nil
  walks _ := Walks.start List.nodup_nil
  inCont it h := by cases h
  inUsrcont it h := by cases h

/-- The loop over `_usrcont` comes to its next entry. -/
theorem comeToUsr_sound (h : x.Numbered) {e : Option (K × Nat × Callable F G)}
    (he : ∀ y ∈ e, y ∈ x.nodes.usrcont.entries)
    (hwalks : Walks x.started x.nodes.ids
      (x.invoked.map Prod.fst ++ (e.map Nodes.idOf).toList) (e.map Nodes.idOf)) :
    (x.comeToUsr e).Sound := by
  cases e with
  | none =>
    rw [Option.map_none, Option.toList_none, List.append_nil] at hwalks
    constructor
    case numbered => exact ⟨h.nodup, h.ids, h.invoked, h.started⟩
    case once => exact hwalks.once
    case walks => exact fun _ => hwalks
    case inCont =>
      intro it hit
      cases hit
    case inUsrcont =>
      intro it hit
      cases hit
  | some e =>
    have hmem : Nodes.idOf e ∈ x.nodes.usrIds := List.mem_map_of_mem (he e rfl)
    have hall : Nodes.idOf e ∈ x.nodes.ids := List.mem_append_right _ hmem
    have hvisited : (x.comeToUsr (some e)).invoked.map Prod.fst =
        x.invoked.map Prod.fst ++ [Nodes.idOf e] := List.map_append
    constructor
    case numbered =>
      refine ⟨h.nodup, h.ids, ?_, h.started⟩
      intro n hn
      rw [hvisited] at hn
      rcases List.mem_append.mp hn with hn | hn
      · exact h.invoked n hn
      · exact List.mem_singleton.mp hn ▸ h.ids _ hall
    case once => exact hvisited ▸ hwalks.once
    case walks => exact fun _ => hvisited ▸ hwalks
    case inCont =>
      intro it hit
      cases hit
    case inUsrcont =>
      intro it hit
      obtain rfl := Place.usrcont.inj hit
      intro hin
      exact (List.nodup_append.mp h.nodup).2.2 _ hin _ hmem rfl

/-- The loop over `_cont` comes to its next entry, or the other one begins. -/
theorem comeToCont_sound (h : x.Numbered) {e : Option (F × Nat × Callable F G)}
    (he : ∀ y ∈ e, y ∈ x.nodes.cont.entries)
    (hwalks : Walks x.started x.nodes.ids
      (x.invoked.map Prod.fst ++ ((e.map Nodes.idOf).or x.nodes.usrIds.head?).toList)
      ((e.map Nodes.idOf).or x.nodes.usrIds.head?)) :
    (x.comeToCont e).Sound := by
  cases e with
  | none =>
    rw [Option.map_none, Option.none_or, Nodes.usrIds, List.head?_map] at hwalks
    exact comeToUsr_sound h (fun _ hy => List.mem_of_mem_head? hy) hwalks
  | some e =>
    have hmem : Nodes.idOf e ∈ x.nodes.contIds := List.mem_map_of_mem (he e rfl)
    have hall : Nodes.idOf e ∈ x.nodes.ids := List.mem_append_left _ hmem
    have hvisited : (x.comeToCont (some e)).invoked.map Prod.fst =
        x.invoked.map Prod.fst ++ [Nodes.idOf e] := List.map_append
    constructor
    case numbered =>
      refine ⟨h.nodup, h.ids, ?_, h.started⟩
      intro n hn
      rw [hvisited] at hn
      rcases List.mem_append.mp hn with hn | hn
      · exact h.invoked n hn
      · exact List.mem_singleton.mp hn ▸ h.ids _ hall
    case once => exact hvisited ▸ hwalks.once
    case walks => exact fun _ => hvisited ▸ hwalks
    case inCont =>
      intro it hit
      obtain rfl := Place.cont.inj hit
      intro hin
      exact (List.nodup_append.mp h.nodup).2.2 _ hmem _ hin rfl
    case inUsrcont =>
      intro it hit
      cases hit

theorem Calling.Sound.invoke (h : x.Sound) : x.invoke.Sound := by
  have hstart := Walks.start h.numbered.nodup
  have hnumbered : Calling.Numbered { x with started := x.nodes.ids, invoked := [] } :=
    ⟨h.numbered.nodup, h.numbered.ids, by simp, h.numbered.ids⟩
  refine comeToCont_sound hnumbered (fun _ hy => List.mem_of_mem_head? hy) ?_
  have hhead : (x.nodes.cont.entries.head?.map Nodes.idOf).or x.nodes.usrIds.head? =
      x.nodes.ids.head? := by
    rw [Nodes.ids, List.head?_append, Nodes.contIds, List.head?_map]
  show Walks x.nodes.ids x.nodes.ids ([] ++ Option.toList _) _
  rw [hhead]
  exact hstart

/-- The node that the loop stands at has been invoked, so it has been made. -/
theorem Calling.Sound.current_lt (h : x.Sound) {it : Nat} (hit : x.place.current = some it) :
    it < x.nodes.made := by
  have hne : x.place ≠ .left := by
    intro heq
    rw [heq] at hit
    cases hit
  exact h.numbered.invoked it ((h.walks hne).reached it hit)

theorem Calling.Sound.change (h : x.Sound) (c : Change F G K) :
    Calling.Sound { x with nodes := (x.nodes.change c).1 } := by
  have hre := renumbered_change x.nodes c
  generalize (x.nodes.change c).1 = d' at hre
  have hnew : x.nodes.made ∉ x.nodes.ids := fun hin => Nat.lt_irrefl _ (h.numbered.ids _ hin)
  have hinvoked : x.nodes.made ∉ x.invoked.map Prod.fst :=
    fun hin => Nat.lt_irrefl _ (h.numbered.invoked _ hin)
  have hstarted : x.nodes.made ∉ x.started :=
    fun hin => Nat.lt_irrefl _ (h.numbered.started _ hin)
  have hplace : (∀ it, x.place = .cont it → it ∉ d'.usrIds) ∧
      ∀ it, x.place = .usrcont it → it ∉ d'.contIds := by
    constructor
    · intro it hit
      exact (hre.not_mem (h.current_lt (by rw [hit]; rfl))).2 (h.inCont it hit)
    · intro it hit
      exact (hre.not_mem (h.current_lt (by rw [hit]; rfl))).1 (h.inUsrcont it hit)
  rcases hre.ids hnew with ⟨hsub, hmade⟩ | ⟨hperm, herase, hmade⟩
  · refine ⟨⟨h.numbered.nodup.sublist hsub, ?_, ?_, ?_⟩, h.once,
      fun hleft => (h.walks hleft).remove hsub, hplace.1, hplace.2⟩
    · intro n hn
      exact hmade ▸ h.numbered.ids n (hsub.subset hn)
    · exact fun n hn => hmade ▸ h.numbered.invoked n hn
    · exact fun n hn => hmade ▸ h.numbered.started n hn
  · have hnodup : d'.ids.Nodup :=
      hperm.nodup_iff.mpr (List.nodup_cons.mpr ⟨hnew, h.numbered.nodup⟩)
    have hlater : ∀ n, n < x.nodes.made → n < d'.made := by
      intro n hn
      omega
    refine ⟨⟨hnodup, ?_, fun n hn => hlater n (h.numbered.invoked n hn),
      fun n hn => hlater n (h.numbered.started n hn)⟩, h.once,
      fun hleft => (h.walks hleft).insert hnodup herase hinvoked hstarted, hplace.1, hplace.2⟩
    intro n hn
    rcases List.mem_cons.mp (hperm.mem_iff.mp hn) with rfl | hn
    · show x.nodes.made < d'.made
      omega
    · exact hlater n (h.numbered.ids n hn)

theorem Calling.Sound.leave (h : x.Sound) (wild : Bool) :
    Calling.Sound { x with place := .left, wild := wild } where
  numbered :=
    ⟨h.numbered.nodup, h.numbered.ids, h.numbered.invoked, h.numbered.started⟩
  once := h.once
  walks hne := absurd rfl hne
  inCont it hit := by cases hit
  inUsrcont it hit := by cases hit

theorem Calling.Sound.goOn (h : x.Sound) (hs : x.goOn = some x') : x'.Sound := by
  simp only [Calling.goOn] at hs
  cases hplace : x.place with
  | idle =>
    rw [hplace] at hs
    cases hs
  | left =>
    rw [hplace] at hs
    cases hs
  | cont it =>
    rw [hplace] at hs
    obtain rfl := Option.some.inj hs
    by_cases hit : it ∈ x.nodes.contIds
    · rw [if_pos hit]
      have hwalks : Walks x.started x.nodes.ids (x.invoked.map Prod.fst) (some it) := by
        have hall := h.walks (by simp [hplace])
        rwa [hplace] at hall
      have hin : it ∈ x.nodes.ids := List.mem_append_left _ hit
      rw [ids_eq] at hwalks hin
      have hnext := hwalks.advance hin
      rw [after_cont hit, ← ids_eq] at hnext
      exact comeToCont_sound h.numbered (fun _ hy => mem_of_after hy) hnext
    · rw [if_neg hit]
      exact h.leave true
  | usrcont it =>
    rw [hplace] at hs
    obtain rfl := Option.some.inj hs
    by_cases hit : it ∈ x.nodes.usrIds
    · rw [if_pos hit]
      have hwalks : Walks x.started x.nodes.ids (x.invoked.map Prod.fst) (some it) := by
        have hall := h.walks (by simp [hplace])
        rwa [hplace] at hall
      have hin : it ∈ x.nodes.ids := List.mem_append_right _ hit
      rw [ids_eq] at hwalks hin
      have hnext := hwalks.advance hin
      rw [after_usrcont (h.inUsrcont it hplace), ← ids_eq] at hnext
      exact comeToUsr_sound h.numbered (fun _ hy => mem_of_after hy) hnext
    · rw [if_neg hit]
      exact h.leave true

theorem Calling.Sound.step (h : x.Sound) {a : Happening F G K} (hs : x.step a = some x') :
    x'.Sound := by
  cases a with
  | change c =>
    obtain rfl := Option.some.inj hs
    exact h.change c
  | invoke =>
    simp only [Calling.step] at hs
    split at hs
    · obtain rfl := Option.some.inj hs
      exact h.invoke
    · obtain rfl := Option.some.inj hs
      exact h.invoke
    · cases hs
    · cases hs
  | returns => exact h.goOn hs
  | throws =>
    simp only [Calling.step] at hs
    split at hs
    · obtain rfl := Option.some.inj hs
      exact h.leave x.wild
    · obtain rfl := Option.some.inj hs
      exact h.leave x.wild
    · cases hs
    · cases hs

theorem sound_run {tr : List (Calling F G K × Happening F G K)}
    (h : Run Calling.step Calling.init tr x) : x.Sound :=
  h.invariant (C := fun _ _ => True) sound_init (fun _ _ _ hx _ hs => hx.step hs)
    (fun _ _ => trivial)

/-! ## The delegate that is changed -/

/-- What has been done to the delegate. -/
def changes (tr : List (Calling F G K × Happening F G K)) : List (Op Unit F G K) :=
  tr.filterMap fun p => match p.2 with
    | .change c => some c.op
    | _ => none

theorem comeToUsr_nodes (x : Calling F G K) (e : Option (K × Nat × Callable F G)) :
    (x.comeToUsr e).nodes = x.nodes ∧ (x.comeToUsr e).wild = x.wild := by
  cases e with
  | none => exact ⟨rfl, rfl⟩
  | some e => exact ⟨rfl, rfl⟩

theorem comeToCont_nodes (x : Calling F G K) (e : Option (F × Nat × Callable F G)) :
    (x.comeToCont e).nodes = x.nodes ∧ (x.comeToCont e).wild = x.wild := by
  cases e with
  | none => exact comeToUsr_nodes x _
  | some e => exact ⟨rfl, rfl⟩

/-- Only a change changes the nodes. -/
theorem step_nodes {a : Happening F G K} (hs : x.step a = some x') :
    x'.nodes = match a with
      | .change c => (x.nodes.change c).1
      | _ => x.nodes := by
  cases a with
  | change c =>
    obtain rfl := Option.some.inj hs
    rfl
  | invoke =>
    simp only [Calling.step] at hs
    split at hs
    · obtain rfl := Option.some.inj hs
      exact (comeToCont_nodes _ _).1
    · obtain rfl := Option.some.inj hs
      exact (comeToCont_nodes _ _).1
    · cases hs
    · cases hs
  | returns =>
    simp only [Calling.step, Calling.goOn] at hs
    split at hs
    · obtain rfl := Option.some.inj hs
      split
      · exact (comeToCont_nodes _ _).1
      · rfl
    · obtain rfl := Option.some.inj hs
      split
      · exact (comeToUsr_nodes _ _).1
      · rfl
    · cases hs
    · cases hs
  | throws =>
    simp only [Calling.step] at hs
    split at hs
    · obtain rfl := Option.some.inj hs
      rfl
    · obtain rfl := Option.some.inj hs
      rfl
    · cases hs
    · cases hs

theorem forget_run {tr : List (Calling F G K × Happening F G K)}
    (h : Run Calling.step Calling.init tr x) :
    x.nodes.forget = (Machine.run step (fun _ => new) (changes tr)).1 () := by
  induction h with
  | nil => rfl
  | @snoc tr x x' a hrun hs ih =>
    rw [step_nodes hs, changes, List.filterMap_append, Machine.run_append]
    cases a with
    | change c =>
      show (x.nodes.change c).1.forget = (step _ c.op).1 ()
      rw [(forget_change x.nodes c).1, ih]
      rfl
    | invoke | returns | throws => exact ih

/-! ## The iterators -/

/-- A change leaves in place the node whose callback makes it. -/
def Calling.Keeps (x : Calling F G K) : Happening F G K → Prop
  | .change c => ∀ it ∈ x.place.current, it ∈ (x.nodes.change c).1.ids
  | _ => True

/-- The node that the loop stands at is there. -/
def Calling.Stands (x : Calling F G K) : Prop :=
  x.wild = false ∧ ∀ it ∈ x.place.current, it ∈ x.nodes.ids

theorem comeToUsr_stands (h : x.wild = false) {e : Option (K × Nat × Callable F G)}
    (he : ∀ y ∈ e, y ∈ x.nodes.usrcont.entries) : (x.comeToUsr e).Stands := by
  cases e with
  | none => exact ⟨h, fun it hit => by cases hit⟩
  | some e =>
    refine ⟨h, ?_⟩
    intro it hit
    obtain rfl := Option.some.inj hit
    exact List.mem_append_right _ (List.mem_map_of_mem (he e rfl))

theorem comeToCont_stands (h : x.wild = false) {e : Option (F × Nat × Callable F G)}
    (he : ∀ y ∈ e, y ∈ x.nodes.cont.entries) : (x.comeToCont e).Stands := by
  cases e with
  | none => exact comeToUsr_stands h fun _ hy => List.mem_of_mem_head? hy
  | some e =>
    refine ⟨h, ?_⟩
    intro it hit
    obtain rfl := Option.some.inj hit
    exact List.mem_append_left _ (List.mem_map_of_mem (he e rfl))

theorem Calling.Stands.step (h : x.Stands) (hx : x.Sound) {a : Happening F G K}
    (ha : x.Keeps a) (hs : x.step a = some x') : x'.Stands := by
  obtain ⟨hwild, hcurrent⟩ := h
  cases a with
  | change c =>
    obtain rfl := Option.some.inj hs
    exact ⟨hwild, ha⟩
  | invoke =>
    have hbegin : x.invoke.Stands := by
      have hstill : { x with started := x.nodes.ids, invoked := [] }.wild = false := hwild
      exact comeToCont_stands hstill fun _ hy => List.mem_of_mem_head? hy
    simp only [Calling.step] at hs
    split at hs
    · obtain rfl := Option.some.inj hs
      exact hbegin
    · obtain rfl := Option.some.inj hs
      exact hbegin
    · cases hs
    · cases hs
  | returns =>
    simp only [Calling.step, Calling.goOn] at hs
    split at hs
    · rename_i it hplace
      obtain rfl := Option.some.inj hs
      have hin : it ∈ x.nodes.contIds :=
        (List.mem_append.mp (hcurrent it (by rw [hplace]; rfl))).resolve_right
          (hx.inCont it hplace)
      rw [if_pos hin]
      exact comeToCont_stands hwild fun _ hy => mem_of_after hy
    · rename_i it hplace
      obtain rfl := Option.some.inj hs
      have hin : it ∈ x.nodes.usrIds :=
        (List.mem_append.mp (hcurrent it (by rw [hplace]; rfl))).resolve_left
          (hx.inUsrcont it hplace)
      rw [if_pos hin]
      exact comeToUsr_stands hwild fun _ hy => mem_of_after hy
    · cases hs
    · cases hs
  | throws =>
    simp only [Calling.step] at hs
    split at hs
    · obtain rfl := Option.some.inj hs
      exact ⟨hwild, fun it hit => by cases hit⟩
    · obtain rfl := Option.some.inj hs
      exact ⟨hwild, fun it hit => by cases hit⟩
    · cases hs
    · cases hs

/-- **A call whose callbacks change the delegate.** In every run of changes and calls, the
changes made by callbacks included, the delegate is what the changes alone make it; a call
invokes no registration twice, and those that are there in the order they stand in; when it
returns it has invoked each registration that was there when it began and is there still; and
its iterators are valid as long as no callback takes out the registration it is invoked for. -/
theorem call_with_changes {tr : List (Calling F G K × Happening F G K)}
    (h : Run Calling.step Calling.init tr x) :
    x.nodes.forget = (Machine.run step (fun _ => new) (changes tr)).1 () ∧
      (x.invoked.map Prod.fst).Nodup ∧
      (x.place ≠ .left → ∀ n ∈ x.nodes.ids, ∀ m ∈ x.nodes.ids,
        [n, m].Sublist (x.invoked.map Prod.fst) → [n, m].Sublist x.nodes.ids) ∧
      (x.place = .idle →
        ∀ n ∈ x.nodes.ids, n ∈ x.started → n ∈ x.invoked.map Prod.fst) ∧
      (Meets Calling.Keeps tr → x.wild = false) := by
  have hsound := sound_run h
  refine ⟨forget_run h, hsound.once, fun hleft => (hsound.walks hleft).order, ?_, ?_⟩
  · intro hidle
    have hwalks := hsound.walks (by simp [hidle])
    rw [hidle] at hwalks
    exact hwalks.through rfl
  · intro hkeeps
    have hboth : x.Sound ∧ x.Stands :=
      h.invariant (I := fun x => x.Sound ∧ x.Stands)
        ⟨sound_init, rfl, fun it hit => by cases hit⟩
        (fun _ _ _ hx ha hs => ⟨hx.1.step hs, hx.2.step hx.1 ha hs⟩) hkeeps
    exact hboth.2.1

instance (x : Calling F G K) : ∀ a, Decidable (x.Keeps a)
  | .change c => inferInstanceAs
      (Decidable (∀ it ∈ x.place.current, it ∈ (x.nodes.change c).1.ids))
  | .invoke | .returns | .throws => isTrue trivial

end

/-! ## A concrete call -/

/-- Three functions are registered. The callback of the first registers one that stands later,
removes another and registers itself; that of the new one is invoked, and so is the first
one's second registration. -/
def grown : List (Happening Nat Nat Nat) :=
  [.change (.register (.function 1)), .change (.register (.function 5)),
    .change (.registerPair 3 (.object 8)), .invoke, .change (.register (.function 7)),
    .change (.remove (.function 5)), .change (.register (.function 1)), .returns, .returns,
    .returns, .returns]

theorem call_with_changes_grown :
    ∃ (tr : _) (x : Calling Nat Nat Nat), Run Calling.step Calling.init tr x ∧
      tr.map Prod.snd = grown ∧ x.place = .idle ∧
      x.invoked = [(0, .function 1), (4, .function 1), (3, .function 7), (2, .object 8)] ∧
      x.wild = false := by
  have hrun : ∃ (tr : _) (x : Calling Nat Nat Nat), Run Calling.step Calling.init tr x ∧
      Meets Calling.Keeps tr ∧ tr.map Prod.snd = grown ∧ (x.place = .idle ∧
      x.invoked = [(0, .function 1), (4, .function 1), (3, .function 7), (2, .object 8)]) :=
    Run.of_execMeets_any _ (by decide)
  obtain ⟨tr, x, hr, hkeeps, ha, hplace, hinvoked⟩ := hrun
  exact ⟨tr, x, hr, ha, hplace, hinvoked, (call_with_changes hr).2.2.2.2 hkeeps⟩

/-- A callback that takes out the registration it is invoked for. -/
example : ∃ (tr : _) (x : Calling Nat Nat Nat), Run Calling.step Calling.init tr x ∧
    tr.map Prod.snd = [.change (.register (.function 1)), .invoke,
      .change (.remove (.function 1)), .returns] ∧ x.wild = true :=
  Run.of_exec_any _ (by decide)

end Delegate

end Vee
