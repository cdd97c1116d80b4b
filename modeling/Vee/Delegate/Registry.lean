import Vee.Delegate.Delegate

/- What a delegate is for: a counted set of functions and a map of keyed callbacks.

   `Registry` says it without containers: how often each function is registered, and what
   is registered under each key. The delegates answer every history of operations as the
   registries do and stay in step with them (`delegates_simulate`), and what a delegate
   calls is read off its registry (`counted_set`). -/
namespace Vee
open Keyed Machine

/-- How often each function is registered, and what is registered under each key. -/
structure Registry (F G K : Type*) where
  times : F → Nat
  keyed : K → Option (Callable F G)

namespace Registry

variable {I F G K : Type*}

/-- Nothing is registered. -/
def new : Registry F G K := { times := fun _ => 0, keyed := fun _ => none }

variable [DecidableEq F] [DecidableEq K] [DecidableEq I]

/-- One more registration of `f`. -/
def add (r : Registry F G K) (f : F) : Registry F G K :=
  { r with times := Function.update r.times f (r.times f + 1) }

/-- One registration of `f` less. -/
def drop (r : Registry F G K) (f : F) : Registry F G K :=
  { r with times := Function.update r.times f (r.times f - 1) }

/-- What an operation does and answers: only plain functions are counted, a key is taken
once, and nothing is removed that is not there. -/
def step (s : I → Registry F G K) :
    Delegate.Op I F G K → (I → Registry F G K) × Except DelegateError Unit
  | .register i (.function f) => (Function.update s i ((s i).add f), .ok ())
  | .register _ (.object _) => (s, .error .keyGenerationFailed)
  | .registerPair i k obj =>
    if (s i).keyed k = none then
      (Function.update s i { s i with keyed := Function.update (s i).keyed k (some obj) }, .ok ())
    else (s, .error .keyAlreadyExist)
  | .remove i (.function f) =>
    if (s i).times f = 0 then (s, .error .targetNotFound)
    else (Function.update s i ((s i).drop f), .ok ())
  | .remove _ (.object _) => (s, .error .keyGenerationFailed)
  | .removeKey i k =>
    if (s i).keyed k = none then (s, .error .targetNotFound)
    else (Function.update s i { s i with keyed := Function.update (s i).keyed k none }, .ok ())
  | .clear i => (Function.update s i new, .ok ())
  | .assign i j => (Function.update s i (s j), .ok ())

/-- The calls of one invocation: the functions in the order of their addresses, each as often
as it is registered, and then the keyed callbacks in the order of their keys. -/
def Invokes [LinearOrder F] [LinearOrder K] (r : Registry F G K)
    (calls : List (Callable F G)) : Prop :=
  ∃ (functions : List F) (keyed : List (K × Callable F G)),
    calls = functions.map .function ++ keyed.map Prod.snd ∧
      functions.Pairwise (· ≤ ·) ∧ (∀ f, functions.count f = r.times f) ∧
      (keyed.map Prod.fst).Pairwise (· < ·) ∧
      ∀ k obj, (k, obj) ∈ keyed ↔ r.keyed k = some obj

end Registry

namespace Delegate

variable {I F G K : Type*} [LinearOrder F] [LinearOrder K]

/-- The delegate holds what the registry says, each function under its own address. -/
structure Holds (d : Delegate F G K) (r : Registry F G K) : Prop where
  times : ∀ f, d.cont.count f = r.times f
  keyed : ∀ k, d.usrcont.find k = r.keyed k
  own : ∀ e ∈ d.cont.entries, e.2 = .function e.1

theorem holds_new : Holds (new : Delegate F G K) .new where
  times f := Multimap.count_empty
  keyed k := Map.find_empty
  own := by
    intro e he
    cases he

variable {d : Delegate F G K} {r : Registry F G K}

theorem Holds.register (h : Holds d r) (f : F) :
    Holds { d with cont := d.cont.insert f (.function f) } (r.add f) := by
  constructor
  case times =>
    intro g
    show (d.cont.insert f _).count g = Function.update r.times f (r.times f + 1) g
    rw [Multimap.count_insert, h.times g]
    by_cases hgf : g = f
    · rw [hgf, Function.update_self, if_pos rfl]
    · rw [Function.update_of_ne hgf, if_neg (Ne.symm hgf), Nat.add_zero]
  case keyed => exact h.keyed
  case own =>
    intro e he
    rcases Multimap.mem_insert.mp he with rfl | he
    · rfl
    · exact h.own e he

theorem Holds.remove (h : Holds d r) {f : F} (hf : r.times f ≠ 0) :
    Holds { d with cont := d.cont.erase f } (r.drop f) := by
  constructor
  case times =>
    intro g
    show (d.cont.erase f).count g = Function.update r.times f (r.times f - 1) g
    have hcount := Multimap.count_erase (j := g) (by rwa [h.times f] : d.cont.count f ≠ 0)
    rw [h.times g] at hcount
    by_cases hgf : g = f
    · subst hgf
      rw [Function.update_self]
      rw [if_pos rfl] at hcount
      omega
    · rw [Function.update_of_ne hgf]
      rwa [if_neg (Ne.symm hgf), Nat.add_zero] at hcount
  case keyed => exact h.keyed
  case own =>
    intro e he
    exact h.own e (Multimap.mem_of_mem_erase he)

theorem Holds.registerPair (h : Holds d r) {k : K} (obj : Callable F G)
    (hk : d.usrcont.find k = none) :
    Holds { d with usrcont := (d.usrcont.insert k obj).1 }
      { r with keyed := Function.update r.keyed k (some obj) } := by
  constructor
  case times => exact h.times
  case keyed =>
    intro j
    show (d.usrcont.insert k obj).1.find j = Function.update r.keyed k (some obj) j
    rw [Map.find_insert hk, Function.update_apply, h.keyed j]
  case own => exact h.own

theorem Holds.removeKey (h : Holds d r) (k : K) :
    Holds { d with usrcont := d.usrcont.erase k }
      { r with keyed := Function.update r.keyed k none } := by
  constructor
  case times => exact h.times
  case keyed =>
    intro j
    show (d.usrcont.erase k).find j = Function.update r.keyed k none j
    rw [Map.find_erase, Function.update_apply, h.keyed j]
  case own => exact h.own

/-- What a delegate calls is what its registry says. -/
theorem Holds.invokes (h : Holds d r) : r.Invokes d.callbacks := by
  refine ⟨d.cont.entries.map Prod.fst, d.usrcont.entries, ?_, ?_, ?_, ?_, ?_⟩
  · rw [callbacks, List.map_map]
    congr 1
    exact List.map_congr_left h.own
  · exact List.pairwise_map.mpr d.cont.sorted
  · intro f
    rw [← h.times f, List.count, List.countP_map]
    rfl
  · -- in order and distinct
    have hsorted := List.pairwise_map.mpr d.usrcont.sorted
    exact hsorted.imp₂ (fun _ _ hle hne => lt_of_le_of_ne hle hne) d.usrcont.nodup
  · intro k obj
    rw [← h.keyed k, Map.find_eq_some]

/-- `empty` is true exactly if a call would invoke nothing. -/
theorem isEmpty_iff : d.isEmpty = true ↔ d.callbacks = [] := by
  simp [isEmpty, callbacks]

section
variable [DecidableEq I] {s : I → Delegate F G K}

/-- An operation that throws leaves every delegate as it was. -/
theorem step_throws {op : Op I F G K} {e : DelegateError} (h : (step s op).2 = .error e) :
    (step s op).1 = s := by
  -- it leaves its own delegate as it was
  have hself : ∀ i, Function.update s i (s i) = s := fun i => Function.update_eq_self i s
  cases op with
  | register i obj =>
    cases obj with
    | function f => cases h
    | object g => exact hself i
  | registerPair i k obj =>
    rw [step] at h ⊢
    cases hk : (s i).usrcont.find k with
    | none =>
      rw [registerPair_new hk] at h
      cases h
    | some old =>
      rw [registerPair_taken hk]
      exact hself i
  | remove i obj =>
    cases obj with
    | function f =>
      rw [step] at h ⊢
      cases hf : (s i).cont.find f with
      | none =>
        rw [remove_missing hf]
        exact hself i
      | some old =>
        rw [remove_found hf] at h
        cases h
    | object g => exact hself i
  | removeKey i k =>
    rw [step] at h ⊢
    cases hk : (s i).usrcont.find k with
    | none =>
      rw [removeKey_missing hk]
      exact hself i
    | some old =>
      rw [removeKey_found hk] at h
      cases h
  | clear i => cases h
  | assign i other => cases h

/-- One delegate and its registry after an operation on it. -/
theorem holds_update {r : I → Registry F G K} (h : ∀ i, Holds (s i) (r i)) (i : I)
    {d : Delegate F G K} {q : Registry F G K} (hdq : Holds d q) (j : I) :
    Holds (Function.update s i d j) (Function.update r i q j) := by
  by_cases hji : j = i
  · rw [hji, Function.update_self, Function.update_self]
    exact hdq
  · rw [Function.update_of_ne hji, Function.update_of_ne hji]
    exact h j

/-- **Delegates answer as registries do**, and stay in step with them. -/
theorem delegates_simulate : Simulates (step : (I → Delegate F G K) → _ → _) Registry.step
    fun s r => ∀ i, Holds (s i) (r i) := by
  intro s r op h
  -- where both throw alike, both are left as they were
  have hthrow : ∀ e, (step s op).2 = .error e → Registry.step r op = (r, .error e) →
      (∀ i, Holds ((step s op).1 i) ((Registry.step r op).1 i)) ∧
        (step s op).2 = (Registry.step r op).2 := by
    intro e hs hr
    rw [step_throws hs, hr]
    exact ⟨h, hs⟩
  cases op with
  | register i obj =>
    cases obj with
    | function f => exact ⟨holds_update h i ((h i).register f), rfl⟩
    | object g => exact hthrow .keyGenerationFailed rfl rfl
  | registerPair i k obj =>
    have hkeyed := (h i).keyed k
    cases hk : (s i).usrcont.find k with
    | none =>
      have hnone : (r i).keyed k = none := hkeyed.symm.trans hk
      rw [step, registerPair_new hk, Registry.step, if_pos hnone]
      exact ⟨holds_update h i ((h i).registerPair obj hk), rfl⟩
    | some old =>
      have hsome : (r i).keyed k ≠ none := by simp [← hkeyed, hk]
      refine hthrow .keyAlreadyExist ?_ (if_neg hsome)
      rw [step, registerPair_taken hk]
      rfl
  | remove i obj =>
    cases obj with
    | function f =>
      have htimes := (h i).times f
      cases hf : (s i).cont.find f with
      | none =>
        have hzero : (r i).times f = 0 := htimes.symm.trans (Multimap.find_eq_none.mp hf)
        refine hthrow .targetNotFound ?_ (if_pos hzero)
        rw [step, remove_missing hf]
        rfl
      | some old =>
        have hne : (r i).times f ≠ 0 := by
          rw [← htimes, ne_eq, ← Multimap.find_eq_none, hf]
          simp
        rw [step, remove_found hf, Registry.step, if_neg hne]
        exact ⟨holds_update h i ((h i).remove hne), rfl⟩
    | object g => exact hthrow .keyGenerationFailed rfl rfl
  | removeKey i k =>
    have hkeyed := (h i).keyed k
    cases hk : (s i).usrcont.find k with
    | none =>
      have hnone : (r i).keyed k = none := hkeyed.symm.trans hk
      refine hthrow .targetNotFound ?_ (if_pos hnone)
      rw [step, removeKey_missing hk]
      rfl
    | some old =>
      have hsome : (r i).keyed k ≠ none := by simp [← hkeyed, hk]
      rw [step, removeKey_found hk, Registry.step, if_neg hsome]
      exact ⟨holds_update h i ((h i).removeKey k), rfl⟩
  | clear i => exact ⟨holds_update h i holds_new, rfl⟩
  | assign i j => exact ⟨holds_update h i (h j), rfl⟩

/-- **A delegate is a counted set of functions and a keyed map.** After any history of
operations on any number of new delegates they have answered as registries do, each delegate
calls what its registry says and is empty exactly if it calls nothing, and an operation that
throws leaves all of them as they were. -/
theorem counted_set (ops : List (Op I F G K)) :
    (run step (fun _ => new) ops).2 = (run Registry.step (fun _ => .new) ops).2 ∧
      (∀ i, ((run Registry.step (fun _ => .new) ops).1 i).Invokes
          ((run step (fun _ => new) ops).1 i).callbacks ∧
        (((run step (fun _ => new) ops).1 i).isEmpty = true ↔
          ((run step (fun _ => new) ops).1 i).callbacks = [])) ∧
      ∀ op e, (step (run step (fun _ => new) ops).1 op).2 = .error e →
        (step (run step (fun _ => new) ops).1 op).1 = (run step (fun _ => new) ops).1 := by
  obtain ⟨hholds, hanswers⟩ := delegates_simulate.run (fun _ : I => holds_new) ops
  refine ⟨hanswers, ?_, ?_⟩
  · intro i
    exact ⟨(hholds i).invokes, isEmpty_iff⟩
  · intro op e h
    exact step_throws h

end

/-! ## Concrete histories -/

/-- A function registered twice and removed once, a key taken twice, and a callable that is no
plain function. -/
def mixed : List (Op Bool Nat Nat Nat) :=
  [.register true (.function 5), .register true (.function 5), .registerPair true 1 (.object 9),
    .assign false true, .remove true (.function 5), .registerPair true 1 (.object 8),
    .register true (.object 8), .removeKey true 2]

example : ((run step (fun _ => new) mixed).1 true).callbacks = [.function 5, .object 9] ∧
    ((run step (fun _ => new) mixed).1 false).callbacks =
      [.function 5, .function 5, .object 9] ∧
    (run step (fun _ => new) mixed).2 = [.ok (), .ok (), .ok (), .ok (), .ok (),
      .error .keyAlreadyExist, .error .keyGenerationFailed, .error .targetNotFound] := by
  decide

end Delegate

end Vee
