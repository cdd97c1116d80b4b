import Vee.Delegate.Delegate

/- The four ways to call a `vee::delegate`, and what the callbacks get.

   The parameters are taken by value, so each callback gets values made from the caller's
   arguments: a copy of an lvalue, what an rvalue was before it was moved from. The paths
   that take a tuple (vee/tupleupk.h) name it before they unpack it, so its elements are
   lvalues whatever the tuple was. The others forward the arguments as the caller gave them
   to one callback after another: the second callback gets what the first has left of an
   rvalue (`same_arguments_iff`). -/
namespace Vee.Delegate
open Keyed Machine

/-- What an argument is to the call. -/
inductive Category where
  | lvalue
  | rvalue
  deriving DecidableEq, Repr

variable {ι : Type*} {α : ι → Type*} {F G K : Type*}

/-- The argument after a parameter has been made from it; `moved` is what moving leaves. -/
def Category.leaves {β : Type*} (moved : β → β) (arg : β) : Category → β
  | .lvalue => arg
  | .rvalue => moved arg

section
variable (moved : ∀ i, α i → α i)

/-- Invoke one callback with the arguments: what they are afterwards, and what it got. -/
def invoke (category : ι → Category) (args : ∀ i, α i) (binder : Callable F G) :
    (∀ i, α i) × (Callable F G × ∀ i, α i) :=
  (fun i => (category i).leaves (moved i) (args i), (binder, args))

/-- `tupleupk`: `tuple` is a name, so `std::get` gives lvalues. -/
def tupleupk (tuple : ∀ i, α i) (func : Callable F G) :
    (∀ i, α i) × (Callable F G × ∀ i, α i) :=
  invoke moved (fun _ => .lvalue) tuple func

variable [LinearOrder F] [LinearOrder K] (d : Delegate F G K)

/-- The loop over `_cont` and the one over `_usrcont`, each step of which is `call`. -/
def loops (call : (∀ i, α i) → Callable F G → (∀ i, α i) × (Callable F G × ∀ i, α i))
    (args : ∀ i, α i) : List (Callable F G × ∀ i, α i) :=
  let plain := run call args (d.cont.entries.map Prod.snd)
  plain.2 ++ (run call plain.1 (d.usrcont.entries.map Prod.snd)).2

/-- `operator()(args_tuple_t&)`: the callbacks it invokes, with what they get. -/
def callTuple (args : ∀ i, α i) : List (Callable F G × ∀ i, α i) :=
  d.loops (tupleupk moved) args

/-- `operator()(args_tuple_t&&)` -/
def callTupleRvalue (args : ∀ i, α i) : List (Callable F G × ∀ i, α i) :=
  d.loops (tupleupk moved) args

/-- `operator()(FwdArgs&&...)`: each argument is forwarded to every callback. -/
def callForward (category : ι → Category) (args : ∀ i, α i) :
    List (Callable F G × ∀ i, α i) :=
  d.loops (invoke moved category) args

/-- `do_call` -/
def doCall (category : ι → Category) (args : ∀ i, α i) : List (Callable F G × ∀ i, α i) :=
  d.callForward moved category args

end

/-! ## What the callbacks get -/

section
variable [LinearOrder F] [LinearOrder K] {d : Delegate F G K}
variable {moved : ∀ i, α i → α i} {category : ι → Category} {args : ∀ i, α i}

/-- The two loops are one over all callbacks. -/
theorem loops_eq
    (call : (∀ i, α i) → Callable F G → (∀ i, α i) × (Callable F G × ∀ i, α i)) :
    d.loops call args = (run call args d.callbacks).2 := by
  rw [callbacks, run_append]
  rfl

/-- Arguments that a callback leaves alone reach all of them. -/
theorem loops_still (h : (fun i => (category i).leaves (moved i) (args i)) = args) :
    d.loops (invoke moved category) args = d.callbacks.map fun binder => (binder, args) := by
  have hstill : ∀ binder : Callable F G, (invoke moved category args binder).1 = args := fun _ => h
  rw [loops_eq, run_still hstill]
  rfl

/-- The tuple's elements are copied. -/
theorem callTuple_eq :
    d.callTuple moved args = d.callbacks.map fun binder => (binder, args) :=
  loops_still rfl

/-- The arguments as they are after one callback are what the caller supplied exactly if moving
from the rvalues changes nothing. -/
theorem leaves_eq_iff : (fun i => (category i).leaves (moved i) (args i)) = args ↔
    ∀ i, category i = .rvalue → moved i (args i) = args i := by
  rw [funext_iff]
  refine forall_congr' fun i => ?_
  cases category i <;> simp [Category.leaves]

/-- All callbacks get what the caller supplied exactly if there are not two of them, or moving
from the rvalues changes nothing. -/
theorem callForward_iff :
    d.callForward moved category args = (d.callbacks.map fun binder => (binder, args)) ↔
      d.callbacks.length ≤ 1 ∨ ∀ i, category i = .rvalue → moved i (args i) = args i := by
  rw [← leaves_eq_iff, callForward]
  refine ⟨?_, ?_⟩
  · rw [loops_eq]
    intro h
    match hcb : d.callbacks, h with
    | [], _ => exact .inl (Nat.zero_le 1)
    | [binder], _ => exact .inl (le_refl 1)
    | first :: second :: rest, h =>
      -- what the second callback gets
      have hsecond := congrArg (fun calls => (calls.map Prod.snd)[1]?) h
      exact .inr (Option.some.inj hsecond)
  · intro hcase
    rcases hcase with hlen | hleaves
    · rw [loops_eq]
      match hcb : d.callbacks, hlen with
      | [], _ => rfl
      | [binder], _ => rfl
      | first :: second :: rest, hlen =>
        have htwo : 2 ≤ (first :: second :: rest).length := by simp
        omega
    · exact loops_still hleaves

/-- **The call paths agree.** All four pass to every callback the values the caller supplied
exactly if the delegate has at most one callback, or every argument given as an rvalue is
left as it was by a move. -/
theorem same_arguments_iff :
    (d.callForward moved category args = (d.callbacks.map fun binder => (binder, args)) ∧
      d.doCall moved category args = (d.callbacks.map fun binder => (binder, args)) ∧
      d.callTuple moved args = (d.callbacks.map fun binder => (binder, args)) ∧
      d.callTupleRvalue moved args = (d.callbacks.map fun binder => (binder, args))) ↔
    d.callbacks.length ≤ 1 ∨ ∀ i, category i = .rvalue → moved i (args i) = args i := by
  rw [← callForward_iff]
  refine ⟨fun h => h.1, ?_⟩
  intro h
  exact ⟨h, h, callTuple_eq, callTuple_eq⟩

end

/-! ## A concrete call -/

/-- Two plain functions. -/
def two : Delegate Nat Nat Nat :=
  ((new.register (.function 1)).1.register (.function 2)).1

/-- A list given as an rvalue reaches the first of two callbacks only. -/
theorem second_gets_moved_from :
    two.callForward (fun _ _ => []) (fun _ : Unit => .rvalue) (fun _ => [7]) =
        [(.function 1, fun _ => [7]), (.function 2, fun _ => ([] : List Nat))] ∧
      two.callForward (fun _ _ => []) (fun _ : Unit => .rvalue) (fun _ => [7]) ≠
        two.callbacks.map fun binder => (binder, fun _ => [7]) := by
  refine ⟨rfl, ?_⟩
  intro h
  have hsecond := congrArg (fun calls => (calls.map fun c => c.2 ())[1]?) h
  cases Option.some.inj hsecond

end Vee.Delegate
