import Mathlib.Logic.Function.Basic
import Vee.Lib.Keyed
import Vee.Lib.Transition

/- `vee::delegate` (vee/delegate.h), with the lock it has by default, `empty_lock`.

   A callable is what `std::function` makes of it: `target` finds a function pointer of
   the delegate's signature in it (`function`) or does not (`object`). A function is its
   address, which is what `pvoid_cast` makes the key of, and addresses are ordered as
   `std::less` orders them. An operation leaves a delegate and returns or throws; the
   delegate it leaves where it throws is modelled as well. -/
namespace Vee
open Keyed

/-- A callable object, by what `target` finds in it. -/
inductive Callable (F G : Type*) where
  | function (f : F)
  | object (g : G)
  deriving DecidableEq, Repr

/-- What the operations of a delegate throw. -/
inductive DelegateError where
  | keyGenerationFailed
  | targetNotFound
  | keyAlreadyExist
  deriving DecidableEq, Repr

/-- The two containers of a delegate. -/
structure Delegate (F G K : Type*) [LinearOrder F] [LinearOrder K] where
  cont : Multimap F (Callable F G)
  usrcont : Map K (Callable F G)

namespace Delegate

variable {F G K : Type*} [LinearOrder F] [LinearOrder K]

/-- `delegate()` -/
def new : Delegate F G K := ⟨.empty, .empty⟩

/-- `gen_key`: the key is the address of the function. -/
def genKey : Callable F G → Except DelegateError F
  | .function f => .ok f
  | .object _ => .error .keyGenerationFailed

section
variable (d : Delegate F G K)

/-- `_register` of a callable that is no pair, for `operator+=`. -/
def register (obj : Callable F G) : Delegate F G K × Except DelegateError Unit :=
  match genKey obj with
  | .error e => (d, .error e)
  | .ok key => ({ d with cont := d.cont.insert key obj }, .ok ())

/-- `_register` of a pair, for `operator+=`. -/
def registerPair (first : K) (second : Callable F G) :
    Delegate F G K × Except DelegateError Unit :=
  match d.usrcont.insert first second with
  | (usrcont, false) => ({ d with usrcont := usrcont }, .error .keyAlreadyExist)
  | (usrcont, true) => ({ d with usrcont := usrcont }, .ok ())

/-- `operator-=` of a callable. -/
def remove (obj : Callable F G) : Delegate F G K × Except DelegateError Unit :=
  match genKey obj with
  | .error e => (d, .error e)
  | .ok key =>
    match d.cont.find key with
    | none => (d, .error .targetNotFound)
    | some _ => ({ d with cont := d.cont.erase key }, .ok ())

/-- `operator-=` of a user's key. -/
def removeKey (key : K) : Delegate F G K × Except DelegateError Unit :=
  match d.usrcont.find key with
  | none => (d, .error .targetNotFound)
  | some _ => ({ d with usrcont := d.usrcont.erase key }, .ok ())

/-- `clear` -/
def clear (_ : Delegate F G K) : Delegate F G K := { cont := .empty, usrcont := .empty }

/-- `operator=` of another delegate, or of the same one. -/
def assign (_ other : Delegate F G K) : Delegate F G K :=
  { cont := other.cont, usrcont := other.usrcont }

/-- The callbacks of `operator()`, in the order it calls them in. -/
def callbacks : List (Callable F G) :=
  d.cont.entries.map Prod.snd ++ d.usrcont.entries.map Prod.snd

/-- `empty` -/
def isEmpty : Bool := d.cont.entries.isEmpty && d.usrcont.entries.isEmpty

end

section
variable {d : Delegate F G K} {obj old : Callable F G} {f : F} {k : K}

theorem registerPair_new (h : d.usrcont.find k = none) : d.registerPair k obj =
    ({ d with usrcont := (d.usrcont.insert k obj).1 }, .ok ()) := by
  simp only [registerPair, Map.insert_of_none h]

theorem registerPair_taken (h : d.usrcont.find k = some old) :
    d.registerPair k obj = (d, .error .keyAlreadyExist) := by
  simp only [registerPair, Map.insert_of_some h]

theorem remove_missing (h : d.cont.find f = none) :
    d.remove (.function f) = (d, .error .targetNotFound) := by
  simp only [remove, genKey, h]

theorem remove_found (h : d.cont.find f = some old) :
    d.remove (.function f) = ({ d with cont := d.cont.erase f }, .ok ()) := by
  simp only [remove, genKey, h]

theorem removeKey_missing (h : d.usrcont.find k = none) :
    d.removeKey k = (d, .error .targetNotFound) := by
  simp only [removeKey, h]

theorem removeKey_found (h : d.usrcont.find k = some old) :
    d.removeKey k = ({ d with usrcont := d.usrcont.erase k }, .ok ()) := by
  simp only [removeKey, h]

end

/-- An operation on one of several delegates. -/
inductive Op (I F G K : Type*) where
  | register (i : I) (obj : Callable F G)
  | registerPair (i : I) (first : K) (second : Callable F G)
  | remove (i : I) (obj : Callable F G)
  | removeKey (i : I) (key : K)
  | clear (i : I)
  | assign (i other : I)
  deriving DecidableEq, Repr

/-- The delegates after an operation, and whether it has thrown. -/
def step {I : Type*} [DecidableEq I] (s : I → Delegate F G K) :
    Op I F G K → (I → Delegate F G K) × Except DelegateError Unit
  | .register i obj => ((s i).register obj).map (Function.update s i) id
  | .registerPair i first second =>
    ((s i).registerPair first second).map (Function.update s i) id
  | .remove i obj => ((s i).remove obj).map (Function.update s i) id
  | .removeKey i key => ((s i).removeKey key).map (Function.update s i) id
  | .clear i => (Function.update s i (s i).clear, .ok ())
  | .assign i other => (Function.update s i ((s i).assign (s other)), .ok ())

end Delegate

end Vee
