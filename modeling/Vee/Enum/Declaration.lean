import Vee.Helper.Strmagic
import Vee.Lib.Keyed
import Vee.Lib.Loop
import Vee.Lib.Transition

/- The classes that `Enumeration` declares (vee/enumeration.h).

   The compiler gives the enumerators their values. The names are a table that the first
   call of `to_string` builds from the source text of the list: the text is cut at its
   commas and the pieces are numbered from `Offset` on. `operator[]` looks a value up in it,
   and puts an empty name in where there is none. -/
namespace Vee.Enumeration
open Strmagic

/-- The greatest `int`. -/
def intMax : Int := 2147483647

/-- The least `int`. -/
def intMin : Int := -2147483648

/-- A character of an identifier. -/
def isWord (c : Char) : Bool := c.isAlphanum || c == '_'

@[ext] structure Identifier where
  chars : List Char
  nonempty : chars ≠ []
  word : ∀ c ∈ chars, isWord c = true
  deriving DecidableEq, Repr

/-- `= constant`, with the blanks before it, the source text of the constant and its value. -/
structure Initializer where
  gap : List Char
  text : List Char
  value : Int
  gap_blank : ∀ c ∈ gap, isBlank c = true
  deriving DecidableEq, Repr

/-- An enumerator as it is written, with the blanks around it. -/
structure Enumerator where
  name : Identifier
  init : Option Initializer
  left : List Char
  right : List Char
  left_blank : ∀ c ∈ left, isBlank c = true
  right_blank : ∀ c ∈ right, isBlank c = true
  deriving DecidableEq, Repr

/-- The source text from the identifier's end to the next comma of the list. -/
def Enumerator.tail (e : Enumerator) : List Char :=
  match e.init with
  | none => e.right
  | some init => init.gap ++ '=' :: init.text ++ e.right

def Enumerator.text (e : Enumerator) : List Char := e.left ++ e.name.chars ++ e.tail

/-- The value of the enumerator, `next` being one more than that of the one before it. -/
def Enumerator.value (e : Enumerator) (next : Int) : Int :=
  match e.init with
  | none => next
  | some init => init.value

/-- The values of a list of enumerators. -/
def values (next : Int) : List Enumerator → List Int
  | [] => []
  | e :: es => e.value next :: values (e.value next + 1) es

/-- One more than the value of the last enumerator. -/
def following (next : Int) : List Enumerator → Int
  | [] => next
  | e :: es => following (e.value next + 1) es

/-- An enumerator that is its identifier and nothing else. -/
def Enumerator.ofName (name : Identifier) : Enumerator :=
  { name := name
    init := none
    left := []
    right := []
    left_blank := by simp
    right_blank := by simp }

/-- `Enumeration(.., Offset, __ENUMERATION_START__, ...)`. The identifiers are distinct, and
the values are of type `int`, like the keys of the table and the value of an iterator, that
of `__ENUMERATION_END__` included. -/
structure Declaration where
  offset : Int
  start : Identifier
  args : List Enumerator
  args_ne : args ≠ []
  nodup : (start :: args.map Enumerator.name).Nodup
  fits : ∀ v ∈ values offset (.ofName start :: args), intMin ≤ v ∧ v ≤ intMax
  end_fits : following offset (.ofName start :: args) ≤ intMax

namespace Declaration

variable (d : Declaration)

/-- The enumerators before `__ENUMERATION_END__`. -/
def list : List Enumerator := .ofName d.start :: d.args

/-- Each of them with its value. -/
def enumerators : List (Enumerator × Int) := d.list.zip (values d.offset d.list)

/-- `__ENUMERATION_END__` -/
def finish : Int := following d.offset d.list

/-! ## `to_string` -/

/-- `raw`, where `#__VA_ARGS__` is the source text of the list. -/
def raw : List Char :=
  d.start.chars ++ [',', ' '] ++ [','].intercalate (d.args.map Enumerator.text)

def strings : List (List Char) := split d.raw [',']

abbrev Table := Keyed.Map Int (List Char)

/-- The loop of `gen`; incrementing the greatest `int` is undefined. -/
def genLoop (result : Table) (key : Int) : List (List Char) → Option Table
  | [] => some result
  | s :: ss =>
    if key < intMax then genLoop (result.insert key (trim s)).1 (key + 1) ss else none

def gen : Option Table := genLoop .empty d.offset d.strings

inductive Outcome where
  | name (str : List Char)
  | targetNotFound
  /-- undefined behaviour -/
  | undefined
  deriving DecidableEq, Repr

/-- `map->operator[](key)`, which throws nothing. -/
def subscript (map : Table) (key : Int) : Except Unit (Table × List Char) :=
  match map.find key with
  | some str => .ok (map, str)
  | none => .ok ((map.insert key []).1, [])

/-- The lookup in the table, and what is thrown in its place. -/
def lookUp (map : Table) (value : Int) : Option Table × Outcome :=
  match subscript map value with
  | .ok (map, str) => (some map, .name str)
  | .error _ => (some map, .targetNotFound)

/-- `to_string(value)`; the table is a static variable, which the first call initializes. -/
def toString (map : Option Table) (value : Int) : Option Table × Outcome :=
  match map with
  | some map => lookUp map value
  | none =>
    match d.gen with
    | some map => lookUp map value
    | none => (none, .undefined)

/-- The answer of `to_string` after calls of it with other values. -/
def answer (history : List Int) (value : Int) : Outcome :=
  (d.toString (Machine.run d.toString none history).1 value).2

/-! ## `begin` and `end` -/

/-- A round of `for (it = begin(); it != end(); ++it)`, with the values visited so far. -/
def visit : Int × List Int → (Int × List Int) ⊕ Option (List Int)
  | (value, visited) =>
    if value = d.finish then .inr (some visited)
    else if value < intMax then .inl (value + 1, visited ++ [value])
    else .inr none

/-- The iteration visits the values and ends. -/
def Visits (visited : List Int) : Prop := Loop.Ends d.visit (d.offset, []) (some visited)

end Declaration

end Vee.Enumeration
