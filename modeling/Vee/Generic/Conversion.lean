import Vee.Generic.UnsignedInteger

/- Chains of conversions of `vee::unsigned_integer`.

   An object of either kind is constructed, assigned or converted to, and each time its
   bytes are the first bytes of the object before it, or all of them and zeros: the
   conversion to `n` bytes is the number modulo `256 ^ n`. A chain of them is the number
   modulo the narrowest (`chain_value`). -/
namespace Vee.Generic
open LittleEndian

/-- An integer object, by its bytes. -/
inductive Object where
  /-- of a built-in unsigned type -/
  | builtin (bytes : List UInt8)
  /-- an `unsigned_integer` -/
  | generic (data : List UInt8)
  deriving DecidableEq, Repr

/-- One link of a chain. -/
inductive Hop where
  /-- construct an `unsigned_integer` of `size` bytes from the object -/
  | construct (size : Nat)
  /-- assign the object to the `unsigned_integer` with the bytes `lhs` -/
  | assign (lhs : List UInt8)
  /-- convert the object to a built-in unsigned type of `size` bytes -/
  | convert (size : Nat)
  deriving DecidableEq, Repr

/-- The bytes of the object. -/
def Object.bytes : Object → List UInt8
  | builtin bytes => bytes
  | generic data => data

/-- The bytes that the object of the link has. -/
def Hop.size : Hop → Nat
  | construct size => size
  | assign lhs => lhs.length
  | convert size => size

/-- The bytes of a built-in unsigned integer converted by the language. -/
def integralConversion (size : Nat) (bytes : List UInt8) : List UInt8 :=
  bytes.take size ++ zeros (size - bytes.length)

/-- The object after a link. -/
def Object.hop (o : Object) : Hop → Option Object
  | .construct size => (Generic.construct size o.bytes).map .generic
  | .assign lhs => (Generic.assign lhs o.bytes).map .generic
  | .convert size =>
    match o with
    | builtin bytes => some (.builtin (integralConversion size bytes))
    -- `operator T`
    | generic data => (casting size data).map .builtin

/-- The object at the end of a chain. -/
def Object.chain (o : Object) (hops : List Hop) : Option Object := hops.foldlM Object.hop o

/-! ## One link -/

variable {data rhs : List UInt8} {size : Nat}

theorem value_integralConversion (size : Nat) (bytes : List UInt8) :
    value (integralConversion size bytes) = value bytes % 256 ^ size := by
  rw [integralConversion, zeros, value_append_zeros, value_take]

theorem integralConversion_narrow (h : size ≤ rhs.length) :
    integralConversion size rhs = rhs.take size := by
  rw [integralConversion, Nat.sub_eq_zero_of_le h, zeros, List.replicate_zero, List.append_nil]

theorem integralConversion_wide (h : rhs.length ≤ size) :
    integralConversion size rhs = rhs ++ zeros (size - rhs.length) := by
  rw [integralConversion, List.take_of_length_le h]

/-- `assign` leaves nothing of the integer that was there. -/
theorem assign_eq (data rhs : List UInt8) :
    assign data rhs = some (integralConversion data.length rhs) := by
  unfold assign
  by_cases h : data.length ≤ rhs.length
  · rw [if_pos h, memmove_full h, integralConversion_narrow h]
  · have hle : rhs.length ≤ data.length := by omega
    rw [if_neg h, memmove_zeros hle, integralConversion_wide hle]

theorem construct_eq (size : Nat) (rhs : List UInt8) :
    construct size rhs = some (integralConversion size rhs) := by
  rw [construct, assign_eq, length_zeros]

theorem casting_eq (size : Nat) (data : List UInt8) :
    casting size data = some (integralConversion size data) := by
  unfold casting
  by_cases h : data.length ≤ size
  · rw [if_pos h, memmove_zeros h, integralConversion_wide h]
  · have hle : size ≤ data.length := by omega
    have hfull : memmove (zeros size) data (zeros size).length =
        some (data.take (zeros size).length) := memmove_full (by rwa [length_zeros])
    rw [length_zeros] at hfull
    rw [if_neg h, hfull, integralConversion_narrow hle]

/-- Each link is in bounds, and truncates or extends with zeros. -/
theorem hop_eq (o : Object) (h : Hop) :
    ∃ o', o.hop h = some o' ∧ o'.bytes = integralConversion h.size o.bytes := by
  cases h with
  | construct size =>
    refine ⟨.generic (integralConversion size o.bytes), ?_, rfl⟩
    rw [Object.hop, construct_eq, Option.map_some]
  | assign lhs =>
    refine ⟨.generic (integralConversion lhs.length o.bytes), ?_, rfl⟩
    rw [Object.hop, assign_eq, Option.map_some]
  | convert size =>
    refine ⟨.builtin (integralConversion size o.bytes), ?_, rfl⟩
    cases o with
    | builtin bytes => rfl
    | generic data =>
      rw [Object.hop, casting_eq, Option.map_some]
      rfl

/-! ## A chain -/

/-- Two truncations are one to the narrower width. -/
theorem mod_pow_mod_pow (x a b : Nat) : x % 256 ^ a % 256 ^ b = x % 256 ^ min a b := by
  rcases Nat.le_total a b with h | h
  · rw [Nat.min_eq_left h]
    apply Nat.mod_eq_of_lt
    calc
      x % 256 ^ a < 256 ^ a := Nat.mod_lt x (Nat.pow_pos (by omega))
      _ ≤ 256 ^ b := Nat.pow_le_pow_right (by omega) h
  · rw [Nat.min_eq_right h, Nat.mod_mod_of_dvd x (Nat.pow_dvd_pow 256 h)]

/-- A chain from any object is its value modulo the widths of the links. -/
theorem chain_mod (o : Object) (hops : List Hop) (w x : Nat) (ho : value o.bytes = x % 256 ^ w) :
    ∃ o', o.chain hops = some o' ∧
      value o'.bytes = x % 256 ^ (hops.map Hop.size).foldl min w := by
  induction hops generalizing o w with
  | nil => exact ⟨o, rfl, ho⟩
  | cons h hops ih =>
    obtain ⟨m, hm, hbytes⟩ := hop_eq o h
    have hvalue : value m.bytes = x % 256 ^ min w h.size := by
      rw [hbytes, value_integralConversion, ho, mod_pow_mod_pow]
    obtain ⟨o', ho', hlast⟩ := ih m (min w h.size) hvalue
    refine ⟨o', ?_, hlast⟩
    rw [Object.chain, List.foldlM_cons, hm]
    exact ho'

/-- **A chain of conversions is one truncation.** From a built-in unsigned integer with the
bytes `rep` through any constructions, assignments and conversions: no link reads or writes
outside its objects, and the value at the end is the first one modulo `256 ^ w` for the
narrowest width `w`. -/
theorem chain_value (rep : List UInt8) (hops : List Hop) :
    ∃ o, (Object.builtin rep).chain hops = some o ∧
      value o.bytes = value rep % 256 ^ (hops.map Hop.size).foldl min rep.length :=
  chain_mod (.builtin rep) hops rep.length (value rep) (Nat.mod_eq_of_lt (value_lt rep)).symm

/-- From two bytes to one, to twelve and back to two. -/
example : (Object.builtin [7, 1]).chain [.construct 1, .assign (zeros 12), .convert 2] =
    some (.builtin [7, 0]) := by
  decide

end Vee.Generic
