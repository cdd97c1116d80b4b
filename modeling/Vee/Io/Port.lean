import Mathlib.Algebra.Order.Ring.Nat
import Vee.Lib.ByteMemory

/- What the operations of an I/O port take and report (vee/io/port_base.h, vee/io.h).

   A socket of Boost.Asio answers each transfer it is asked for with a number of bytes, from
   one to as many as were asked for, or with an error; `Transfers` is a sequence of such
   answers. -/
namespace Vee.Io

/-- `io::buffer` -/
structure Buffer where
  ptr : Nat
  capacity : Nat
  deriving DecidableEq, Repr

/-- A sum of type `size_t`, which has `w` bits. -/
def sizeAdd (w a b : Nat) : Nat := (a + b) % 2 ^ w

/-- A difference of type `size_t`. -/
def sizeSub (w a b : Nat) : Nat := (a + (2 ^ w - b)) % 2 ^ w

theorem sizeAdd_of_lt {w a b : Nat} (h : a + b < 2 ^ w) : sizeAdd w a b = a + b :=
  Nat.mod_eq_of_lt h

theorem sizeSub_of_le {w a b : Nat} (hb : b ≤ a) (ha : a < 2 ^ w) : sizeSub w a b = a - b := by
  have hsum : a + (2 ^ w - b) = (a - b) + 2 ^ w := by omega
  rw [sizeSub, hsum, Nat.add_mod_right, Nat.mod_eq_of_lt (by omega)]

/-- The errors that the operations tell apart. -/
inductive ErrorCode where
  | eof
  | connectionReset
  | other
  deriving DecidableEq, Repr

/-- What the synchronous operations throw. -/
inductive Exception where
  | invalidStream
  | streamReset
  | unknownIo
  deriving DecidableEq, Repr

/-- `io_issue` -/
inductive IoIssue where
  | null
  | unknown
  | eof
  | connectionReset
  deriving DecidableEq, Repr

/-- The exception for an error, in `tcp_stream::write_some` and `tcp_stream::read_some`. -/
def ErrorCode.exception : ErrorCode → Exception
  | eof => .invalidStream
  | connectionReset => .streamReset
  | other => .unknownIo

/-- The issue for an error, in the handlers of the asynchronous operations. -/
def ErrorCode.issue : ErrorCode → IoIssue
  | eof => .eof
  | connectionReset => .connectionReset
  | other => .unknown

/-- The answers of a socket: to the transfer with the number `i`, of at most `n` bytes. -/
structure Transfers where
  respond (i n : Nat) : Except ErrorCode Nat
  some_bytes : ∀ {i n k : Nat}, 0 < n → respond i n = .ok k → 0 < k ∧ k ≤ n

/-- A socket that transfers up to `k` bytes at a time. -/
def Transfers.upTo (k : Nat) [NeZero k] : Transfers where
  respond _ n := .ok (min k n)
  some_bytes hn h := by
    obtain rfl := Except.ok.inj h
    exact ⟨Nat.lt_min.mpr ⟨Nat.pos_of_neZero k, hn⟩, Nat.min_le_right _ _⟩

end Vee.Io
