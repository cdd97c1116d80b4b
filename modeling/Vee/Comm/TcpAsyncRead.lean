import Vee.Io.Port
import Vee.Lib.Loop

/- `tcp_stream::async_read_some` and `tcp_stream::async_read_explicit` (src/comm/tcp.cpp), with
   the `io_service` that calls the handlers.

   A callback is whatever the caller has passed and is only called. `async_read_explicit` makes
   a lambda that would ask for what is left, but passes the callback itself on, so that it is
   the same as one `async_read_some` (`async_read_explicit_iff`). Each read that was asked for
   calls its callback once (`completes`). -/
namespace Vee.Comm.TcpAsyncRead
open ByteMemory Io Loop

universe v

/-- `async_io_result` -/
structure AsyncIoResult (Callback : Type v) where
  isSuccess : Bool
  issue : IoIssue
  bytesTransferred : Nat
  bytesRequested : Nat
  buffer : Buffer
  callback : Callback
  deriving DecidableEq, Repr

/-- A read that the socket has been asked for, with what its handler `on_read` has captured. -/
structure Pending (Callback : Type v) where
  buffer : Buffer
  bytesRequested : Nat
  callback : Callback
  deriving DecidableEq, Repr

/-- A stream and its `io_service`: the reads to come, how many have completed and with how many
bytes, and which callbacks have been called with which result. -/
structure System (Callback : Type v) where
  memory : Memory
  pending : List (Pending Callback)
  reads : Nat
  received : Nat
  calls : List (Callback × AsyncIoResult Callback)

variable {Callback : Type v}

/-- `on_read` -/
def onRead (p : Pending Callback) (error : Option ErrorCode) (bytesTransferred : Nat) :
    AsyncIoResult Callback :=
  { isSuccess := error.isNone
    issue := (error.map ErrorCode.issue).getD .null
    bytesTransferred := bytesTransferred
    bytesRequested := 0
    buffer := p.buffer
    callback := p.callback }

namespace System

/-- Nothing is pending. -/
def idle (memory : Memory) : System Callback :=
  { memory := memory, pending := [], reads := 0, received := 0, calls := [] }

/-- `async_read_some` -/
def asyncReadSome (s : System Callback) (buffer : Buffer) (bytesRequested : Nat)
    (callback : Callback) : System Callback :=
  { s with pending := s.pending ++ [⟨buffer, bytesRequested, callback⟩] }

/-- `async_read_explicit`: the lambda it makes is not passed on. -/
def asyncReadExplicit (s : System Callback) (buffer : Buffer) (bytesRequested : Nat)
    (callback : Callback) : System Callback :=
  s.asyncReadSome buffer bytesRequested callback

end System

/-- One round of the `io_service`: the next read completes, and its handler calls the callback.
A read that fails has transferred nothing. -/
def complete (socket : Transfers) (stream : Memory) (s : System Callback) :
    System Callback ⊕ System Callback :=
  match s.pending with
  | [] => .inr s
  | p :: pending =>
    match socket.respond s.reads p.bytesRequested with
    | .error e => .inl { s with
        pending := pending
        reads := s.reads + 1
        calls := s.calls ++ [(p.callback, onRead p (some e) 0)] }
    | .ok n => .inl { s with
        memory := store s.memory p.buffer.ptr (load stream s.received n)
        pending := pending
        reads := s.reads + 1
        received := s.received + n
        calls := s.calls ++ [(p.callback, onRead p none n)] }

/-- What is expected of `async_read_explicit`: one call, with all bytes in the buffer it was
given, or with how many there were before an error. -/
def CompletesOnce (stream : Memory) (buffer : Buffer) (bytesRequested : Nat) (callback : Callback)
    (s : System Callback) : Prop :=
  ∃ result, s.calls = [(callback, result)] ∧
    (result.isSuccess = true ∧ result.bytesTransferred = bytesRequested ∧
        result.buffer = buffer ∧ (∀ k < bytesRequested, s.memory (buffer.ptr + k) = stream k) ∨
      result.isSuccess = false ∧ result.bytesTransferred = s.received)

section
variable {s : System Callback}

theorem complete_done (socket : Transfers) (stream : Memory) (h : s.pending = []) :
    complete socket stream s = .inr s := by
  simp only [complete, h]

theorem complete_error {socket : Transfers} (stream : Memory) {p : Pending Callback}
    {pending : List (Pending Callback)} {e : ErrorCode} (h : s.pending = p :: pending)
    (he : socket.respond s.reads p.bytesRequested = .error e) :
    complete socket stream s = .inl { s with
      pending := pending
      reads := s.reads + 1
      calls := s.calls ++ [(p.callback, onRead p (some e) 0)] } := by
  simp only [complete, h, he]

theorem complete_ok {socket : Transfers} (stream : Memory) {p : Pending Callback}
    {pending : List (Pending Callback)} {n : Nat} (h : s.pending = p :: pending)
    (hn : socket.respond s.reads p.bytesRequested = .ok n) :
    complete socket stream s = .inl { s with
      memory := store s.memory p.buffer.ptr (load stream s.received n)
      pending := pending
      reads := s.reads + 1
      received := s.received + n
      calls := s.calls ++ [(p.callback, onRead p none n)] } := by
  simp only [complete, h, hn]

/-- The next read calls its callback, and leaves the others to come. -/
theorem complete_next (socket : Transfers) (stream : Memory) {p : Pending Callback}
    {pending : List (Pending Callback)} (h : s.pending = p :: pending) :
    ∃ s' result, complete socket stream s = .inl s' ∧ s'.pending = pending ∧
      s'.calls = s.calls ++ [(p.callback, result)] := by
  cases hanswer : socket.respond s.reads p.bytesRequested with
  | error e => exact ⟨_, onRead p (some e) 0, complete_error stream h hanswer, rfl, rfl⟩
  | ok n => exact ⟨_, onRead p none n, complete_ok stream h hanswer, rfl, rfl⟩

/-- Each read that was asked for calls its callback once, in turn. -/
theorem completes (socket : Transfers) (stream : Memory) (s : System Callback) :
    ∃ s', Ends (complete socket stream) s s' ∧
      s'.calls.map Prod.fst = s.calls.map Prod.fst ++ s.pending.map Pending.callback := by
  induction hpending : s.pending generalizing s with
  | nil =>
    exact ⟨s, (ends_done (complete_done socket stream hpending)).mpr rfl,
      (List.append_nil _).symm⟩
  | cons p pending ih =>
    obtain ⟨s₁, result, hround, hrest, hcalls⟩ := complete_next socket stream hpending
    obtain ⟨s', hends, hall⟩ := ih s₁ hrest
    refine ⟨s', (ends_next hround).mpr hends, ?_⟩
    rw [hall, hcalls, List.map_append, List.map_cons, List.append_assoc]
    rfl

end

section
variable {stream memory : Memory} {buffer : Buffer} {bytesRequested n : Nat} {callback : Callback}

/-- The stream after one read of `n` bytes has completed. -/
def answered (stream memory : Memory) (buffer : Buffer) (bytesRequested n : Nat)
    (callback : Callback) : System Callback :=
  { memory := store memory buffer.ptr (load stream 0 n)
    pending := []
    reads := 1
    received := 0 + n
    calls := [(callback, onRead ⟨buffer, bytesRequested, callback⟩ none n)] }

/-- The stream after one read has failed. -/
def failed (memory : Memory) (buffer : Buffer) (bytesRequested : Nat) (e : ErrorCode)
    (callback : Callback) : System Callback :=
  { memory := memory
    pending := []
    reads := 1
    received := 0
    calls := [(callback, onRead ⟨buffer, bytesRequested, callback⟩ (some e) 0)] }

/-- The first completion is the only one. -/
theorem asyncReadExplicit_ends (socket : Transfers) (stream memory : Memory) (buffer : Buffer)
    (bytesRequested : Nat) (callback : Callback) {s : System Callback} :
    Ends (complete socket stream)
        ((System.idle memory).asyncReadExplicit buffer bytesRequested callback) s ↔
      s = match socket.respond 0 bytesRequested with
        | .error e => failed memory buffer bytesRequested e callback
        | .ok n => answered stream memory buffer bytesRequested n callback := by
  cases hanswer : socket.respond 0 bytesRequested with
  | error e =>
    rw [ends_next (complete_error stream rfl hanswer)]
    exact ends_done (complete_done socket stream rfl)
  | ok n =>
    rw [ends_next (complete_ok stream rfl hanswer)]
    exact ends_done (complete_done socket stream rfl)

theorem failed_completesOnce (e : ErrorCode) : CompletesOnce stream buffer bytesRequested callback
    (failed memory buffer bytesRequested e callback) :=
  ⟨_, rfl, .inr ⟨rfl, rfl⟩⟩

theorem answered_completesOnce_iff : CompletesOnce stream buffer bytesRequested callback
    (answered stream memory buffer bytesRequested n callback) ↔ n = bytesRequested := by
  constructor
  · intro hall
    obtain ⟨result, hcalls, hresult⟩ := hall
    obtain ⟨-, rfl⟩ := Prod.mk.inj (List.singleton_inj.mp hcalls)
    rcases hresult with ⟨-, hall, -⟩ | ⟨hfailed, -⟩
    · exact hall
    · cases hfailed
  · intro heq
    subst heq
    refine ⟨_, rfl, .inl ⟨rfl, rfl, rfl, ?_⟩⟩
    intro k hk
    show store memory buffer.ptr (load stream 0 n) (buffer.ptr + k) = stream k
    rw [store_load stream 0 hk, Nat.zero_add]

/-- `async_read_explicit` completes as it should if and only if its first read does. -/
theorem async_read_explicit_iff (socket : Transfers) (stream memory : Memory) (buffer : Buffer)
    (bytesRequested : Nat) (callback : Callback) :
    (∃ s, Ends (complete socket stream)
        ((System.idle memory).asyncReadExplicit buffer bytesRequested callback) s ∧
      CompletesOnce stream buffer bytesRequested callback s) ↔
      ∀ n, socket.respond 0 bytesRequested = .ok n → n = bytesRequested := by
  simp only [asyncReadExplicit_ends, exists_eq_left]
  cases socket.respond 0 bytesRequested with
  | error e => exact iff_of_true (failed_completesOnce e) (by rintro n ⟨⟩)
  | ok n =>
    rw [answered_completesOnce_iff]
    constructor
    · intro hn m hnone
      cases hnone
      exact hn
    · exact fun h => h n rfl

/-- Two bytes are requested and one comes in: the callback is told that the read has succeeded,
with one byte. -/
theorem completed_early :
    ∃ s, Ends (complete (.upTo 1) fun _ => 1)
        ((System.idle fun _ => 0).asyncReadExplicit ⟨100, 2⟩ 2 ()) s ∧
      s.pending = [] ∧
      (s.calls.map fun call => (call.2.isSuccess, call.2.bytesTransferred)) = [(true, 1)] ∧
      ¬ CompletesOnce (fun _ => 1) ⟨100, 2⟩ 2 () s := by
  refine ⟨_, (asyncReadExplicit_ends (.upTo 1) _ _ _ _ _).mpr rfl, rfl, rfl, ?_⟩
  intro h
  exact absurd (answered_completesOnce_iff.mp h) (by decide)

end

end Vee.Comm.TcpAsyncRead
