import Vee.Io.Port
import Vee.Lib.Fifo
import Vee.Lib.Loop

/- `tcp_stream::write_some` (src/comm/tcp.cpp): offering a buffer until all of it is taken.

   The state of the loop is `bytes_transferred`, kept with what has been offered to the socket
   and answered by it; the bytes that are on their way are those of the answers (`accepted`).
   `Sent` is what they have to do with each other as long as the socket takes no more than it is
   offered: each offer begins where the bytes taken before it end. It is kept by each round
   (`Sent.round`). -/
namespace Vee.Comm.TcpWrite
open ByteMemory Io Loop

/-- The loop between two rounds. -/
structure Writing where
  bytesTransferred : Nat
  /-- what was offered, and the answer -/
  transfers : List (Buffer × Except ErrorCode Nat)
  deriving Repr

/-- The loop before its first round. -/
def start : Writing := { bytesTransferred := 0, transfers := [] }

/-- One round of `write_some`, with `size_t` of `w` bits. -/
def round (w : Nat) (socket : Transfers) (buffer : Buffer) (bytesRequested : Nat) (x : Writing) :
    Writing ⊕ Writing × Except Exception Nat :=
  if x.bytesTransferred = bytesRequested then .inr (x, .ok x.bytesTransferred)
  else
    let offer : Buffer :=
      { ptr := buffer.ptr + x.bytesTransferred
        capacity := sizeSub w bytesRequested x.bytesTransferred }
    let answer := socket.respond x.transfers.length offer.capacity
    let x := { x with transfers := x.transfers ++ [(offer, answer)] }
    match answer with
    | .error e => .inr (x, .error e.exception)
    | .ok n => .inl { x with bytesTransferred := sizeAdd w x.bytesTransferred n }

/-- How many bytes of an offer were taken. -/
def taken : Buffer × Except ErrorCode Nat → Nat
  | (_, .ok n) => n
  | (_, .error _) => 0

/-- How many bytes were taken together. -/
def sent (transfers : List (Buffer × Except ErrorCode Nat)) : Nat := (transfers.map taken).sum

/-- The bytes handed over and taken, in the order of the transfers. -/
def accepted (memory : Memory) (transfers : List (Buffer × Except ErrorCode Nat)) : List UInt8 :=
  transfers.flatMap fun t => load memory t.1.ptr (taken t)

/-- What is left of the buffer. -/
def rest (buffer : Buffer) (bytesRequested : Nat)
    (transfers : List (Buffer × Except ErrorCode Nat)) : Buffer :=
  { ptr := buffer.ptr + sent transfers, capacity := bytesRequested - sent transfers }

/-- The transfers are of one call: each offers what those before it have left, and is answered
by the socket. -/
structure Offered (socket : Transfers) (buffer : Buffer) (bytesRequested : Nat)
    (transfers : List (Buffer × Except ErrorCode Nat)) : Prop where
  rest : ∀ i t, transfers[i]? = some t → t.1 = rest buffer bytesRequested (transfers.take i)
  answered : ∀ i t, transfers[i]? = some t → t.2 = socket.respond i t.1.capacity

/-- Up to here the socket has taken the first bytes of the buffer, and no more than were to be
sent. -/
structure Sent (socket : Transfers) (memory : Memory) (buffer : Buffer) (bytesRequested : Nat)
    (x : Writing) : Prop where
  offered : Offered socket buffer bytesRequested x.transfers
  count : x.bytesTransferred = sent x.transfers
  le : sent x.transfers ≤ bytesRequested
  accepted : accepted memory x.transfers = load memory buffer.ptr (sent x.transfers)
  no_error : ∀ t ∈ x.transfers, ∀ e, t.2 ≠ .error e

/-- What the caller may rely on: each transfer offers what is left and has the socket's answer,
nothing but the buffer is offered, the bytes taken are a first part of those to be sent, all of
them where it returns, and it throws for an error of the socket and only then. -/
structure Written (socket : Transfers) (memory : Memory) (buffer : Buffer) (bytesRequested : Nat)
    (x : Writing) (r : Except Exception Nat) : Prop where
  offered : Offered socket buffer bytesRequested x.transfers
  inside : ∀ t ∈ x.transfers,
    buffer.ptr ≤ t.1.ptr ∧ t.1.ptr + t.1.capacity ≤ buffer.ptr + buffer.capacity
  taken : accepted memory x.transfers <+: load memory buffer.ptr bytesRequested
  whole : ∀ n, r = .ok n →
    n = bytesRequested ∧ accepted memory x.transfers = load memory buffer.ptr bytesRequested
  throws : ∀ ex, r = .error ex ↔ ∃ t ∈ x.transfers, ∃ e, t.2 = .error e ∧ ex = e.exception

section
variable {w : Nat} {socket : Transfers} {memory : Memory} {buffer : Buffer} {bytesRequested : Nat}
  {x y : Writing} {r : Except Exception Nat} {transfers : List (Buffer × Except ErrorCode Nat)}

theorem sent_append (before after : List (Buffer × Except ErrorCode Nat)) :
    sent (before ++ after) = sent before + sent after := by
  simp [sent]

theorem sent_snoc (transfers : List (Buffer × Except ErrorCode Nat))
    (t : Buffer × Except ErrorCode Nat) : sent (transfers ++ [t]) = sent transfers + taken t := by
  rw [sent_append]
  simp [sent]

theorem accepted_snoc (memory : Memory) (transfers : List (Buffer × Except ErrorCode Nat))
    (t : Buffer × Except ErrorCode Nat) :
    accepted memory (transfers ++ [t]) =
      accepted memory transfers ++ load memory t.1.ptr (taken t) := by
  simp [accepted]

/-- One more transfer of the call. -/
theorem Offered.snoc (h : Offered socket buffer bytesRequested transfers) :
    Offered socket buffer bytesRequested (transfers ++
      [(TcpWrite.rest buffer bytesRequested transfers,
        socket.respond transfers.length (bytesRequested - sent transfers))]) := by
  constructor
  case rest =>
    intro i t ht
    rcases Fifo.getElem?_append_value ht with ⟨hi, ht⟩ | ⟨rfl, rfl⟩
    · rw [List.take_append_of_le_length hi.le]
      exact h.rest i t ht
    · rw [List.take_append_of_le_length (le_refl _), List.take_length]
  case answered =>
    intro i t ht
    rcases Fifo.getElem?_append_value ht with ⟨-, ht⟩ | ⟨rfl, rfl⟩
    · exact h.answered i t ht
    · rfl

/-- Nothing but the buffer is offered. -/
theorem Offered.inside (h : Offered socket buffer bytesRequested transfers)
    (hle : sent transfers ≤ bytesRequested) (hlen : bytesRequested ≤ buffer.capacity) :
    ∀ t ∈ transfers,
      buffer.ptr ≤ t.1.ptr ∧ t.1.ptr + t.1.capacity ≤ buffer.ptr + buffer.capacity := by
  intro t ht
  obtain ⟨i, hi⟩ := List.getElem?_of_mem ht
  have hsplit : sent (transfers.take i) + sent (transfers.drop i) = sent transfers := by
    rw [← sent_append, List.take_append_drop]
  rw [h.rest i t hi]
  simp only [TcpWrite.rest]
  omega

theorem sent_start : Sent socket memory buffer bytesRequested start := by
  constructor
  case offered => constructor <;> simp [start]
  all_goals simp [start, sent, TcpWrite.accepted, load]

theorem round_done (h : x.bytesTransferred = bytesRequested) :
    round w socket buffer bytesRequested x = .inr (x, .ok bytesRequested) := by
  rw [round, if_pos h, h]

/-- Before the end the rest is offered, which the socket refuses or takes a part of. -/
theorem Sent.round_cases (hx : Sent socket memory buffer bytesRequested x)
    (hsize : bytesRequested < 2 ^ w) (hne : x.bytesTransferred ≠ bytesRequested) :
    ∃ answer, Offered socket buffer bytesRequested
        (x.transfers ++ [(TcpWrite.rest buffer bytesRequested x.transfers, answer)]) ∧
      ((∃ e, answer = .error e ∧ round w socket buffer bytesRequested x =
        .inr ({ x with transfers :=
          x.transfers ++ [(TcpWrite.rest buffer bytesRequested x.transfers, answer)] },
            .error e.exception)) ∨
      ∃ n, answer = .ok n ∧ 0 < n ∧ sent x.transfers + n ≤ bytesRequested ∧
        round w socket buffer bytesRequested x =
          .inl { bytesTransferred := sent x.transfers + n
                 transfers := x.transfers ++
                  [(TcpWrite.rest buffer bytesRequested x.transfers, answer)] }) := by
  have hle := hx.le
  have hcount := hx.count
  have hoffer := sizeSub_of_le hle hsize
  rw [hcount] at hne
  refine ⟨_, hx.offered.snoc, ?_⟩
  cases hanswer : socket.respond x.transfers.length (bytesRequested - sent x.transfers) with
  | error e =>
    refine .inl ⟨e, rfl, ?_⟩
    simp only [round, hcount, if_neg hne, hoffer, hanswer, TcpWrite.rest]
  | ok n =>
    obtain ⟨hpos, hn⟩ := socket.some_bytes (by omega) hanswer
    refine .inr ⟨n, rfl, hpos, by omega, ?_⟩
    simp only [round, hcount, if_neg hne, hoffer, hanswer, TcpWrite.rest]
    rw [sizeAdd_of_lt (by omega)]

/-- A round that goes on has sent at least one byte more. -/
theorem Sent.round (hx : Sent socket memory buffer bytesRequested x)
    (hsize : bytesRequested < 2 ^ w)
    (h : TcpWrite.round w socket buffer bytesRequested x = .inl y) :
    Sent socket memory buffer bytesRequested y ∧ x.bytesTransferred < y.bytesTransferred := by
  by_cases hend : x.bytesTransferred = bytesRequested
  · cases (round_done hend).symm.trans h
  obtain ⟨answer, hoffered, ⟨e, -, he⟩ | ⟨n, rfl, hpos, hle, hn⟩⟩ := hx.round_cases hsize hend
  · cases he.symm.trans h
  obtain rfl := Sum.inl.inj (hn.symm.trans h)
  refine ⟨?_, by rw [hx.count]; exact Nat.lt_add_of_pos_right hpos⟩
  constructor
  case offered => exact hoffered
  case count => rw [sent_snoc, taken]
  case le => rwa [sent_snoc, taken]
  case accepted =>
    rw [accepted_snoc, sent_snoc, hx.accepted, load_add]
    rfl
  case no_error =>
    intro t ht e
    rcases List.mem_append.mp ht with ht | ht
    · exact hx.no_error t ht e
    · obtain rfl := List.mem_singleton.mp ht
      simp

theorem Sent.returns (hx : Sent socket memory buffer bytesRequested x)
    (hlen : bytesRequested ≤ buffer.capacity) (hend : x.bytesTransferred = bytesRequested) :
    Written socket memory buffer bytesRequested x (.ok bytesRequested) := by
  have hsent : sent x.transfers = bytesRequested := hx.count.symm.trans hend
  have hall : TcpWrite.accepted memory x.transfers = load memory buffer.ptr bytesRequested := by
    rw [hx.accepted, hsent]
  constructor
  case offered => exact hx.offered
  case inside => exact hx.offered.inside hx.le hlen
  case taken => exact hall ▸ List.prefix_rfl
  case whole =>
    intro n hn
    exact ⟨(Except.ok.inj hn).symm, hall⟩
  case throws =>
    intro ex
    refine ⟨?_, ?_⟩
    · intro hnone
      cases hnone
    · intro hthrown
      obtain ⟨t, ht, e, he, -⟩ := hthrown
      exact absurd he (hx.no_error t ht e)

theorem Sent.throws (hx : Sent socket memory buffer bytesRequested x)
    (hlen : bytesRequested ≤ buffer.capacity) {e : ErrorCode}
    (hoffered : Offered socket buffer bytesRequested
      (x.transfers ++ [(TcpWrite.rest buffer bytesRequested x.transfers, .error e)])) :
    Written socket memory buffer bytesRequested { x with transfers :=
      x.transfers ++ [(TcpWrite.rest buffer bytesRequested x.transfers, .error e)] }
      (.error e.exception) := by
  constructor
  case offered => exact hoffered
  case inside =>
    refine hoffered.inside ?_ hlen
    rw [sent_snoc, taken, Nat.add_zero]
    exact hx.le
  case taken =>
    -- an error takes nothing
    rw [accepted_snoc, show load memory _ (TcpWrite.taken (_, .error e)) = [] from rfl,
      List.append_nil, hx.accepted]
    exact load_prefix memory buffer.ptr hx.le
  case whole =>
    intro n hnone
    cases hnone
  case throws =>
    intro ex
    refine ⟨?_, ?_⟩
    · intro hthrown
      cases hthrown
      exact ⟨_, List.mem_append_right _ (List.mem_singleton.mpr rfl), e, rfl, rfl⟩
    · intro hall
      obtain ⟨t, ht, e', he', rfl⟩ := hall
      rcases List.mem_append.mp ht with ht | ht
      · exact absurd he' (hx.no_error t ht e')
      · obtain rfl := List.mem_singleton.mp ht
        rw [Except.error.inj he']

/-- **`write_some` sends the buffer once and in order.** It returns or throws; each of its
transfers offers to the socket what the answers to those before it have left of the buffer, so
the bytes taken are a first part of those requested, and all of them where it returns; it throws
exactly if a transfer was answered with an error, and for that error. -/
theorem write_some_sends (w : Nat) (socket : Transfers) (memory : Memory) (buffer : Buffer)
    (bytesRequested : Nat) (hlen : bytesRequested ≤ buffer.capacity)
    (hsize : buffer.capacity < 2 ^ w) :
    ∃ x r, Ends (TcpWrite.round w socket buffer bytesRequested) start (x, r) ∧
      Written socket memory buffer bytesRequested x r := by
  have hrequested : bytesRequested < 2 ^ w := by omega
  have hstart : Sent socket memory buffer bytesRequested start := sent_start
  -- each round leaves less to send
  obtain ⟨⟨x, r⟩, hends⟩ := ends_of_measure (I := Sent socket memory buffer bytesRequested)
    (fun x => bytesRequested - x.bytesTransferred) hstart (by
      intro x y hx hy
      obtain ⟨hsent, hlt⟩ := hx.round hrequested hy
      have hle := hsent.le
      have hcount := hsent.count
      exact ⟨hsent, by omega⟩)
  refine ⟨x, r, hends, ?_⟩
  refine hends.invariant (Q := fun q => Written socket memory buffer bytesRequested q.1 q.2)
    hstart (fun x y hx hy => (hx.round hrequested hy).1) ?_
  intro z q hz hq
  by_cases hend : z.bytesTransferred = bytesRequested
  · obtain rfl := Sum.inr.inj ((round_done hend).symm.trans hq)
    exact hz.returns hlen hend
  · obtain ⟨answer, hoffered, ⟨e, rfl, he⟩ | ⟨n, -, -, -, hn⟩⟩ := hz.round_cases hrequested hend
    · obtain rfl := Sum.inr.inj (he.symm.trans hq)
      exact hz.throws hlen hoffered
    · cases hn.symm.trans hq

/-- Each address holds its own number. -/
def numbered : Memory := fun a => UInt8.ofNat a

/-- Five bytes, to a socket that takes two at a time. -/
theorem write_some_sends_five : ∃ x : Writing,
    Ends (TcpWrite.round 64 (.upTo 2) ⟨100, 5⟩ 5) start (x, .ok 5) ∧
      x.transfers = [(⟨100, 5⟩, .ok 2), (⟨102, 3⟩, .ok 2), (⟨104, 1⟩, .ok 1)] ∧
      accepted numbered x.transfers = [100, 101, 102, 103, 104] ∧
      Written (.upTo 2) numbered ⟨100, 5⟩ 5 x (.ok 5) := by
  obtain ⟨x, r, hends, hwritten⟩ :=
    write_some_sends 64 (.upTo 2) numbered ⟨100, 5⟩ 5 (by decide) (by decide)
  -- the four rounds, executed
  have hrun : Ends (TcpWrite.round 64 (.upTo 2) ⟨100, 5⟩ 5) start
      ({ bytesTransferred := 5
         transfers := [(⟨100, 5⟩, .ok 2), (⟨102, 3⟩, .ok 2), (⟨104, 1⟩, .ok 1)] }, .ok 5) :=
    ends_of_run (k := 4) rfl
  obtain ⟨rfl, rfl⟩ := Prod.mk.inj (hends.unique hrun)
  exact ⟨_, hrun, rfl, by decide, hwritten⟩

end

end Vee.Comm.TcpWrite
