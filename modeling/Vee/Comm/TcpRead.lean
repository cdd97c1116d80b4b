import Mathlib.Order.Monotone.Basic
import Vee.Io.Port
import Vee.Lib.Loop

/- `tcp_stream::read_some` and `tcp_stream::read_explicit` (src/comm/tcp.cpp).

   `read_explicit` asks for `bytes_requested` each time and not for what is left, and moves the
   buffer by all that has been read so far each time and not by what has just been read. Its
   first read is where it should be, its second as well, and no other one is. How far the
   buffer has moved after some reads (`moved`) is the sum of the totals after each of them
   (`total`); `Fits` says with these numbers which answers of the socket it reads
   rightly (`read_explicit_iff`). -/
namespace Vee.Comm.TcpRead
open ByteMemory Io Loop

/-- What is done to the memory and to the capacity. -/
inductive Access where
  /-- `memset` -/
  | clear (ptr n : Nat)
  /-- the socket writes what it has received -/
  | fill (ptr n : Nat)
  /-- `buffer.capacity -= n` -/
  | lower (capacity n : Nat)
  deriving DecidableEq, Repr

/-- Nothing outside of the buffer is written, and no capacity is taken below zero. -/
def Access.Inside (buffer : Buffer) : Access → Prop
  | clear ptr n | fill ptr n => ∀ a, ptr ≤ a → a < ptr + n →
      buffer.ptr ≤ a ∧ a < buffer.ptr + buffer.capacity
  | lower capacity n => n ≤ capacity

/-- The loop between two rounds, with how often the socket has been asked and how many bytes of
the stream it has given. -/
structure Reading where
  memory : Memory
  buffer : Buffer
  bytesTransferred : Nat
  reads : Nat
  consumed : Nat
  log : List Access

/-- The loop before its first round. -/
def start (memory : Memory) (buffer : Buffer) : Reading :=
  { memory := memory, buffer := buffer, bytesTransferred := 0, reads := 0, consumed := 0
    log := [] }

namespace Reading

/-- The `memset` of `read_some`. -/
def clear (x : Reading) : Reading :=
  { x with
    memory := store x.memory x.buffer.ptr (List.replicate x.buffer.capacity 0)
    log := x.log ++ [.clear x.buffer.ptr x.buffer.capacity] }

/-- The socket has received `n` bytes. -/
def fill (stream : Memory) (x : Reading) (n : Nat) : Reading :=
  { x with
    memory := store x.memory x.buffer.ptr (load stream x.consumed n)
    reads := x.reads + 1
    consumed := x.consumed + n
    log := x.log ++ [.fill x.buffer.ptr n] }

/-- What `read_explicit` does after a read of `n` bytes, with `size_t` of `w` bits. -/
def moveOn (w : Nat) (x : Reading) (n : Nat) : Reading :=
  let bytesTransferred := sizeAdd w x.bytesTransferred n
  { x with
    bytesTransferred := bytesTransferred
    buffer :=
      { ptr := x.buffer.ptr + bytesTransferred
        capacity := sizeSub w x.buffer.capacity bytesTransferred }
    log := x.log ++ [.lower x.buffer.capacity bytesTransferred] }

end Reading

/-- `read_some` -/
def readSome (socket : Transfers) (stream : Memory) (x : Reading) (maximumReadBytes : Nat) :
    Reading × Except Exception Nat :=
  match socket.respond x.reads maximumReadBytes with
  | .error e => ({ x.clear with reads := x.reads + 1 }, .error e.exception)
  | .ok n => (x.clear.fill stream n, .ok n)

/-- One round of `read_explicit`. -/
def round (w : Nat) (socket : Transfers) (stream : Memory) (bytesRequested : Nat) (x : Reading) :
    Reading ⊕ Reading × Except Exception Nat :=
  if x.bytesTransferred < bytesRequested then
    match readSome socket stream x bytesRequested with
    | (x, .error e) => .inr (x, .error e)
    | (x, .ok n) => .inl (x.moveOn w n)
  else .inr (x, .ok x.bytesTransferred)

/-- What is expected of `read_explicit`: it stays inside of its buffer, and where it returns it
has read what was requested to where it was requested. -/
structure ReadsExactly (w : Nat) (socket : Transfers) (stream memory : Memory) (buffer : Buffer)
    (bytesRequested : Nat) : Prop where
  inside : ∀ x, Reaches (round w socket stream bytesRequested) (start memory buffer) x →
    ∀ e ∈ x.log, e.Inside buffer
  inside_end : ∀ x r, Ends (round w socket stream bytesRequested) (start memory buffer) (x, r) →
    ∀ e ∈ x.log, e.Inside buffer
  exactly : ∀ x n, Ends (round w socket stream bytesRequested) (start memory buffer) (x, .ok n) →
    n = bytesRequested ∧ x.consumed = bytesRequested ∧
      ∀ k < bytesRequested, x.memory (buffer.ptr + k) = stream k

section
variable (socket : Transfers) (bytesRequested : Nat)

/-- The bytes of the first reads, when `bytesRequested` are asked for each time. -/
def total : Nat → Nat
  | 0 => 0
  | i + 1 =>
    match socket.respond i bytesRequested with
    | .error _ => total i
    | .ok n => total i + n

/-- How far the buffer is moved by the first reads. -/
def moved : Nat → Nat
  | 0 => 0
  | i + 1 => moved i + total socket bytesRequested (i + 1)

theorem total_mono : Monotone (total socket bytesRequested) := by
  apply monotone_nat_of_le_succ
  intro i
  rw [total]
  split
  · exact le_rfl
  · exact Nat.le_add_right _ _

theorem moved_mono : Monotone (moved socket bytesRequested) :=
  monotone_nat_of_le_succ fun _ => Nat.le_add_right _ _

theorem total_le_moved : ∀ i, total socket bytesRequested i ≤ moved socket bytesRequested i
  | 0 => le_rfl
  | _ + 1 => Nat.le_add_left _ _

/-- The first two reads are put where they belong. -/
theorem moved_eq_total {i : Nat} (h : i ≤ 1) :
    moved socket bytesRequested i = total socket bytesRequested i := by
  rcases Nat.le_one_iff_eq_zero_or_eq_one.mp h with rfl | rfl
  · rfl
  · exact Nat.zero_add _

/-- The answers that `read_explicit` is right for. Each read that it makes and that succeeds
leaves the sum of the totals within the capacity; and one that completes the request completes
it exactly and is the first or the second. -/
def Fits (capacity : Nat) : Prop :=
  ∀ i, total socket bytesRequested i < bytesRequested →
    (∀ j ≤ i, ∃ n, socket.respond j bytesRequested = .ok n) →
      moved socket bytesRequested (i + 1) ≤ capacity ∧
        (bytesRequested ≤ total socket bytesRequested (i + 1) →
          total socket bytesRequested (i + 1) = bytesRequested ∧ i ≤ 1)

end

section
variable {w : Nat} {socket : Transfers} {stream memory : Memory} {buffer : Buffer}
  {bytesRequested i n : Nat} {x : Reading}

theorem total_succ (h : socket.respond i bytesRequested = .ok n) :
    total socket bytesRequested (i + 1) = total socket bytesRequested i + n := by
  rw [total, h]

theorem round_done (w : Nat) (socket : Transfers) (stream : Memory)
    (h : bytesRequested ≤ x.bytesTransferred) :
    round w socket stream bytesRequested x = .inr (x, .ok x.bytesTransferred) :=
  if_neg (Nat.not_lt.mpr h)

theorem round_ok (h : x.bytesTransferred < bytesRequested)
    (hn : socket.respond x.reads bytesRequested = .ok n) :
    round w socket stream bytesRequested x = .inl ((x.clear.fill stream n).moveOn w n) := by
  simp only [round, if_pos h, readSome, hn]

theorem round_error {e : ErrorCode} (h : x.bytesTransferred < bytesRequested)
    (he : socket.respond x.reads bytesRequested = .error e) :
    round w socket stream bytesRequested x =
      .inr ({ x.clear with reads := x.reads + 1 }, .error e.exception) := by
  simp only [round, if_pos h, readSome, he]

/-! ## The buffer after `read_some` -/

theorem fill_before {a : Nat} (h : a < x.buffer.ptr) :
    (x.clear.fill stream n).memory a = x.memory a := by
  refine (store_outside (.inl h)).trans ?_
  exact store_outside (.inl h)

theorem fill_inside (stream : Memory) (x : Reading) {k : Nat} (h : k < n) :
    (x.clear.fill stream n).memory (x.buffer.ptr + k) = stream (x.consumed + k) :=
  store_load stream x.consumed h

theorem fill_after (stream : Memory) (x : Reading) {k : Nat} (hn : n ≤ k)
    (hk : k < x.buffer.capacity) : (x.clear.fill stream n).memory (x.buffer.ptr + k) = 0 := by
  refine (store_outside (.inr ?_)).trans ?_
  · rw [length_load]
    exact Nat.add_le_add_left hn _
  · refine (store_inside (by rwa [List.length_replicate])).trans ?_
    exact List.getElem_replicate _

/-! ## Rounds that fit -/

/-- The loop after `i` reads, all of which have stayed inside of the buffer. -/
structure At (socket : Transfers) (stream : Memory) (buffer : Buffer) (bytesRequested i : Nat)
    (x : Reading) : Prop where
  reads : x.reads = i
  transferred : x.bytesTransferred = total socket bytesRequested i
  consumed : x.consumed = total socket bytesRequested i
  ptr : x.buffer.ptr = buffer.ptr + moved socket bytesRequested i
  capacity : x.buffer.capacity + moved socket bytesRequested i = buffer.capacity
  inside : ∀ e ∈ x.log, e.Inside buffer
  first : 1 ≤ i → 0 < total socket bytesRequested 1
  /-- two reads are put one behind the other -/
  placed : i ≤ 2 → ∀ k < total socket bytesRequested i, x.memory (buffer.ptr + k) = stream k
  /-- and nothing is put behind the second -/
  gap : 2 ≤ i → total socket bytesRequested 2 < buffer.capacity →
    x.memory (buffer.ptr + total socket bytesRequested 2) = 0

theorem at_start : At socket stream buffer bytesRequested 0 (start memory buffer) where
  reads := rfl
  transferred := rfl
  consumed := rfl
  ptr := rfl
  capacity := rfl
  inside := by
    intro e he
    cases he
  first h := absurd h (Nat.not_succ_le_zero 0)
  placed _ k hk := absurd hk (Nat.not_lt_zero k)
  gap h := absurd h (Nat.not_succ_le_zero 1)

/-- What a read and what follows it do to the log. -/
theorem log_moveOn : ((x.clear.fill stream n).moveOn w n).log = x.log ++
    [.clear x.buffer.ptr x.buffer.capacity, .fill x.buffer.ptr n,
      .lower x.buffer.capacity (sizeAdd w x.bytesTransferred n)] := by
  simp [Reading.clear, Reading.fill, Reading.moveOn]

theorem At.clear_inside (hx : At socket stream buffer bytesRequested i x) :
    (Access.clear x.buffer.ptr x.buffer.capacity).Inside buffer := by
  intro a hle hlt
  rw [hx.ptr] at hle hlt
  have hcapacity := hx.capacity
  omega

/-- The first read and the second are put one behind the other. -/
theorem At.fill_placed (hx : At socket stream buffer bytesRequested i x)
    (hn : socket.respond i bytesRequested = .ok n) (hi : i ≤ 1) {k : Nat}
    (hk : k < total socket bytesRequested (i + 1)) :
    (x.clear.fill stream n).memory (buffer.ptr + k) = stream k := by
  have htotal := total_succ hn
  have hptr := hx.ptr
  have heq := moved_eq_total socket bytesRequested hi
  by_cases hbefore : k < total socket bytesRequested i
  · rw [fill_before (by omega)]
    exact hx.placed (by omega) k hbefore
  · obtain ⟨d, rfl⟩ := Nat.exists_eq_add_of_le (Nat.le_of_not_lt hbefore)
    have hinside := fill_inside stream x (n := n) (k := d) (by omega)
    rwa [hptr, heq, hx.consumed, Nat.add_assoc] at hinside

/-- What the second read has cleared behind its bytes is not written by another one. -/
theorem At.fill_gap (hx : At socket stream buffer bytesRequested i x)
    (hn : socket.respond i bytesRequested = .ok n) (hi : 1 ≤ i)
    (hcap : total socket bytesRequested 2 < buffer.capacity) :
    (x.clear.fill stream n).memory (buffer.ptr + total socket bytesRequested 2) = 0 := by
  have hptr := hx.ptr
  have hcapacity := hx.capacity
  have heq := moved_eq_total socket bytesRequested (le_refl 1)
  by_cases hone : i = 1
  · subst hone
    have htotal : total socket bytesRequested 2 = total socket bytesRequested 1 + n :=
      total_succ hn
    have hafter := fill_after stream x (n := n) le_rfl (by omega)
    rwa [hptr, heq, Nat.add_assoc, ← htotal] at hafter
  · have hfirst := hx.first hi
    have htwo : moved socket bytesRequested 2 =
      moved socket bytesRequested 1 + total socket bytesRequested 2 := rfl
    have hmono := moved_mono socket bytesRequested (by omega : 2 ≤ i)
    rw [fill_before (by omega)]
    exact hx.gap (by omega) hcap

/-- A read that fits into what is left of the capacity is followed by the next round. -/
theorem At.next (hx : At socket stream buffer bytesRequested i x)
    (hsize : buffer.capacity < 2 ^ w) (hlt : total socket bytesRequested i < bytesRequested)
    (hn : socket.respond i bytesRequested = .ok n)
    (hfits : moved socket bytesRequested (i + 1) ≤ buffer.capacity) :
    At socket stream buffer bytesRequested (i + 1) ((x.clear.fill stream n).moveOn w n) := by
  have htotal := total_succ hn
  have hmoved : moved socket bytesRequested (i + 1) =
    moved socket bytesRequested i + total socket bytesRequested (i + 1) := rfl
  obtain ⟨hpos, -⟩ := socket.some_bytes (by omega) hn
  have hptr := hx.ptr
  have hcapacity := hx.capacity
  have hadd : sizeAdd w x.bytesTransferred n = total socket bytesRequested (i + 1) := by
    rw [hx.transferred, htotal]
    exact sizeAdd_of_lt (by omega)
  have hsub : sizeSub w x.buffer.capacity (total socket bytesRequested (i + 1)) =
      x.buffer.capacity - total socket bytesRequested (i + 1) := sizeSub_of_le (by omega) (by omega)
  constructor
  case reads => exact congrArg Nat.succ hx.reads
  case transferred => exact hadd
  case consumed =>
    show x.consumed + n = _
    rw [hx.consumed, htotal]
  case ptr =>
    show x.buffer.ptr + sizeAdd w x.bytesTransferred n = _
    rw [hadd, hptr, hmoved, Nat.add_assoc]
  case capacity =>
    show sizeSub w x.buffer.capacity (sizeAdd w x.bytesTransferred n) + _ = _
    rw [hadd, hsub]
    omega
  case inside =>
    intro e he
    rw [log_moveOn, List.mem_append] at he
    rcases he with he | he
    · exact hx.inside e he
    · simp only [List.mem_cons, List.not_mem_nil, or_false] at he
      rcases he with rfl | rfl | rfl
      · exact hx.clear_inside
      · intro a hle hlt
        have hbound := total_le_moved socket bytesRequested i
        omega
      · show sizeAdd w x.bytesTransferred n ≤ x.buffer.capacity
        omega
  case first =>
    intro _
    cases i with
    | zero =>
      rw [htotal]
      exact Nat.add_pos_right _ hpos
    | succ i => exact hx.first (Nat.succ_le_succ (Nat.zero_le i))
  case placed => exact fun hi k hk => hx.fill_placed hn (Nat.le_of_succ_le_succ hi) hk
  case gap => exact fun hi hcap => hx.fill_gap hn (Nat.le_of_succ_le_succ hi) hcap

/-- A read that has stayed inside of the buffer fits. -/
theorem At.fits (hx : At socket stream buffer bytesRequested i x)
    (hsize : buffer.capacity < 2 ^ w) (hlt : total socket bytesRequested i < bytesRequested)
    (hn : socket.respond i bytesRequested = .ok n)
    (hinside : ∀ e ∈ ((x.clear.fill stream n).moveOn w n).log, e.Inside buffer) :
    moved socket bytesRequested (i + 1) ≤ buffer.capacity := by
  have htotal := total_succ hn
  have hmoved : moved socket bytesRequested (i + 1) =
    moved socket bytesRequested i + total socket bytesRequested (i + 1) := rfl
  have hbound := total_le_moved socket bytesRequested i
  have hcapacity := hx.capacity
  have hptr := hx.ptr
  obtain ⟨hpos, -⟩ := socket.some_bytes (by omega) hn
  -- the last byte that was read, and what the capacity was lowered by
  have hlast : buffer.ptr ≤ x.buffer.ptr + (n - 1) ∧
      x.buffer.ptr + (n - 1) < buffer.ptr + buffer.capacity :=
    hinside (.fill x.buffer.ptr n) (by simp [log_moveOn]) _ (by omega) (by omega)
  have hlower : sizeAdd w x.bytesTransferred n ≤ x.buffer.capacity :=
    hinside (.lower x.buffer.capacity _) (by simp [log_moveOn])
  rw [hx.transferred, sizeAdd_of_lt (by omega)] at hlower
  omega

/-- As long as the loop stays inside of the buffer it is where the answers say. -/
theorem reaches_at (hsize : buffer.capacity < 2 ^ w)
    (hinside : ∀ x, Reaches (round w socket stream bytesRequested) (start memory buffer) x →
      ∀ e ∈ x.log, e.Inside buffer) :
    ∀ i, (∀ j < i, total socket bytesRequested j < bytesRequested ∧
        ∃ n, socket.respond j bytesRequested = .ok n) →
      ∃ x, Reaches (round w socket stream bytesRequested) (start memory buffer) x ∧
        At socket stream buffer bytesRequested i x
  | 0, _ => ⟨_, .refl, at_start⟩
  | i + 1, h => by
    obtain ⟨x, hreach, hx⟩ := reaches_at hsize hinside i fun j hj => h j (Nat.lt_succ_of_lt hj)
    obtain ⟨hlt, n, hn⟩ := h i (Nat.lt_succ_self i)
    have hround : round w socket stream bytesRequested x =
        .inl ((x.clear.fill stream n).moveOn w n) :=
      round_ok (by rwa [hx.transferred]) (by rwa [hx.reads])
    have hnext := hreach.tail hround
    exact ⟨_, hnext, hx.next hsize hlt hn (hx.fits hsize hlt hn (hinside _ hnext))⟩

/-- It reads exactly only where the answers fit. -/
theorem ReadsExactly.fits (hlen : bytesRequested ≤ buffer.capacity)
    (hsize : buffer.capacity < 2 ^ w)
    (h : ∀ stream, ReadsExactly w socket stream memory buffer bytesRequested) :
    Fits socket bytesRequested buffer.capacity := by
  intro i hlt hok
  -- a stream of ones shows what is left cleared
  have hones := h fun _ => 1
  obtain ⟨x, hreach, hx⟩ := reaches_at hsize hones.inside (i + 1) (by
    intro j hj
    have hmono := total_mono socket bytesRequested (Nat.le_of_lt_succ hj)
    exact ⟨by omega, hok j (Nat.le_of_lt_succ hj)⟩)
  have hcapacity := hx.capacity
  refine ⟨by omega, ?_⟩
  intro hend
  have hdone := round_done w socket (fun _ => 1)
    (by rwa [hx.transferred] : bytesRequested ≤ x.bytesTransferred)
  obtain ⟨hall, -, hbytes⟩ := hones.exactly x _ ⟨x, hreach, hdone⟩
  refine ⟨hx.transferred ▸ hall, ?_⟩
  by_contra hlate
  have hmono := total_mono socket bytesRequested (by omega : 2 ≤ i)
  have hcleared := hx.gap (by omega) (by omega)
  rw [hbytes _ (by omega)] at hcleared
  exact absurd hcleared (by decide)

/-- The loop is where the answers say, and all its reads have succeeded before the end. -/
def Passed (socket : Transfers) (stream : Memory) (buffer : Buffer) (bytesRequested : Nat)
    (x : Reading) : Prop :=
  ∃ i, At socket stream buffer bytesRequested i x ∧
    ∀ j < i, total socket bytesRequested j < bytesRequested ∧
      ∃ n, socket.respond j bytesRequested = .ok n

theorem passed_start : Passed socket stream buffer bytesRequested (start memory buffer) :=
  ⟨0, at_start, fun _ hj => absurd hj (Nat.not_lt_zero _)⟩

/-- Where the answers fit, a round leads to where they say. -/
theorem Passed.round (hx : Passed socket stream buffer bytesRequested x)
    (hsize : buffer.capacity < 2 ^ w) (hfits : Fits socket bytesRequested buffer.capacity)
    {y : Reading} (h : round w socket stream bytesRequested x = .inl y) :
    Passed socket stream buffer bytesRequested y := by
  obtain ⟨i, hat, hpast⟩ := hx
  by_cases hlt : x.bytesTransferred < bytesRequested
  · cases hanswer : socket.respond x.reads bytesRequested with
    | error e => cases (round_error hlt hanswer).symm.trans h
    | ok n =>
      obtain rfl := Sum.inl.inj ((round_ok hlt hanswer).symm.trans h)
      rw [hat.transferred] at hlt
      rw [hat.reads] at hanswer
      have hpast : ∀ j < i + 1, total socket bytesRequested j < bytesRequested ∧
          ∃ n, socket.respond j bytesRequested = .ok n := by
        intro j hj
        rcases Nat.lt_succ_iff_lt_or_eq.mp hj with hj | rfl
        · exact hpast j hj
        · exact ⟨hlt, n, hanswer⟩
      obtain ⟨hcap, -⟩ := hfits i hlt fun j hj => (hpast j (Nat.lt_succ_of_le hj)).2
      exact ⟨i + 1, hat.next hsize hlt hanswer hcap, hpast⟩
  · cases (round_done w socket stream (Nat.le_of_not_lt hlt)).symm.trans h

/-- Where the answers fit, what it returns has been read in one piece. -/
theorem Passed.exactly (hx : Passed socket stream buffer bytesRequested x)
    (hfits : Fits socket bytesRequested buffer.capacity)
    (hend : bytesRequested ≤ x.bytesTransferred) :
    x.bytesTransferred = bytesRequested ∧ x.consumed = bytesRequested ∧
      ∀ k < bytesRequested, x.memory (buffer.ptr + k) = stream k := by
  obtain ⟨i, hat, hpast⟩ := hx
  have hall : total socket bytesRequested i = bytesRequested ∧ i ≤ 2 := by
    rw [hat.transferred] at hend
    cases i with
    | zero => exact ⟨(Nat.eq_zero_of_le_zero hend).symm, Nat.zero_le 2⟩
    | succ i =>
      obtain ⟨hlt, -⟩ := hpast i (Nat.lt_succ_self i)
      obtain ⟨-, hlast⟩ := hfits i hlt fun j hj => (hpast j (Nat.lt_succ_of_le hj)).2
      obtain ⟨heq, hi⟩ := hlast hend
      exact ⟨heq, Nat.succ_le_succ hi⟩
  refine ⟨hat.transferred.trans hall.1, hat.consumed.trans hall.1, ?_⟩
  intro k hk
  exact hat.placed hall.2 k (by omega)

theorem Fits.readsExactly (hfits : Fits socket bytesRequested buffer.capacity)
    (hsize : buffer.capacity < 2 ^ w) :
    ReadsExactly w socket stream memory buffer bytesRequested := by
  have hkeep : ∀ x y, Passed socket stream buffer bytesRequested x →
      TcpRead.round w socket stream bytesRequested x = .inl y →
        Passed socket stream buffer bytesRequested y :=
    fun x y hx hy => hx.round hsize hfits hy
  -- the last round throws after it has cleared the buffer, or returns
  have hlast : ∀ x q, Passed socket stream buffer bytesRequested x →
      TcpRead.round w socket stream bytesRequested x = .inr q →
        (∀ e ∈ q.1.log, e.Inside buffer) ∧ ∀ n, q.2 = .ok n →
          n = bytesRequested ∧ q.1.consumed = bytesRequested ∧
            ∀ k < bytesRequested, q.1.memory (buffer.ptr + k) = stream k := by
    intro x q hx hq
    have ⟨i, hat, _⟩ := hx
    by_cases hlt : x.bytesTransferred < bytesRequested
    · cases hanswer : socket.respond x.reads bytesRequested with
      | error e =>
        obtain rfl := Sum.inr.inj ((round_error hlt hanswer).symm.trans hq)
        refine ⟨?_, fun n hn => by cases hn⟩
        intro e he
        rcases List.mem_append.mp he with he | he
        · exact hat.inside e he
        · obtain rfl := List.mem_singleton.mp he
          exact hat.clear_inside
      | ok n => cases (round_ok hlt hanswer).symm.trans hq
    · have hend := Nat.le_of_not_lt hlt
      obtain rfl := Sum.inr.inj ((round_done w socket stream hend).symm.trans hq)
      refine ⟨hat.inside, ?_⟩
      intro n hnone
      cases hnone
      exact hx.exactly hfits hend
  constructor
  case inside =>
    intro x hx
    obtain ⟨i, hat, -⟩ := hx.invariant passed_start hkeep
    exact hat.inside
  case inside_end =>
    intro x r hr
    exact (hr.invariant (Q := fun q => ∀ e ∈ q.1.log, e.Inside buffer) passed_start hkeep
      fun x q hx hq => (hlast x q hx hq).1)
  case exactly =>
    intro x n hr
    exact hr.invariant (Q := fun q => ∀ n, q.2 = .ok n → n = bytesRequested ∧
        q.1.consumed = bytesRequested ∧
          ∀ k < bytesRequested, q.1.memory (buffer.ptr + k) = stream k) passed_start hkeep
      (fun x q hx hq => (hlast x q hx hq).2) n rfl

/-- `read_explicit` reads every stream rightly if and only if the answers of the socket fit. -/
theorem read_explicit_iff (w : Nat) (socket : Transfers) (memory : Memory) (buffer : Buffer)
    (bytesRequested : Nat) (hlen : bytesRequested ≤ buffer.capacity)
    (hsize : buffer.capacity < 2 ^ w) :
    (∀ stream, ReadsExactly w socket stream memory buffer bytesRequested) ↔
      Fits socket bytesRequested buffer.capacity :=
  ⟨ReadsExactly.fits hlen hsize, fun h _ => h.readsExactly hsize⟩

/-- Two bytes in two reads, into a buffer with room for the first chunk twice and the second. -/
theorem read_explicit_iff_two_reads : Fits (.upTo 1) 2 3 ∧
    ∀ stream, ReadsExactly 64 (.upTo 1) stream (fun _ => 7) ⟨100, 3⟩ 2 := by
  have hfits : Fits (.upTo 1) 2 3 := by
    intro i hlt _
    match i with
    | 0 => exact ⟨by decide, fun hdone => absurd hdone (by decide)⟩
    | 1 => exact ⟨by decide, fun _ => ⟨rfl, le_rfl⟩⟩
    | i + 2 =>
      have hmono : total (.upTo 1) 2 2 ≤ total (.upTo 1) 2 (i + 2) :=
        total_mono (.upTo 1) 2 (Nat.le_add_left 2 i)
      exact absurd hlt (Nat.not_lt.mpr hmono)
  exact ⟨hfits, (read_explicit_iff 64 (.upTo 1) (fun _ => 7) ⟨100, 3⟩ 2 (by decide)
    (by decide)).mpr hfits⟩

/-- Two bytes in two reads: the capacity that is left is one, and it is lowered by two. -/
theorem capacity_below_zero :
    ∃ x, Ends (TcpRead.round 64 (.upTo 1) (fun _ => 1) 2) (start (fun _ => 7) ⟨100, 2⟩) (x, .ok 2) ∧
      ¬ ∀ e ∈ x.log, e.Inside ⟨100, 2⟩ := by
  refine ⟨_, ends_of_run (k := 3) rfl, ?_⟩
  intro hinside
  exact absurd (hinside (.lower 1 2) (by decide)) (by decide : ¬ 2 ≤ 1)

end

end Vee.Comm.TcpRead
