import Vee.Comm.TcpAsyncRead
import Vee.Comm.UdpStream
import Vee.Lib.Proactor

/- `udp_stream::async_read_from` (src/comm/udp.cpp), with the pool its endpoints are taken from.

   Each request takes a block of `udp_endpoint_pool` and constructs an endpoint there, which the
   socket sets to the sender of the datagram that answers the request. The handler reads it,
   sets `endpoint_out`, calls the callback and gives the block back when that returns; an
   exception out of the callback leaves it taken. Requests are made and completed, handlers
   run and callbacks return in any order, and a callback may make further requests. `malloc`
   finds a block that is not taken; where it finds none, no step is modelled. An access to a
   block that is not taken sets `wild`. The other asynchronous functions of a `udp_stream` have
   empty bodies. -/
namespace Vee.Comm.UdpAsync
open ByteMemory Io Proactor Transition TcpAsyncRead

universe u v w

/-- What the handler `on_read` has captured; `endpoint_out` is a variable of the caller. -/
structure Request (B O : Type u) (Callback : Type w) where
  buffer : Buffer
  bytesRequested : Nat
  callback : Callback
  endpointOut : O
  udpEndpointOut : B
  deriving DecidableEq, Repr

/-- What the socket says: a datagram, or an error. -/
abbrev Answer (Addr : Type v) := Except ErrorCode (Datagram Addr)

/-- A call of a callback, with what `endpoint_out` is then. -/
structure Call (B O : Type u) (Callback : Type w) where
  request : Request B O Callback
  result : AsyncIoResult Callback
  endpointOut : IpEndpoint
  deriving DecidableEq, Repr

/-- The endpoints in the pool's blocks that are taken, the caller's variables and memory, where
the requests are, which calls have been made, and the blocks that exceptions have left taken. -/
structure System (B O : Type u) (Addr : Type v) (Callback : Type w) where
  pool : B → Option (Peer Addr)
  endpoints : O → IpEndpoint
  memory : Memory
  queues : Queues (Request B O Callback) (Answer Addr)
  calls : List (Call B O Callback)
  lost : List B
  wild : Bool

/-- A request, with the block that `malloc` finds, the answer to the request at `k`, the run of
the handler at `k`, and the end of the callback called at `k`. -/
inductive Action (B O : Type u) (Addr : Type v) (Callback : Type w) where
  | asyncReadFrom (block : B) (buffer : Buffer) (bytesRequested : Nat) (callback : Callback)
      (endpointOut : O)
  | complete (k : Nat) (answer : Answer Addr)
  | handle (k : Nat)
  | finish (k : Nat) (throws : Bool)
  deriving DecidableEq

variable {B O : Type u} {Addr : Type v} {Callback : Type w}

/-- The issue for an error; a connection that was reset is not told apart. -/
def issue : ErrorCode → IoIssue
  | .eof => .eof
  | .connectionReset | .other => .unknown

/-- The result that `on_read` makes. -/
def onRead (r : Request B O Callback) : Answer Addr → AsyncIoResult Callback
  | .error e =>
    { isSuccess := false
      issue := issue e
      bytesTransferred := 0
      bytesRequested := 0
      buffer := r.buffer
      callback := r.callback }
  | .ok datagram =>
    { isSuccess := true
      issue := .null
      bytesTransferred := (datagram.bytes.take r.bytesRequested).length
      bytesRequested := 0
      buffer := r.buffer
      callback := r.callback }

namespace System

/-- Nothing is asked for and nothing is taken. -/
def init (endpoints : O → IpEndpoint) (memory : Memory) : System B O Addr Callback :=
  { pool := fun _ => none, endpoints := endpoints, memory := memory, queues := .empty, calls := [],
    lost := [], wild := false }

section
variable [DecidableEq B] [DecidableEq O] (text : Addr → String) (any : Addr)

/-- The socket is done with the request `r` at `k`: it sets the endpoint and stores what fits
into the buffer. -/
def complete (x : System B O Addr Callback) (k : Nat) (r : Request B O Callback) :
    Answer Addr → System B O Addr Callback
  | .error e => { x with queues := x.queues.complete k r (.error e) }
  | .ok datagram =>
    match x.pool r.udpEndpointOut with
    | none => { x with wild := true }
    | some _ =>
      { x with
        pool := Function.update x.pool r.udpEndpointOut (some datagram.sender)
        memory := store x.memory r.buffer.ptr (datagram.bytes.take r.bytesRequested)
        queues := x.queues.complete k r (.ok datagram) }

/-- `on_read` up to the call of the callback. -/
def handle (x : System B O Addr Callback) (k : Nat) (r : Request B O Callback)
    (answer : Answer Addr) : Option (System B O Addr Callback) :=
  match x.pool r.udpEndpointOut with
  | none => some { x with wild := true }
  | some peer =>
    (IpEndpoint.setValue (text peer.addr) peer.port).map fun endpoint =>
      { x with
        endpoints := Function.update x.endpoints r.endpointOut endpoint
        queues := x.queues.call k (r, answer)
        calls := x.calls ++ [⟨r, onRead r answer, endpoint⟩] }

/-- `on_read` from there on: the endpoint is destroyed and its block is given back. -/
def finish (x : System B O Addr Callback) (k : Nat) (r : Request B O Callback)
    (answer : Answer Addr) (throws : Bool) : System B O Addr Callback :=
  if throws then
    { x with queues := x.queues.finish k (r, answer), lost := x.lost ++ [r.udpEndpointOut] }
  else
    match x.pool r.udpEndpointOut with
    | none => { x with wild := true }
    | some _ =>
      { x with
        pool := Function.update x.pool r.udpEndpointOut none
        queues := x.queues.finish k (r, answer) }

/-- One step; where `strcpy_s` stops the program there is none. -/
def step (x : System B O Addr Callback) :
    Action B O Addr Callback → Option (System B O Addr Callback)
  | .asyncReadFrom block buffer bytesRequested callback endpointOut =>
    match x.pool block with
    | some _ => none
    | none =>
      some { x with
        pool := Function.update x.pool block (some ⟨any, 0⟩)
        queues := x.queues.start ⟨buffer, bytesRequested, callback, endpointOut, block⟩ }
  | .complete k answer => x.queues.waiting[k]?.map fun r => x.complete k r answer
  | .handle k => x.queues.ready[k]?.bind fun e => x.handle text k e.1 e.2
  | .finish k throws => x.queues.called[k]?.map fun e => x.finish k e.1 e.2 throws

end

end System

/-! ## What each callback is told -/

section
variable (text : Addr → String) (any : Addr)

/-- Whom the endpoint of a request stands for at its end. -/
def heard : Answer Addr → Peer Addr
  | .ok datagram => datagram.sender
  | .error _ => ⟨any, 0⟩

/-- The call for a request with its answer. -/
def callFor (e : Request B O Callback × Answer Addr) : Call B O Callback :=
  { request := e.1
    result := onRead e.1 e.2
    endpointOut := ⟨text (heard any e.2).addr, (heard any e.2).port⟩ }

/-- The requests are accounted for, the blocks that are taken are those of the requests that are
not done, each its own, and the lost ones, each endpoint is what its request's answer makes it,
and each call is the one for its request and answer. -/
structure Sound (pool : B → Option (Peer Addr))
    (q : Queues (Request B O Callback) (Answer Addr)) (calls : List (Call B O Callback))
    (lost : List B) : Prop where
  accounted : q.Accounted
  exclusive : q.Exclusive Request.udpEndpointOut
  taken : ∀ b, pool b ≠ none ↔ b ∈ q.live.map Request.udpEndpointOut ∨ b ∈ lost
  distinct : lost.Nodup
  apart : ∀ b ∈ q.live.map Request.udpEndpointOut, b ∉ lost
  waiting : ∀ r ∈ q.waiting, pool r.udpEndpointOut = some ⟨any, 0⟩
  ready : ∀ e ∈ q.ready, pool e.1.udpEndpointOut = some (heard any e.2)
  answers : calls.Perm ((q.called ++ q.done).map (callFor text any))

end

section
variable {text : Addr → String} {any : Addr} {pool : B → Option (Peer Addr)}
  {q : Queues (Request B O Callback) (Answer Addr)} {calls : List (Call B O Callback)}
  {lost : List B} {k : Nat} {r : Request B O Callback} {answer : Answer Addr}

theorem sound_empty : Sound text any (fun _ => none)
    (.empty : Queues (Request B O Callback) (Answer Addr)) [] [] where
  accounted := Queues.accounted_empty
  exclusive := List.nodup_nil
  taken b := by simp [Queues.live, Queues.empty]
  distinct := List.nodup_nil
  apart b hb := by simp [Queues.live, Queues.empty] at hb
  waiting r hr := by cases hr
  ready e he := by cases he
  answers := .nil

theorem Sound.taken_of_called (h : Sound text any pool q calls lost)
    (hk : q.called[k]? = some (r, answer)) : pool r.udpEndpointOut ≠ none := by
  refine (h.taken _).mpr (.inl (List.mem_map_of_mem ?_))
  have hcalled : (r, answer) ∈ q.ready ++ q.called :=
    List.mem_append_right _ (List.mem_of_getElem? hk)
  exact List.mem_append_right _ (List.mem_map_of_mem hcalled)

/-- A handler calls its callback. -/
theorem Sound.handle (h : Sound text any pool q calls lost)
    (hk : q.ready[k]? = some (r, answer)) :
    Sound text any pool (q.call k (r, answer)) (calls ++ [callFor text any (r, answer)]) lost := by
  have hmem : ∀ b, b ∈ (q.call k (r, answer)).live.map Request.udpEndpointOut ↔
      b ∈ q.live.map Request.udpEndpointOut := fun b =>
    ((Queues.live_call hk).map Request.udpEndpointOut).mem_iff
  constructor
  case accounted => exact h.accounted.call hk
  case exclusive => exact h.exclusive.call hk
  case taken =>
    intro b
    rw [hmem b]
    exact h.taken b
  case distinct => exact h.distinct
  case apart => exact fun b hb => h.apart b ((hmem b).mp hb)
  case waiting => exact h.waiting
  case ready => exact fun e he => h.ready e (List.mem_of_mem_eraseIdx he)
  case answers =>
    refine Queues.perm_of_count ?_
    intro _ c
    have hc := h.answers.count_eq c
    simp only [Queues.call, List.map_append, List.map_cons, List.map_nil, List.count_append]
      at hc ⊢
    omega

/-- The requests that are done have been called, in one place or the other. -/
theorem called_finish (hk : q.called[k]? = some (r, answer)) :
    (q.called ++ q.done).Perm
      ((q.finish k (r, answer)).called ++ (q.finish k (r, answer)).done) := by
  refine Queues.perm_of_count ?_
  intro _ e
  have he := (Queues.perm_eraseIdx hk).count_eq e
  rw [← List.singleton_append] at he
  simp only [Queues.finish, List.count_append] at he ⊢
  omega

variable [DecidableEq B]

/-- A request takes a block. -/
theorem Sound.asyncReadFrom (h : Sound text any pool q calls lost)
    (hfree : pool r.udpEndpointOut = none) :
    Sound text any (Function.update pool r.udpEndpointOut (some ⟨any, 0⟩)) (q.start r) calls
      lost := by
  have hno : ¬ (r.udpEndpointOut ∈ q.live.map Request.udpEndpointOut ∨
      r.udpEndpointOut ∈ lost) := fun hin => (h.taken _).mpr hin hfree
  obtain ⟨hlive, hlost⟩ := not_or.mp hno
  have hmem : ∀ b, b ∈ (q.start r).live.map Request.udpEndpointOut ↔
      b = r.udpEndpointOut ∨ b ∈ q.live.map Request.udpEndpointOut := fun b =>
    ((Queues.live_start q r).map Request.udpEndpointOut).mem_iff.trans List.mem_cons
  -- the other requests have other blocks
  have hother : ∀ s ∈ q.live, s.udpEndpointOut ≠ r.udpEndpointOut := by
    intro s hs heq
    exact hlive (heq ▸ List.mem_map_of_mem hs)
  constructor
  case accounted => exact h.accounted.start r
  case exclusive => exact h.exclusive.start hlive
  case taken =>
    intro b
    rw [hmem b, or_assoc, ← h.taken b]
    by_cases hb : b = r.udpEndpointOut
    · rw [hb, Function.update_self]
      simp
    · rw [Function.update_of_ne hb]
      simp [hb]
  case distinct => exact h.distinct
  case apart =>
    intro b hb
    rcases (hmem b).mp hb with rfl | hb
    · exact hlost
    · exact h.apart b hb
  case waiting =>
    intro s hs
    rcases List.mem_append.mp hs with hs | hs
    · rw [Function.update_of_ne (hother s (List.mem_append_left _ hs))]
      exact h.waiting s hs
    · obtain rfl := List.mem_singleton.mp hs
      exact Function.update_self ..
  case ready =>
    intro e he
    have hlive' : e.1 ∈ q.live :=
      List.mem_append_right _ (List.mem_map_of_mem (List.mem_append_left _ he))
    rw [Function.update_of_ne (hother e.1 hlive')]
    exact h.ready e he
  case answers => exact h.answers

/-- The socket is done with a request. -/
theorem Sound.complete (h : Sound text any pool q calls lost) (hk : q.waiting[k]? = some r)
    (answer : Answer Addr) :
    Sound text any (Function.update pool r.udpEndpointOut (some (heard any answer)))
      (q.complete k r answer) calls lost := by
  have hwaits := h.waiting r (List.mem_of_getElem? hk)
  have hmem : ∀ b, b ∈ (q.complete k r answer).live.map Request.udpEndpointOut ↔
      b ∈ q.live.map Request.udpEndpointOut := fun b =>
    ((Queues.live_complete hk answer).map Request.udpEndpointOut).mem_iff
  constructor
  case accounted => exact h.accounted.complete hk answer
  case exclusive => exact h.exclusive.complete hk answer
  case taken =>
    intro b
    rw [hmem b, ← h.taken b]
    by_cases hb : b = r.udpEndpointOut
    · rw [hb, Function.update_self, hwaits]
      simp
    · rw [Function.update_of_ne hb]
  case distinct => exact h.distinct
  case apart => exact fun b hb => h.apart b ((hmem b).mp hb)
  case waiting =>
    intro s hs
    rw [Function.update_of_ne (h.exclusive.others hk (.inl hs))]
    exact h.waiting s (List.mem_of_mem_eraseIdx hs)
  case ready =>
    intro e he
    rcases List.mem_append.mp he with he | he
    · have hne := h.exclusive.others hk (s := e.1)
        (.inr (List.mem_map_of_mem (List.mem_append_left _ he)))
      rw [Function.update_of_ne hne]
      exact h.ready e he
    · obtain rfl := List.mem_singleton.mp he
      exact Function.update_self ..
  case answers => exact h.answers

/-- A callback returns, and the block is given back. -/
theorem Sound.finish (h : Sound text any pool q calls lost)
    (hk : q.called[k]? = some (r, answer)) :
    Sound text any (Function.update pool r.udpEndpointOut none) (q.finish k (r, answer)) calls
      lost := by
  obtain ⟨hexclusive, hgone⟩ := h.exclusive.finish hk
  have hmem : ∀ b, b ∈ q.live.map Request.udpEndpointOut ↔
      b = r.udpEndpointOut ∨ b ∈ (q.finish k (r, answer)).live.map Request.udpEndpointOut :=
    fun b => ((Queues.live_finish hk).map Request.udpEndpointOut).mem_iff.trans List.mem_cons
  have hother : ∀ s ∈ (q.finish k (r, answer)).live, s.udpEndpointOut ≠ r.udpEndpointOut := by
    intro s hs heq
    exact hgone (heq ▸ List.mem_map_of_mem hs)
  constructor
  case accounted => exact h.accounted.finish hk
  case exclusive => exact hexclusive
  case taken =>
    intro b
    by_cases hb : b = r.udpEndpointOut
    · rw [hb, Function.update_self]
      have hlost := h.apart _ ((hmem r.udpEndpointOut).mpr (.inl rfl))
      simp [hgone, hlost]
    · rw [Function.update_of_ne hb, h.taken b, hmem b]
      simp [hb]
  case distinct => exact h.distinct
  case apart => exact fun b hb => h.apart b ((hmem b).mpr (.inr hb))
  case waiting =>
    intro s hs
    rw [Function.update_of_ne (hother s (List.mem_append_left _ hs))]
    exact h.waiting s hs
  case ready =>
    intro e he
    have hlive : e.1 ∈ (q.finish k (r, answer)).live :=
      List.mem_append_right _ (List.mem_map_of_mem (List.mem_append_left _ he))
    rw [Function.update_of_ne (hother e.1 hlive)]
    exact h.ready e he
  case answers => exact h.answers.trans ((called_finish hk).map _)

omit [DecidableEq B] in
/-- A callback throws, and the block stays taken. -/
theorem Sound.throws (h : Sound text any pool q calls lost)
    (hk : q.called[k]? = some (r, answer)) :
    Sound text any pool (q.finish k (r, answer)) calls (lost ++ [r.udpEndpointOut]) := by
  obtain ⟨hexclusive, hgone⟩ := h.exclusive.finish hk
  have hmem : ∀ b, b ∈ q.live.map Request.udpEndpointOut ↔
      b = r.udpEndpointOut ∨ b ∈ (q.finish k (r, answer)).live.map Request.udpEndpointOut :=
    fun b => ((Queues.live_finish hk).map Request.udpEndpointOut).mem_iff.trans List.mem_cons
  have hlost := h.apart _ ((hmem r.udpEndpointOut).mpr (.inl rfl))
  constructor
  case accounted => exact h.accounted.finish hk
  case exclusive => exact hexclusive
  case taken =>
    intro b
    rw [h.taken b, hmem b, List.mem_append, List.mem_singleton]
    tauto
  case distinct =>
    rw [List.nodup_append_comm, List.singleton_append]
    exact List.nodup_cons.mpr ⟨hlost, h.distinct⟩
  case apart =>
    intro b hb hin
    rcases List.mem_append.mp hin with hin | hin
    · exact h.apart b ((hmem b).mpr (.inr hb)) hin
    · obtain rfl := List.mem_singleton.mp hin
      exact hgone hb
  case waiting => exact h.waiting
  case ready => exact h.ready
  case answers => exact h.answers.trans ((called_finish hk).map _)

end

/-! ## Every run -/

section
variable [DecidableEq B] [DecidableEq O] {text : Addr → String} {any : Addr}
  {x x' : System B O Addr Callback}

/-- What holds of a stream, and no block has been used that was not taken. -/
def System.Tame (text : Addr → String) (any : Addr) (x : System B O Addr Callback) : Prop :=
  Sound text any x.pool x.queues x.calls x.lost ∧ x.wild = false

theorem System.Tame.step (h : x.Tame text any) {a : Action B O Addr Callback}
    (hs : x.step text any a = some x') : x'.Tame text any := by
  obtain ⟨hsound, hwild⟩ := h
  cases a with
  | asyncReadFrom block buffer n callback out =>
    simp only [System.step] at hs
    cases hfree : x.pool block with
    | some peer =>
      rw [hfree] at hs
      cases hs
    | none =>
      rw [hfree] at hs
      obtain rfl := Option.some.inj hs
      exact ⟨hsound.asyncReadFrom (r := ⟨buffer, n, callback, out, block⟩) hfree, hwild⟩
  | complete k answer =>
    obtain ⟨r, hk, rfl⟩ := Option.map_eq_some_iff.mp hs
    have hwaits := hsound.waiting r (List.mem_of_getElem? hk)
    have hnext := hsound.complete hk answer
    cases answer with
    | error e =>
      rw [heard, ← hwaits, Function.update_eq_self] at hnext
      exact ⟨hnext, hwild⟩
    | ok datagram =>
      simp only [System.complete, hwaits]
      exact ⟨hnext, hwild⟩
  | handle k =>
    obtain ⟨⟨r, answer⟩, hk, hhandle⟩ := Option.bind_eq_some_iff.mp hs
    have hready := hsound.ready _ (List.mem_of_getElem? hk)
    simp only [System.handle, hready] at hhandle
    obtain ⟨endpoint, hendpoint, rfl⟩ := Option.map_eq_some_iff.mp hhandle
    obtain rfl := IpEndpoint.setValue_eq hendpoint
    exact ⟨hsound.handle hk, hwild⟩
  | finish k throws =>
    obtain ⟨⟨r, answer⟩, hk, rfl⟩ := Option.map_eq_some_iff.mp hs
    cases throws with
    | true => exact ⟨hsound.throws hk, hwild⟩
    | false =>
      obtain ⟨peer, hpeer⟩ := Option.ne_none_iff_exists'.mp (hsound.taken_of_called hk)
      simp only [System.finish, Bool.false_eq_true, if_false, hpeer]
      exact ⟨hsound.finish hk, hwild⟩

theorem tame_run {endpoints : O → IpEndpoint} {memory : Memory}
    {tr : List (System B O Addr Callback × Action B O Addr Callback)}
    (h : Run (System.step text any) (System.init endpoints memory) tr x) : x.Tame text any :=
  h.invariant (C := fun _ _ => True) ⟨sound_empty, rfl⟩ (fun _ _ _ hx _ hs => hx.step hs)
    (fun _ _ => trivial)

/-- The callback that was called has thrown. -/
def Action.throws : Action B O Addr Callback → Bool
  | finish _ throws => throws
  | _ => false

/-- A step loses a block exactly if a callback throws. -/
theorem step_lost (h : x.Tame text any) {a : Action B O Addr Callback}
    (hs : x.step text any a = some x') :
    x'.lost.length = x.lost.length + if a.throws then 1 else 0 := by
  cases a with
  | asyncReadFrom block buffer n callback out =>
    simp only [System.step] at hs
    split at hs
    · cases hs
    · obtain rfl := Option.some.inj hs
      rfl
  | complete k answer =>
    obtain ⟨r, hk, rfl⟩ := Option.map_eq_some_iff.mp hs
    cases answer with
    | error e => rfl
    | ok datagram =>
      have hwaits := h.1.waiting r (List.mem_of_getElem? hk)
      simp only [System.complete, hwaits]
      rfl
  | handle k =>
    obtain ⟨⟨r, answer⟩, hk, hhandle⟩ := Option.bind_eq_some_iff.mp hs
    have hready := h.1.ready _ (List.mem_of_getElem? hk)
    simp only [System.handle, hready] at hhandle
    obtain ⟨endpoint, -, rfl⟩ := Option.map_eq_some_iff.mp hhandle
    rfl
  | finish k throws =>
    obtain ⟨⟨r, answer⟩, hk, rfl⟩ := Option.map_eq_some_iff.mp hs
    cases throws with
    | true => exact List.length_append
    | false =>
      obtain ⟨peer, hpeer⟩ := Option.ne_none_iff_exists'.mp (h.1.taken_of_called hk)
      simp only [System.finish, Bool.false_eq_true, if_false, hpeer]
      rfl

theorem lost_run {endpoints : O → IpEndpoint} {memory : Memory}
    {tr : List (System B O Addr Callback × Action B O Addr Callback)}
    (h : Run (System.step text any) (System.init endpoints memory) tr x) :
    x.lost.length = tr.countP fun p => p.2.throws := by
  induction h with
  | nil => rfl
  | snoc hrun hs ih =>
    rw [step_lost (tame_run hrun) hs, ih, List.countP_append, List.countP_singleton]

/-- **Asynchronous reads are answered once, and their endpoints are given back.** In every run,
whatever is requested, completed, called and returned in whatever order, each request that was
made waits, has its handler ready, or has had its callback called, once, with the result and the
sender of its own answer; the blocks that are taken are those of the requests that are not done,
each its own, and one for each callback that has thrown; and no block is used that is not
taken. -/
theorem async_reads_answered {endpoints : O → IpEndpoint} {memory : Memory}
    {tr : List (System B O Addr Callback × Action B O Addr Callback)}
    (h : Run (System.step text any) (System.init endpoints memory) tr x) :
    x.queues.started.Perm
        (x.queues.waiting ++ x.queues.ready.map Prod.fst ++ x.calls.map Call.request) ∧
      (∃ answered, x.queues.outcomes.Perm (x.queues.ready ++ answered) ∧
        x.calls.Perm (answered.map (callFor text any))) ∧
      (∀ b, x.pool b ≠ none ↔ b ∈ x.queues.live.map Request.udpEndpointOut ∨ b ∈ x.lost) ∧
      (x.queues.live.map Request.udpEndpointOut ++ x.lost).Nodup ∧
      x.lost.length = (tr.countP fun p => p.2.throws) ∧
      x.wild = false := by
  obtain ⟨hsound, hwild⟩ := tame_run h
  refine ⟨?_, ⟨_, hsound.accounted.outcomes, hsound.answers⟩, hsound.taken, ?_, lost_run h, hwild⟩
  · have hrequests : (x.calls.map Call.request).Perm
        ((x.queues.called ++ x.queues.done).map Prod.fst) := by
      have hmap := hsound.answers.map Call.request
      rwa [List.map_map] at hmap
    refine hsound.accounted.started.trans ?_
    rw [Queues.ended, List.map_append, List.append_assoc]
    exact .append_left _ (.append_left _ hrequests.symm)
  · refine List.nodup_append.mpr ⟨hsound.exclusive, hsound.distinct, ?_⟩
    intro b hb c hc heq
    exact hsound.apart b hb (heq ▸ hc)

end

/-! ## A concrete run -/

/-- Two requests whose datagrams come in the other order. The callback of the first makes a third
request, which is given the block of the second, and throws; the third one fails. -/
def crossed : List (Action Bool Bool Nat Nat) :=
  [.asyncReadFrom true ⟨0, 4⟩ 4 1 true, .asyncReadFrom false ⟨8, 4⟩ 4 2 false,
    .complete 1 (.ok ⟨⟨7, 70⟩, [1, 2]⟩), .complete 0 (.ok ⟨⟨5, 50⟩, [3]⟩), .handle 0, .handle 0,
    .finish 0 false, .asyncReadFrom false ⟨8, 4⟩ 4 2 false, .finish 0 true,
    .complete 0 (.error .eof), .handle 0]

theorem async_reads_answered_crossed :
    ∃ (tr : _) (x : System Bool Bool Nat Nat),
      Run (System.step Nat.repr 0) (System.init (fun _ => .cleared) fun _ => 0) tr x ∧
      tr.map Prod.snd = crossed ∧
      x.calls.map (fun c => (c.request.callback, c.result.isSuccess, c.endpointOut)) =
        [(2, true, ⟨"7", 70⟩), (1, true, ⟨"5", 50⟩), (2, false, ⟨"0", 0⟩)] ∧
      x.lost = [true] ∧ x.wild = false := by
  have hrun : ∃ (tr : _) (x : System Bool Bool Nat Nat),
      Run (System.step Nat.repr 0) (System.init (fun _ => .cleared) fun _ => 0) tr x ∧
      tr.map Prod.snd = crossed ∧
      (x.calls.map (fun c => (c.request.callback, c.result.isSuccess, c.endpointOut)) =
        [(2, true, ⟨"7", 70⟩), (1, true, ⟨"5", 50⟩), (2, false, ⟨"0", 0⟩)] ∧
      x.lost = [true]) :=
    Run.of_exec_any _ (by decide)
  obtain ⟨tr, x, hr, ha, hcalls, hlost⟩ := hrun
  exact ⟨tr, x, hr, ha, hcalls, hlost, (async_reads_answered hr).2.2.2.2.2⟩

end Vee.Comm.UdpAsync
