import Vee.Comm.TcpPeer
import Vee.Lib.Proactor

/- `vee::comm::ip::tcp::tcp_server` (src/comm/tcp.cpp): accepting connections.

   The acceptor is Boost.Asio's and is shown by a number of its own; moving a server moves it,
   and closing it ends the requests that wait there. A handler has captured the server that
   was asked: with a connection it reads the server's `io_service` to make the session, and
   a read from a server that has been destroyed sets `wild`. Handlers are run one at a time,
   in any order, and a callback is only called. A constructor that throws makes no
   server; where the program is stopped there is no step. -/
namespace Vee.Comm

universe u v w

section
variable {I : Type u} {Addr : Type v} {parse : String → Option Addr}

/-- `tcp_stream(io_service&, tcp_socket&&)` of a connected socket; `known` is whether
`socket.remote_endpoint` can say the other end. -/
def TcpStream.ofSocket (text : Addr → String) (peer : Peer Addr) (known : Bool) :
    Option (TcpStream I parse) :=
  let socket : Socket I parse := { isOpen := true, connection := some peer, connecting := none }
  if known then
    (IpEndpoint.setValue (text peer.addr) peer.port).map fun endpoint =>
      { socket := socket, remoteEndpoint := endpoint }
  else some { socket := socket, remoteEndpoint := .cleared }

end

namespace TcpServer
open Proactor Transition

/-- What Boost.Asio says. -/
structure Asio (Addr : Type v) where
  text : Addr → String
  success : String
  aborted : String
  badDescriptor : String

/-- A connection that comes in, and whether its socket can say the other end. -/
structure Connection (Addr : Type v) where
  peer : Peer Addr
  known : Bool
  deriving DecidableEq, Repr

/-- What `on_accept` has captured, and the acceptor that was asked. -/
structure Request (I : Type u) (Callback : Type w) where
  this : I
  acceptor : Option Nat
  callback : Callback
  deriving DecidableEq, Repr

/-- A connection, or the message of an error. -/
abbrev Outcome (Addr : Type v) := Except String (Connection Addr)

section
variable (I : Type u) {Addr : Type v} (parse : String → Option Addr) (Callback : Type w)

/-- `async_accept_result` -/
structure AsyncAcceptResult where
  isSuccess : Bool
  serverPtr : I
  session : Option (TcpStream I parse)
  message : String
  callback : Callback

/-- A call of a callback. -/
structure Call where
  request : Request I Callback
  result : AsyncAcceptResult I parse Callback

/-- The acceptors of the servers that are constructed, where the requests are, which calls have
been made and which sessions `accept` has returned, and the connections that have come in. -/
structure System where
  servers : I → Option (Option Nat)
  next : Nat
  queues : Queues (Request I Callback) (Outcome Addr)
  calls : List (Call I parse Callback)
  returned : List (TcpStream I parse)
  connections : List (Connection Addr)
  wild : Bool

end

/-- An operation on a server, the end of the request that waits at `k`, or a handler's run. -/
inductive Action (I : Type u) (Addr : Type v) (Callback : Type w) where
  | construct (i : I)
  | moveConstruct (i other : I)
  | close (i : I)
  | destroy (i : I)
  | accept (i : I) (outcome : Outcome Addr)
  | asyncAccept (i : I) (callback : Callback)
  | complete (k : Nat) (outcome : Outcome Addr)
  | handle (k : Nat)
  deriving DecidableEq

variable {I : Type u} {Addr : Type v} {parse : String → Option Addr} {Callback : Type w}

namespace System

/-- No servers. -/
def init : System I parse Callback :=
  { servers := fun _ => none, next := 0, queues := .empty, calls := [], returned := [],
    connections := [], wild := false }

variable [DecidableEq I] (asio : Asio Addr)

/-- `close` of a server with the acceptor `acceptor`. -/
def close (x : System I parse Callback) (i : I) : Option Nat → System I parse Callback
  | none => x
  | some a =>
    { x with
      servers := Function.update x.servers i (some none)
      queues := x.queues.abort (fun r => r.acceptor = some a) (.error asio.aborted) }

/-- `accept`: it throws where the acceptor is closed and where it fails. -/
def accept (x : System I parse Callback) (acceptor : Option Nat) :
    Outcome Addr → Option (System I parse Callback)
  | .error _ => some x
  | .ok connection =>
    match acceptor with
    | none => some x
    | some _ =>
      (TcpStream.ofSocket asio.text connection.peer connection.known).map fun session =>
        { x with
          returned := x.returned ++ [session]
          connections := x.connections ++ [connection] }

/-- `on_accept` -/
def handle (x : System I parse Callback) (k : Nat) (r : Request I Callback) :
    Outcome Addr → Option (System I parse Callback)
  | .error message =>
    some { x with
      queues := x.queues.call k (r, .error message)
      calls := x.calls ++ [{ request := r
                             result := { isSuccess := false
                                         serverPtr := r.this
                                         session := none
                                         message := message
                                         callback := r.callback } }] }
  | .ok connection =>
    match x.servers r.this with
    | none => some { x with wild := true }
    | some _ =>
      (TcpStream.ofSocket asio.text connection.peer connection.known).map fun session =>
        { x with
          queues := x.queues.call k (r, .ok connection)
          calls := x.calls ++ [{ request := r
                                 result := { isSuccess := true
                                             serverPtr := r.this
                                             session := some session
                                             message := asio.success
                                             callback := r.callback } }] }

/-- The step of the servers. -/
def step (x : System I parse Callback) :
    Action I Addr Callback → Option (System I parse Callback)
  | .construct i =>
    match x.servers i with
    | some _ => none
    | none =>
      some { x with
        servers := Function.update x.servers i (some (some x.next))
        next := x.next + 1 }
  | .moveConstruct i other =>
    match x.servers i, x.servers other with
    | none, some acceptor =>
      some { x with
        servers := Function.update (Function.update x.servers other (some none)) i
          (some acceptor) }
    | _, _ => none
  | .close i => (x.servers i).map fun acceptor => x.close asio i acceptor
  -- the destructor closes
  | .destroy i => (x.servers i).map fun acceptor =>
    { x.close asio i acceptor with servers := Function.update x.servers i none }
  | .accept i outcome => (x.servers i).bind fun acceptor => x.accept asio acceptor outcome
  | .asyncAccept i callback => (x.servers i).map fun acceptor =>
    match acceptor with
    | none =>
      { x with queues := x.queues.refuse ⟨i, none, callback⟩ (.error asio.badDescriptor) }
    | some a => { x with queues := x.queues.start ⟨i, some a, callback⟩ }
  | .complete k outcome => x.queues.waiting[k]?.map fun r =>
    { x with
      queues := x.queues.complete k r outcome
      connections := x.connections ++ outcome.toOption.toList }
  | .handle k => x.queues.ready[k]?.bind fun e => x.handle asio k e.1 e.2

/-- A server is destroyed only where it has nothing to do for a connection: none that it was
asked for is at a handler, and no request that it was asked for waits at another acceptor. -/
def Outlives (x : System I parse Callback) : Action I Addr Callback → Prop
  | .destroy i =>
    (∀ e ∈ x.queues.ready, e.1.this = i → e.2.toOption.isNone) ∧
      ∀ r ∈ x.queues.waiting, r.this = i → r.acceptor.isSome ∧ x.servers i = some r.acceptor
  | _ => True

end System

/-! ## What each callback is told -/

section
variable (asio : Asio Addr)

/-- The session for a connection. -/
def session (connection : Connection Addr) : TcpStream I parse :=
  { socket := { isOpen := true, connection := some connection.peer, connecting := none }
    remoteEndpoint :=
      if connection.known then ⟨asio.text connection.peer.addr, connection.peer.port⟩
      else .cleared }

/-- The call for a request with its outcome. -/
def callFor (e : Request I Callback × Outcome Addr) : Call I parse Callback :=
  { request := e.1
    result :=
      match e.2 with
      | .error message =>
        { isSuccess := false, serverPtr := e.1.this, session := none, message := message,
          callback := e.1.callback }
      | .ok connection =>
        { isSuccess := true, serverPtr := e.1.this, session := some (session asio connection),
          message := asio.success, callback := e.1.callback } }

end

/-- The connections that requests have ended with. -/
def connectionsOf (l : List (Request I Callback × Outcome Addr)) : List (Connection Addr) :=
  l.filterMap fun e => e.2.toOption

/-- Each request has one call to come or made, the one for its outcome, and each connection one
session to come or made. -/
structure Books (asio : Asio Addr) (q : Queues (Request I Callback) (Outcome Addr))
    (calls : List (Call I parse Callback)) (returned : List (TcpStream I parse))
    (connections : List (Connection Addr)) : Prop where
  accounted : q.Accounted
  notOver : q.done = []
  answers : calls.Perm (q.called.map (callFor asio))
  sessions : (connections.map (session asio)).Perm
    ((connectionsOf (q.ready ++ q.called)).map (session asio) ++ returned)

/-- Each request that waits does so at the open acceptor of a server. -/
def Attended (servers : I → Option (Option Nat))
    (q : Queues (Request I Callback) (Outcome Addr)) : Prop :=
  ∀ r ∈ q.waiting, ∃ i a, r.acceptor = some a ∧ servers i = some (some a)

/-- The server that was asked has not been destroyed, as long as it may be read. -/
structure Alive (servers : I → Option (Option Nat))
    (q : Queues (Request I Callback) (Outcome Addr)) : Prop where
  waiting : ∀ r ∈ q.waiting, servers r.this ≠ none
  ready : ∀ e ∈ q.ready, ∀ connection, e.2 = .ok connection → servers e.1.this ≠ none

section
variable {asio : Asio Addr} {q : Queues (Request I Callback) (Outcome Addr)}
  {calls : List (Call I parse Callback)} {returned : List (TcpStream I parse)}
  {connections : List (Connection Addr)} {servers : I → Option (Option Nat)} {k : Nat}
  {r : Request I Callback} {outcome : Outcome Addr}

theorem ofSocket_eq {t : TcpStream I parse} {connection : Connection Addr}
    (h : TcpStream.ofSocket asio.text connection.peer connection.known = some t) :
    t = session asio connection := by
  unfold TcpStream.ofSocket at h
  unfold session
  cases hknown : connection.known with
  | false =>
    rw [hknown] at h
    exact (Option.some.inj h).symm
  | true =>
    rw [hknown] at h
    obtain ⟨endpoint, hendpoint, rfl⟩ := Option.map_eq_some_iff.mp h
    obtain rfl := IpEndpoint.setValue_eq hendpoint
    rfl

/-- A session whose socket can say its other end reports it. -/
theorem session_reported (hround : ∀ addr, parse (asio.text addr) = some addr)
    {connection : Connection Addr} (h : connection.known = true) :
    (session asio connection : TcpStream I parse).Reported := by
  have hends : (session asio connection : TcpStream I parse).remoteEndpoint =
      ⟨asio.text connection.peer.addr, connection.peer.port⟩ := if_pos h
  rw [TcpStream.reported_some rfl, hends]
  exact ⟨hround connection.peer.addr, rfl⟩

theorem connectionsOf_append (l l' : List (Request I Callback × Outcome Addr)) :
    connectionsOf (l ++ l') = connectionsOf l ++ connectionsOf l' :=
  List.filterMap_append

theorem connectionsOf_single (r : Request I Callback) (outcome : Outcome Addr) :
    connectionsOf [(r, outcome)] = outcome.toOption.toList := by
  cases outcome with
  | error message => rfl
  | ok connection => rfl

/-- Requests that are aborted end without a connection. -/
theorem connectionsOf_errors (l : List (Request I Callback)) (message : String) :
    connectionsOf (l.map fun r => (r, (.error message : Outcome Addr))) = [] := by
  unfold connectionsOf
  rw [List.filterMap_map]
  exact List.filterMap_eq_nil_iff.mpr fun _ _ => rfl

/-! ## The books -/

theorem books_empty : Books asio (.empty : Queues (Request I Callback) (Outcome Addr))
    ([] : List (Call I parse Callback)) [] [] :=
  ⟨Queues.accounted_empty, rfl, .nil, .nil⟩

theorem Books.start (h : Books asio q calls returned connections) (r : Request I Callback) :
    Books asio (q.start r) calls returned connections :=
  ⟨h.accounted.start r, h.notOver, h.answers, h.sessions⟩

/-- What becomes of the books where outcomes come in that are no connections but `new`. -/
theorem sessions_ready (h : Books asio q calls returned connections)
    (l : List (Request I Callback × Outcome Addr)) {new : List (Connection Addr)}
    (hnew : connectionsOf l = new) :
    ((connections ++ new).map (session asio)).Perm
      ((connectionsOf ((q.ready ++ l) ++ q.called)).map (session asio) ++ returned) := by
  refine Queues.perm_of_count ?_
  intro _ t
  have ht := h.sessions.count_eq t
  simp only [connectionsOf_append, hnew, List.map_append, List.count_append] at ht ⊢
  omega

theorem Books.refuse (h : Books asio q calls returned connections) (r : Request I Callback)
    (message : String) : Books asio (q.refuse r (.error message)) calls returned connections := by
  have hsessions := sessions_ready h [(r, .error message)] (connectionsOf_single r _)
  rw [show (Except.error message : Outcome Addr).toOption.toList = [] from rfl,
    List.append_nil] at hsessions
  exact ⟨h.accounted.refuse r _, h.notOver, h.answers, hsessions⟩

theorem Books.abort (h : Books asio q calls returned connections) (p : Request I Callback → Bool)
    (message : String) : Books asio (q.abort p (.error message)) calls returned connections := by
  have hsessions := sessions_ready h _ (connectionsOf_errors (q.waiting.filter p) message)
  rw [List.append_nil] at hsessions
  exact ⟨h.accounted.abort p _, h.notOver, h.answers, hsessions⟩

theorem Books.complete (h : Books asio q calls returned connections)
    (hk : q.waiting[k]? = some r) (outcome : Outcome Addr) :
    Books asio (q.complete k r outcome) calls returned
      (connections ++ outcome.toOption.toList) :=
  ⟨h.accounted.complete hk outcome, h.notOver, h.answers,
    sessions_ready h [(r, outcome)] (connectionsOf_single r outcome)⟩

theorem Books.accept (h : Books asio q calls returned connections)
    (connection : Connection Addr) :
    Books asio q calls (returned ++ [session asio connection]) (connections ++ [connection]) := by
  refine ⟨h.accounted, h.notOver, h.answers, ?_⟩
  rw [List.map_append, ← List.append_assoc]
  exact h.sessions.append_right _

theorem Books.call (h : Books asio q calls returned connections)
    (hk : q.ready[k]? = some (r, outcome)) :
    Books asio (q.call k (r, outcome)) (calls ++ [callFor asio (r, outcome)]) returned
      connections := by
  refine ⟨h.accounted.call hk, h.notOver, ?_, ?_⟩
  · rw [Queues.call, List.map_append]
    exact h.answers.append_right _
  · have hmoved : (q.ready ++ q.called).Perm
        ((q.call k (r, outcome)).ready ++ (q.call k (r, outcome)).called) := by
      refine Queues.perm_of_count ?_
      intro _ e
      have he := (Queues.perm_eraseIdx hk).count_eq e
      rw [← List.singleton_append] at he
      simp only [Queues.call, List.count_append] at he ⊢
      omega
    exact h.sessions.trans (((hmoved.filterMap _).map _).append_right _)

/-! ## Who attends to a request that waits -/

variable {q' : Queues (Request I Callback) (Outcome Addr)} {i other : I}

/-- No request waits at an acceptor whose requests have been aborted. -/
theorem abort_waiting {a : Nat} {message : String} (hi : servers i = some (some a)) :
    ∀ r ∈ (q.abort (fun r => r.acceptor = some a) (.error message)).waiting,
      r ∈ q.waiting ∧ ∀ b, servers i = some (some b) → r.acceptor ≠ some b := by
  intro r hr
  obtain ⟨hmem, hnot⟩ := List.mem_filter.mp hr
  refine ⟨hmem, ?_⟩
  intro b hb
  obtain rfl : a = b := Option.some.inj (Option.some.inj (hi.symm.trans hb))
  simpa using hnot

/-- No request waits at a closed acceptor. -/
theorem closed_waiting (hi : servers i = some none) :
    ∀ r ∈ q.waiting, r ∈ q.waiting ∧ ∀ b, servers i = some (some b) → r.acceptor ≠ some b := by
  intro r hr
  refine ⟨hr, ?_⟩
  intro b hb
  rw [hi] at hb
  cases hb

variable [DecidableEq I]

/-- A server is changed, and no request waits at the acceptor it had. -/
theorem Attended.update (h : Attended servers q) (v : Option (Option Nat))
    (hwaits : ∀ r ∈ q'.waiting, r ∈ q.waiting ∧ ∀ a, servers i = some (some a) →
      r.acceptor ≠ some a) : Attended (Function.update servers i v) q' := by
  intro r hr
  obtain ⟨hold, hnot⟩ := hwaits r hr
  obtain ⟨j, a, hacceptor, hj⟩ := h r hold
  have hji : j ≠ i := by
    intro heq
    exact hnot a (heq ▸ hj) hacceptor
  exact ⟨j, a, hacceptor, by rw [Function.update_of_ne hji, hj]⟩

/-- A server is moved, and its acceptor with it. -/
theorem Attended.move (h : Attended servers q) (hi : servers i = none)
    {acceptor : Option Nat} (hother : servers other = some acceptor) :
    Attended (Function.update (Function.update servers other (some none)) i (some acceptor)) q := by
  intro r hr
  obtain ⟨j, a, hacceptor, hj⟩ := h r hr
  by_cases hjo : j = other
  · have hsame : acceptor = some a := by
      rw [hjo, hother] at hj
      exact Option.some.inj hj
    exact ⟨i, a, hacceptor, by rw [Function.update_self, hsame]⟩
  · have hji : j ≠ i := by
      intro heq
      rw [heq, hi] at hj
      cases hj
    exact ⟨j, a, hacceptor, by rw [Function.update_of_ne hji, Function.update_of_ne hjo, hj]⟩

/-! ## Which servers may be read -/

omit [DecidableEq I] in
theorem alive_empty :
    Alive (fun _ => none) (.empty : Queues (Request I Callback) (Outcome Addr)) where
  waiting r hr := by cases hr
  ready e he := by cases he

theorem Alive.update (h : Alive servers q) (acceptor : Option Nat) :
    Alive (Function.update servers i (some acceptor)) q := by
  have hstill : ∀ j, servers j ≠ none → Function.update servers i (some acceptor) j ≠ none := by
    intro j hj
    by_cases hji : j = i
    · rw [hji, Function.update_self]
      simp
    · rwa [Function.update_of_ne hji]
  exact ⟨fun r hr => hstill _ (h.waiting r hr), fun e he c hc => hstill _ (h.ready e he c hc)⟩

omit [DecidableEq I] in
theorem Alive.abort (h : Alive servers q) (p : Request I Callback → Bool) (message : String) :
    Alive servers (q.abort p (.error message)) := by
  refine ⟨fun r hr => h.waiting r (List.mem_of_mem_filter hr), ?_⟩
  intro e he connection hok
  rcases List.mem_append.mp he with he | he
  · exact h.ready e he connection hok
  · obtain ⟨r, -, rfl⟩ := List.mem_map.mp he
    cases hok

/-- A server is destroyed that is not to be read any more. -/
theorem Alive.destroy (h : Alive servers q) (hwaiting : ∀ r ∈ q.waiting, r.this ≠ i)
    (hready : ∀ e ∈ q.ready, e.1.this = i → e.2.toOption.isNone) :
    Alive (Function.update servers i none) q := by
  constructor
  case waiting =>
    intro r hr
    rw [Function.update_of_ne (hwaiting r hr)]
    exact h.waiting r hr
  case ready =>
    intro e he connection hok
    have hne : e.1.this ≠ i := by
      intro heq
      have hnone := hready e he heq
      rw [hok] at hnone
      cases hnone
    rw [Function.update_of_ne hne]
    exact h.ready e he connection hok

omit [DecidableEq I] in
theorem Alive.complete (h : Alive servers q) (hk : q.waiting[k]? = some r)
    (outcome : Outcome Addr) : Alive servers (q.complete k r outcome) := by
  refine ⟨fun s hs => h.waiting s (List.mem_of_mem_eraseIdx hs), ?_⟩
  intro e he connection hok
  rcases List.mem_append.mp he with he | he
  · exact h.ready e he connection hok
  · obtain rfl := List.mem_singleton.mp he
    exact h.waiting r (List.mem_of_getElem? hk)

omit [DecidableEq I] in
theorem Alive.call (h : Alive servers q) (e : Request I Callback × Outcome Addr) :
    Alive servers (q.call k e) :=
  ⟨h.waiting, fun f hf => h.ready f (List.mem_of_mem_eraseIdx hf)⟩

end

/-! ## Every run -/

section
variable {asio : Asio Addr} {x x' : System I parse Callback}

/-- What holds of the servers in every state. -/
structure System.Sound (asio : Asio Addr) (x : System I parse Callback) : Prop where
  books : Books asio x.queues x.calls x.returned x.connections
  attended : Attended x.servers x.queues

theorem sound_init : (System.init : System I parse Callback).Sound asio :=
  ⟨books_empty, fun r hr => by cases hr⟩

variable [DecidableEq I]

theorem System.Sound.step (h : x.Sound asio) {a : Action I Addr Callback}
    (hs : x.step asio a = some x') : x'.Sound asio := by
  obtain ⟨hbooks, hattended⟩ := h
  cases a with
  | construct i =>
    simp only [System.step] at hs
    cases hi : x.servers i with
    | some acceptor =>
      rw [hi] at hs
      cases hs
    | none =>
      rw [hi] at hs
      obtain rfl := Option.some.inj hs
      exact ⟨hbooks, hattended.update _ fun r hr => ⟨hr, fun b hb => by simp [hi] at hb⟩⟩
  | moveConstruct i other =>
    simp only [System.step] at hs
    cases hi : x.servers i with
    | some acceptor =>
      rw [hi] at hs
      cases hs
    | none =>
      cases hother : x.servers other with
      | none =>
        rw [hi, hother] at hs
        cases hs
      | some acceptor =>
        rw [hi, hother] at hs
        obtain rfl := Option.some.inj hs
        exact ⟨hbooks, hattended.move hi hother⟩
  | close i =>
    obtain ⟨acceptor, hi, rfl⟩ := Option.map_eq_some_iff.mp hs
    cases acceptor with
    | none => exact ⟨hbooks, hattended⟩
    | some a => exact ⟨hbooks.abort _ _, hattended.update _ (abort_waiting hi)⟩
  | destroy i =>
    obtain ⟨acceptor, hi, rfl⟩ := Option.map_eq_some_iff.mp hs
    cases acceptor with
    | none => exact ⟨hbooks, hattended.update _ (closed_waiting hi)⟩
    | some a => exact ⟨hbooks.abort _ _, hattended.update _ (abort_waiting hi)⟩
  | accept i outcome =>
    obtain ⟨acceptor, -, haccept⟩ := Option.bind_eq_some_iff.mp hs
    cases outcome with
    | error message =>
      obtain rfl := Option.some.inj haccept
      exact ⟨hbooks, hattended⟩
    | ok connection =>
      cases acceptor with
      | none =>
        obtain rfl := Option.some.inj haccept
        exact ⟨hbooks, hattended⟩
      | some a =>
        obtain ⟨t, ht, rfl⟩ := Option.map_eq_some_iff.mp haccept
        obtain rfl := ofSocket_eq ht
        exact ⟨hbooks.accept connection, hattended⟩
  | asyncAccept i callback =>
    obtain ⟨acceptor, hi, rfl⟩ := Option.map_eq_some_iff.mp hs
    cases acceptor with
    | none => exact ⟨hbooks.refuse _ _, hattended⟩
    | some a =>
      refine ⟨hbooks.start _, ?_⟩
      intro r hr
      rcases List.mem_append.mp hr with hr | hr
      · exact hattended r hr
      · obtain rfl := List.mem_singleton.mp hr
        exact ⟨i, a, rfl, hi⟩
  | complete k outcome =>
    obtain ⟨r, hk, rfl⟩ := Option.map_eq_some_iff.mp hs
    exact ⟨hbooks.complete hk outcome, fun s hs => hattended s (List.mem_of_mem_eraseIdx hs)⟩
  | handle k =>
    obtain ⟨⟨r, outcome⟩, hk, hhandle⟩ := Option.bind_eq_some_iff.mp hs
    cases outcome with
    | error message =>
      obtain rfl := Option.some.inj hhandle
      exact ⟨hbooks.call hk, hattended⟩
    | ok connection =>
      simp only [System.handle] at hhandle
      split at hhandle
      · obtain rfl := Option.some.inj hhandle
        exact ⟨hbooks, hattended⟩
      · obtain ⟨t, ht, rfl⟩ := Option.map_eq_some_iff.mp hhandle
        obtain rfl := ofSocket_eq ht
        exact ⟨hbooks.call hk, hattended⟩

/-- A step that destroys no server too early reads none that has been destroyed. -/
theorem System.alive_step (h : Alive x.servers x.queues ∧ x.wild = false)
    {a : Action I Addr Callback} (ha : x.Outlives a) (hs : x.step asio a = some x') :
    Alive x'.servers x'.queues ∧ x'.wild = false := by
  obtain ⟨halive, hwild⟩ := h
  cases a with
  | construct i =>
    simp only [System.step] at hs
    split at hs
    · cases hs
    · obtain rfl := Option.some.inj hs
      exact ⟨halive.update _, hwild⟩
  | moveConstruct i other =>
    simp only [System.step] at hs
    split at hs
    · obtain rfl := Option.some.inj hs
      exact ⟨(halive.update _).update _, hwild⟩
    · cases hs
  | close i =>
    obtain ⟨acceptor, -, rfl⟩ := Option.map_eq_some_iff.mp hs
    cases acceptor with
    | none => exact ⟨halive, hwild⟩
    | some a => exact ⟨(halive.abort _ _).update _, hwild⟩
  | destroy i =>
    obtain ⟨hready, hwaiting⟩ := ha
    obtain ⟨acceptor, hi, rfl⟩ := Option.map_eq_some_iff.mp hs
    cases acceptor with
    | none =>
      refine ⟨halive.destroy ?_ hready, hwild⟩
      intro r hr hthis
      obtain ⟨hsome, hopen⟩ := hwaiting r hr hthis
      rw [hi] at hopen
      rw [← Option.some.inj hopen] at hsome
      cases hsome
    | some a =>
      refine ⟨(halive.abort _ _).destroy ?_ ?_, hwild⟩
      · -- a request that the server was asked for is among those that are aborted
        intro r hr hthis
        obtain ⟨hmem, hnot⟩ := abort_waiting hi r hr
        obtain ⟨hsome, hopen⟩ := hwaiting r hmem hthis
        obtain ⟨b, hacceptor⟩ := Option.isSome_iff_exists.mp hsome
        exact hnot b (hacceptor ▸ hopen) hacceptor
      · intro e he hthis
        rcases List.mem_append.mp he with he | he
        · exact hready e he hthis
        · obtain ⟨r, -, rfl⟩ := List.mem_map.mp he
          rfl
  | accept i outcome =>
    obtain ⟨acceptor, -, haccept⟩ := Option.bind_eq_some_iff.mp hs
    cases outcome with
    | error message =>
      obtain rfl := Option.some.inj haccept
      exact ⟨halive, hwild⟩
    | ok connection =>
      cases acceptor with
      | none =>
        obtain rfl := Option.some.inj haccept
        exact ⟨halive, hwild⟩
      | some a =>
        obtain ⟨t, -, rfl⟩ := Option.map_eq_some_iff.mp haccept
        exact ⟨halive, hwild⟩
  | asyncAccept i callback =>
    obtain ⟨acceptor, hi, rfl⟩ := Option.map_eq_some_iff.mp hs
    cases acceptor with
    | none =>
      refine ⟨⟨halive.waiting, ?_⟩, hwild⟩
      intro e he connection hok
      rcases List.mem_append.mp he with he | he
      · exact halive.ready e he connection hok
      · obtain rfl := List.mem_singleton.mp he
        cases hok
    | some a =>
      refine ⟨⟨?_, halive.ready⟩, hwild⟩
      intro r hr
      rcases List.mem_append.mp hr with hr | hr
      · exact halive.waiting r hr
      · obtain rfl := List.mem_singleton.mp hr
        exact Option.ne_none_iff_exists'.mpr ⟨_, hi⟩
  | complete k outcome =>
    obtain ⟨r, hk, rfl⟩ := Option.map_eq_some_iff.mp hs
    exact ⟨halive.complete hk outcome, hwild⟩
  | handle k =>
    obtain ⟨⟨r, outcome⟩, hk, hhandle⟩ := Option.bind_eq_some_iff.mp hs
    cases outcome with
    | error message =>
      obtain rfl := Option.some.inj hhandle
      exact ⟨halive.call _, hwild⟩
    | ok connection =>
      obtain ⟨acceptor, hthis⟩ := Option.ne_none_iff_exists'.mp
        (halive.ready _ (List.mem_of_getElem? hk) connection rfl)
      simp only [System.handle, hthis] at hhandle
      obtain ⟨t, -, rfl⟩ := Option.map_eq_some_iff.mp hhandle
      exact ⟨halive.call _, hwild⟩

/-- **Every accept is answered once, and every connection becomes one session.** In every run of
any number of servers, constructed, moved, closed and destroyed in any order, each request of
`async_accept` waits, has its handler ready, or has had its callback called, once, as its
outcome has it; each connection that has come in is at a handler that is ready or is the
session of one callback or of one `accept`, which reports its other end where the socket can say
it; no request waits unless its acceptor is open; and no destroyed server is read as long as
none is destroyed too early. -/
theorem accepts_answered (hround : ∀ addr, parse (asio.text addr) = some addr)
    {tr : List (System I parse Callback × Action I Addr Callback)}
    (h : Run (System.step asio) System.init tr x) :
    x.queues.started.Perm
        (x.queues.waiting ++ x.queues.ready.map Prod.fst ++ x.calls.map Call.request) ∧
      (∃ answered, x.queues.outcomes.Perm (x.queues.ready ++ answered) ∧
        x.calls.Perm (answered.map (callFor asio))) ∧
      (x.connections.map (session asio)).Perm
        ((connectionsOf x.queues.ready).map (session asio) ++
          x.calls.filterMap (fun c => c.result.session) ++ x.returned) ∧
      (∀ connection ∈ x.connections, connection.known = true →
        (session asio connection : TcpStream I parse).Reported) ∧
      Attended x.servers x.queues ∧
      (Meets System.Outlives tr → x.wild = false) := by
  obtain ⟨hbooks, hattended⟩ : x.Sound asio :=
    h.invariant (C := fun _ _ => True) sound_init (fun _ _ _ hx _ hs => hx.step hs)
      (fun _ _ => trivial)
  refine ⟨?_, ⟨_, ?_, hbooks.answers⟩, ?_, fun c _ hc => session_reported hround hc, hattended, ?_⟩
  · have hrequests : (x.calls.map Call.request).Perm (x.queues.called.map Prod.fst) := by
      have hmap := hbooks.answers.map Call.request
      rwa [List.map_map] at hmap
    refine hbooks.accounted.started.trans ?_
    rw [Queues.ended, hbooks.notOver, List.append_nil, List.map_append, List.append_assoc]
    exact .append_left _ (.append_left _ hrequests.symm)
  · have houtcomes := hbooks.accounted.outcomes
    rwa [Queues.ended, hbooks.notOver, List.append_nil] at houtcomes
  · have hmade : (x.calls.filterMap fun c => c.result.session).Perm
        ((connectionsOf x.queues.called).map (session asio)) := by
      have hcalls := hbooks.answers.filterMap fun c => c.result.session
      rw [List.filterMap_map] at hcalls
      refine hcalls.trans (.of_eq ?_)
      rw [connectionsOf, List.map_filterMap]
      congr 1
      funext e
      obtain ⟨r, outcome⟩ := e
      cases outcome with
      | error message => rfl
      | ok connection => rfl
    refine hbooks.sessions.trans ?_
    rw [connectionsOf_append, List.map_append]
    exact (List.Perm.append_left _ hmade.symm).append_right _
  · intro houtlives
    exact (h.invariant (I := fun x => Alive x.servers x.queues ∧ x.wild = false)
      ⟨alive_empty, rfl⟩ (fun _ _ _ hx ha hs => System.alive_step hx ha hs) houtlives).2

instance (x : System I parse Callback) : ∀ a, Decidable (x.Outlives a)
  | .destroy i => inferInstanceAs (Decidable
      ((∀ e ∈ x.queues.ready, e.1.this = i → e.2.toOption.isNone) ∧
        ∀ r ∈ x.queues.waiting, r.this = i → r.acceptor.isSome ∧ x.servers i = some r.acceptor))
  | .construct .. | .moveConstruct .. | .close .. | .accept .. | .asyncAccept .. | .complete ..
  | .handle .. => isTrue trivial

end

/-! ## Concrete runs -/

/-- Two addresses. -/
def twoEnds : String → Option Bool
  | "10.0.0.1" => some false
  | "10.0.0.2" => some true
  | _ => none

/-- What is said of them. -/
def plainAsio : Asio Bool where
  text addr := if addr then "10.0.0.2" else "10.0.0.1"
  success := "success"
  aborted := "aborted"
  badDescriptor := "bad descriptor"

/-- Two requests, of which the second gets a connection; one `accept`; the acceptor is moved to
another server and closed, a request is refused, and the handlers run after the servers. -/
def movedServer : List (Action Bool Bool Nat) :=
  [.construct true, .asyncAccept true 1, .asyncAccept true 2, .complete 1 (.ok ⟨⟨true, 80⟩, true⟩),
    .handle 0, .accept true (.ok ⟨⟨false, 90⟩, false⟩), .moveConstruct false true, .close false,
    .asyncAccept true 3, .destroy true, .destroy false, .handle 0, .handle 0]

theorem accepts_answered_moved : ∃ (tr : _) (x : System Bool twoEnds Nat),
    Run (System.step plainAsio) System.init tr x ∧ tr.map Prod.snd = movedServer ∧
      x.calls.map (fun c => (c.request.callback, c.result.message)) =
        [(2, "success"), (1, "aborted"), (3, "bad descriptor")] ∧
      x.returned.length = 1 ∧ x.wild = false := by
  have hrun : ∃ (tr : _) (x : System Bool twoEnds Nat),
      Run (System.step plainAsio) System.init tr x ∧ Meets System.Outlives tr ∧
        tr.map Prod.snd = movedServer ∧
        (x.calls.map (fun c => (c.request.callback, c.result.message)) =
          [(2, "success"), (1, "aborted"), (3, "bad descriptor")] ∧ x.returned.length = 1) :=
    Run.of_execMeets_any _ (by decide)
  obtain ⟨tr, x, hr, houtlives, ha, hcalls, hreturned⟩ := hrun
  have hround : ∀ addr, twoEnds (plainAsio.text addr) = some addr := by decide
  exact ⟨tr, x, hr, ha, hcalls, hreturned,
    (accepts_answered hround hr).2.2.2.2.2 houtlives⟩

/-- A server is destroyed while the handler of a connection is to be run. -/
example : ∃ (tr : _) (x : System Bool twoEnds Nat),
    Run (System.step plainAsio) System.init tr x ∧
      tr.map Prod.snd = [.construct true, .asyncAccept true 1,
        .complete 0 (.ok ⟨⟨true, 80⟩, true⟩), .destroy true, .handle 0] ∧ x.wild = true :=
  Run.of_exec_any _ (by decide)

end TcpServer

end Vee.Comm
