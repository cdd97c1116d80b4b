import Vee.Comm.TcpStream
import Vee.Io.Port

/- `vee::comm::ip::udp::udp_stream` (src/comm/udp.cpp): where datagrams are sent and what it
   says its peer is.

   The other end is kept twice, as the endpoint that datagrams are sent to and as the text
   that `get_remote_endpoint` returns. `parse` and `text` are `address::from_string` and
   `address::to_string`, `any` is the address of an endpoint that has been given none. What a
   socket receives or refuses is part of the action. Where the program is stopped there
   is no step. The log keeps what has been mapped, received and sent. -/
namespace Vee.Comm
open ByteMemory Io

universe v

/-- A datagram that has come in. -/
structure Datagram (Addr : Type v) where
  sender : Peer Addr
  bytes : List UInt8
  deriving DecidableEq, Repr

/-- The members of a `udp_stream` that its operations use. -/
structure UdpStream (Addr : Type v) where
  remoteEndpointCache : IpEndpoint
  remoteEndpoint : Peer Addr
  deriving DecidableEq, Repr

namespace UdpStream

variable {Addr : Type v}

/-- `udp_stream(io_service&)` -/
def new (any : Addr) : UdpStream Addr :=
  { remoteEndpointCache := .cleared, remoteEndpoint := ⟨any, 0⟩ }

/-- `update_remote_endpoint` -/
def updateRemoteEndpoint (text : Addr → String) (_ : UdpStream Addr) (endpoint : Peer Addr) :
    Option (UdpStream Addr) :=
  (IpEndpoint.setValue (text endpoint.addr) endpoint.port).map fun cache =>
    { remoteEndpointCache := cache, remoteEndpoint := endpoint }

/-- `udp_stream(io_service&, udp_socket&&)`, by what `socket.remote_endpoint` says. -/
def ofSocket (text : Addr → String) (any : Addr) (remote : Option (Peer Addr)) :
    Option (UdpStream Addr) :=
  match remote with
  | none => some (new any)
  | some endpoint => (new any).updateRemoteEndpoint text endpoint

/-- `map_remote_endpoint` of a text and a port. -/
def mapRemoteEndpoint (parse : String → Option Addr) (t : UdpStream Addr) (ip : String)
    (port : UInt16) : Option (UdpStream Addr) :=
  (parse ip).map fun addr => { t with remoteEndpoint := ⟨addr, port⟩ }

/-- `get_remote_endpoint` -/
def getRemoteEndpoint (t : UdpStream Addr) : IpEndpoint := t.remoteEndpointCache

end UdpStream

namespace Udp

/-- What an operation has done. -/
inductive Event (Addr : Type v) where
  /-- the endpoint to send to has been given, by `map_remote_endpoint` or at construction -/
  | mapped (endpoint : Peer Addr)
  /-- a datagram has been received, and `endpoint_out` is this -/
  | received (datagram : Datagram Addr) (endpointOut : IpEndpoint)
  | sent (bytes : List UInt8) (dest : Peer Addr)
  | threw
  deriving DecidableEq, Repr

/-- A stream, its caller's memory, and what has been done. -/
structure System (Addr : Type v) where
  stream : UdpStream Addr
  memory : Memory
  log : List (Event Addr)

/-- A call, and what the socket answers: a datagram or none, or whether it sends. -/
inductive Action (Addr : Type v) where
  | mapRemoteEndpoint (ip : String) (port : UInt16)
  | mapRemoteEndpointOf (endpoint : IpEndpoint)
  | readFrom (buffer : Buffer) (maximumReadBytes : Nat) (endpointOut : IpEndpoint)
      (answer : Option (Datagram Addr))
  | readSome (buffer : Buffer) (maximumReadBytes : Nat) (answer : Option (Datagram Addr))
  | readExplicit (buffer : Buffer) (bytesRequested : Nat) (answer : Option (Datagram Addr))
  | writeTo (buffer : Buffer) (bytesRequested : Nat) (endpoint : IpEndpoint) (sends : Bool)
  | writeSome (buffer : Buffer) (bytesRequested : Nat) (sends : Bool)

namespace System

variable {Addr : Type v}

/-- A stream that has just been constructed. -/
def init (t : UdpStream Addr) (memory : Memory) : System Addr :=
  { stream := t, memory := memory, log := [.mapped t.remoteEndpoint] }

/-- The state with one more event. -/
def emit (s : System Addr) (e : Event Addr) : System Addr := { s with log := s.log ++ [e] }

/-- The state after a stream's `map_remote_endpoint`. -/
def mapped (s : System Addr) (t : UdpStream Addr) : System Addr :=
  { s with stream := t }.emit (.mapped t.remoteEndpoint)

/-- `read_from`: the sender goes to `remote_endpoint`, and `endpoint_out` is as it was. What
does not fit into the buffer is cut off. -/
def readFrom (s : System Addr) (buffer : Buffer) (maximumReadBytes : Nat)
    (endpointOut : IpEndpoint) : Option (Datagram Addr) → System Addr
  | none => s.emit .threw
  | some datagram =>
    { s with
      stream := { s.stream with remoteEndpoint := datagram.sender }
      memory := store s.memory buffer.ptr (datagram.bytes.take maximumReadBytes) }.emit
        (.received datagram endpointOut)

/-- `write_to`: the endpoint it is given is not used. -/
def writeTo (s : System Addr) (buffer : Buffer) (bytesRequested : Nat) (_ : IpEndpoint)
    (sends : Bool) : System Addr :=
  if sends then
    s.emit (.sent (load s.memory buffer.ptr bytesRequested) s.stream.remoteEndpoint)
  else s.emit .threw

/-- The step of the stream. -/
def step (parse : String → Option Addr) (s : System Addr) : Action Addr → Option (System Addr)
  | .mapRemoteEndpoint ip port => (s.stream.mapRemoteEndpoint parse ip port).map s.mapped
  | .mapRemoteEndpointOf endpoint =>
    (s.stream.mapRemoteEndpoint parse endpoint.ip endpoint.port).map s.mapped
  | .readFrom buffer maximumReadBytes endpointOut answer =>
    some (s.readFrom buffer maximumReadBytes endpointOut answer)
  | .readSome buffer maximumReadBytes answer =>
    some (s.readFrom buffer maximumReadBytes .cleared answer)
  | .readExplicit buffer bytesRequested answer =>
    some (s.readFrom buffer bytesRequested .cleared answer)
  | .writeTo buffer bytesRequested endpoint sends =>
    some (s.writeTo buffer bytesRequested endpoint sends)
  | .writeSome buffer bytesRequested sends =>
    some (s.writeTo buffer bytesRequested s.stream.remoteEndpointCache sends)

end System

/-- The endpoint that an action gives the stream: a mapped one or the sender of a datagram. -/
def Action.endpoint {Addr : Type v} (parse : String → Option Addr) :
    Action Addr → Option (Peer Addr)
  | mapRemoteEndpoint ip port => (parse ip).map fun addr => ⟨addr, port⟩
  | mapRemoteEndpointOf endpoint => (parse endpoint.ip).map fun addr => ⟨addr, endpoint.port⟩
  | readFrom _ _ _ answer | readSome _ _ answer | readExplicit _ _ answer =>
    answer.map Datagram.sender
  | writeTo .. | writeSome .. => none

/-! ## What a step does -/

section
variable {Addr : Type v} {parse : String → Option Addr} {s s' : System Addr} {a : Action Addr}

/-- A step leaves the cache, and takes the endpoint it is given. -/
theorem step_stream (h : s.step parse a = some s') :
    s'.stream = { s.stream with
      remoteEndpoint := (a.endpoint parse).getD s.stream.remoteEndpoint } := by
  -- what reading does is the same for its callers
  have hread : ∀ buffer n out (answer : Option (Datagram Addr)),
      (s.readFrom buffer n out answer).stream = { s.stream with
        remoteEndpoint := (answer.map Datagram.sender).getD s.stream.remoteEndpoint } := by
    intro buffer n out answer
    cases answer <;> rfl
  have hwrite : ∀ buffer n endpoint sends,
      (s.writeTo buffer n endpoint sends).stream = s.stream := by
    intro buffer n endpoint sends
    cases sends <;> rfl
  have hmap : ∀ ip port, (s.stream.mapRemoteEndpoint parse ip port).map s.mapped = some s' →
      s'.stream = { s.stream with remoteEndpoint :=
        ((parse ip).map fun addr => (⟨addr, port⟩ : Peer Addr)).getD s.stream.remoteEndpoint } := by
    intro ip port h
    obtain ⟨t, ht, rfl⟩ := Option.map_eq_some_iff.mp h
    obtain ⟨addr, haddr, rfl⟩ := Option.map_eq_some_iff.mp ht
    rw [haddr]
    rfl
  cases a with
  | mapRemoteEndpoint ip port => exact hmap ip port h
  | mapRemoteEndpointOf endpoint => exact hmap endpoint.ip endpoint.port h
  | readFrom buffer n out answer | readSome buffer n answer | readExplicit buffer n answer =>
    obtain rfl := Option.some.inj h
    exact hread buffer n _ answer
  | writeTo buffer n endpoint sends =>
    obtain rfl := Option.some.inj h
    exact hwrite buffer n endpoint sends
  | writeSome buffer n sends =>
    obtain rfl := Option.some.inj h
    exact hwrite buffer n _ sends

end

end Udp

end Vee.Comm
