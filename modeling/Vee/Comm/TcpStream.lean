import Mathlib.Logic.Function.Basic
import Vee.Lib.Transition

/- `vee::comm::ip::tcp::tcp_stream` (src/comm/tcp.cpp): connecting, moving and what it says
   its peer is.

   The socket is Boost.Asio's: it is open or not, may own a connection or be about to get
   one, and what it owns moves with it; closing it drops its connection, and the completion
   handler of a connect that is under way is then called with an error. `parse` is
   `address::from_string`. A stream's handlers are run one at a time, in any order. Where
   the program is stopped (`strcpy_s` of a text that does not fit, an exception out of a
   `noexcept` function) there is no step. -/
namespace Vee.Comm

/-- `ip_endpoint`; the text has room for 255 characters. -/
structure IpEndpoint where
  ip : String
  port : UInt16
  deriving DecidableEq, Repr

namespace IpEndpoint

/-- What `clear` leaves, and the constructor. -/
def cleared : IpEndpoint := { ip := "null", port := 0 }

/-- `set_value` -/
def setValue (ip : String) (port : UInt16) : Option IpEndpoint :=
  if ip.utf8ByteSize < 256 then some { ip := ip, port := port } else none

theorem setValue_eq {ip : String} {port : UInt16} {endpoint : IpEndpoint}
    (h : setValue ip port = some endpoint) : endpoint = { ip := ip, port := port } := by
  unfold setValue at h
  split at h
  · exact (Option.some.inj h).symm
  · cases h

end IpEndpoint

/-- The other end of a connection. -/
structure Peer (Addr : Type*) where
  addr : Addr
  port : UInt16
  deriving DecidableEq, Repr

universe u v

section
variable (I : Type u) {Addr : Type v} (parse : String → Option Addr)

/-- What the handler of an `async_connect` has captured: `this` and the endpoint, whose text is
an address. -/
structure Request where
  this : I
  ip : String
  port : UInt16
  addr : Addr
  parsed : parse ip = some addr

/-- A socket of Boost.Asio. -/
structure Socket where
  isOpen : Bool
  connection : Option (Peer Addr)
  /-- the connect that is under way -/
  connecting : Option (Request I parse)

/-- A completion handler that is to be run. -/
structure Handler where
  request : Request I parse
  isSuccess : Bool

/-- The members of a `tcp_stream` that its operations use. -/
structure TcpStream where
  socket : Socket I parse
  remoteEndpoint : IpEndpoint

end

variable {I : Type u} {Addr : Type v} {parse : String → Option Addr}

/-- The endpoint that was asked for. -/
def Request.peer (r : Request I parse) : Peer Addr := ⟨r.addr, r.port⟩

namespace Socket

/-- A socket that is not open. -/
def closed : Socket I parse := { isOpen := false, connection := none, connecting := none }

/-- The handler that closing the socket makes to be run. -/
def aborted (socket : Socket I parse) : List (Handler I parse) :=
  socket.connecting.toList.map fun request => ⟨request, false⟩

end Socket

/-- How a connect ends: with a connection, or without one and with the socket open or not. -/
inductive Outcome where
  | established
  | failed (isOpen : Bool)
  deriving DecidableEq, Repr

namespace TcpStream

/-- `tcp_stream(io_service&)` -/
def new : TcpStream I parse := { socket := .closed, remoteEndpoint := .cleared }

/-- `get_remote_endpoint` -/
def getRemoteEndpoint (t : TcpStream I parse) : IpEndpoint := t.remoteEndpoint

/-- `disconnect`, with the handlers it makes to be run. -/
def disconnect (t : TcpStream I parse) : TcpStream I parse × List (Handler I parse) :=
  ({ socket := .closed, remoteEndpoint := .cleared }, t.socket.aborted)

/-- `if (socket.is_open()) this->disconnect();` -/
def reset (t : TcpStream I parse) : TcpStream I parse × List (Handler I parse) :=
  if t.socket.isOpen then t.disconnect else (t, [])

/-- `connect`; it throws where the text is no address and where the connect fails. -/
def connect (t : TcpStream I parse) (ip : String) (port : UInt16) (outcome : Outcome) :
    Option (TcpStream I parse × List (Handler I parse)) :=
  match parse ip, outcome with
  | none, _ => some t.reset
  | some _, .failed isOpen =>
    some ({ t.reset.1 with socket := { isOpen := isOpen, connection := none, connecting := none } },
      t.reset.2)
  | some addr, .established =>
    (IpEndpoint.setValue ip port).map fun endpoint =>
      ({ socket := { isOpen := true, connection := some ⟨addr, port⟩, connecting := none }
         remoteEndpoint := endpoint }, t.reset.2)

/-- `async_connect` of the stream `this`; where the socket does not open the handler is to be
run at once. -/
def asyncConnect (this : I) (t : TcpStream I parse) (ip : String) (port : UInt16)
    (opened : Bool) : Option (TcpStream I parse × List (Handler I parse)) :=
  match h : parse ip with
  | none => none
  | some addr =>
    let request : Request I parse := ⟨this, ip, port, addr, h⟩
    if opened then
      some ({ t.reset.1 with
        socket := { isOpen := true, connection := none, connecting := some request } }, t.reset.2)
    else some (t.reset.1, t.reset.2 ++ [⟨request, false⟩])

end TcpStream

/-- The streams that are constructed, and the handlers that are to be run. -/
structure System (I : Type u) {Addr : Type v} (parse : String → Option Addr) where
  streams : I → Option (TcpStream I parse)
  handlers : List (Handler I parse)

/-- An operation on a stream, the end of a connect that is under way, or a handler's run. -/
inductive Action (I : Type*) where
  | construct (i : I)
  | connect (i : I) (ip : String) (port : UInt16) (outcome : Outcome)
  | disconnect (i : I)
  | asyncConnect (i : I) (ip : String) (port : UInt16) (opened : Bool)
  | complete (i : I) (isSuccess : Bool)
  | handle (k : Nat)
  | moveConstruct (i other : I)
  | moveAssign (i rhs : I)
  | swap (i other : I)
  deriving DecidableEq, Repr

namespace System

/-- No streams. -/
def init : System I parse := { streams := fun _ => none, handlers := [] }

variable [DecidableEq I] (s : System I parse)

/-- The state with stream `i` as given and the handlers `new` to be run. -/
def put (i : I) (t : TcpStream I parse) (new : List (Handler I parse)) : System I parse :=
  { streams := Function.update s.streams i (some t), handlers := s.handlers ++ new }

/-- The step of the streams. -/
def step : Action I → Option (System I parse)
  | .construct i =>
    match s.streams i with
    | none => some (s.put i .new [])
    | some _ => none
  | .connect i ip port outcome =>
    (s.streams i).bind fun t =>
      (t.connect ip port outcome).map fun r => s.put i r.1 r.2
  | .disconnect i => (s.streams i).map fun t => s.put i t.disconnect.1 t.disconnect.2
  | .asyncConnect i ip port opened =>
    (s.streams i).bind fun t =>
      (t.asyncConnect i ip port opened).map fun r => s.put i r.1 r.2
  | .complete i isSuccess =>
    (s.streams i).bind fun t => t.socket.connecting.map fun request =>
      s.put i { t with socket :=
        { isOpen := true
          connection := if isSuccess then some request.peer else none
          connecting := none } } [⟨request, isSuccess⟩]
  | .handle k =>
    s.handlers[k]?.bind fun h =>
      (IpEndpoint.setValue h.request.ip h.request.port).bind fun endpoint =>
        (s.streams h.request.this).map fun t =>
          { streams := if h.isSuccess then
              Function.update s.streams h.request.this (some { t with remoteEndpoint := endpoint })
              else s.streams
            handlers := s.handlers.eraseIdx k }
  -- the endpoint is not moved
  | .moveConstruct i other =>
    match s.streams i, s.streams other with
    | none, some t =>
      some ((s.put other { t with socket := .closed } []).put i
        { socket := t.socket, remoteEndpoint := .cleared } [])
    | _, _ => none
  | .moveAssign i rhs =>
    match s.streams i, s.streams rhs with
    | some t, some u =>
      -- a socket moved to itself is taken to stay as it is; Boost.Asio makes no promise of it
      if i = rhs then some s
      else some ((s.put rhs { u with socket := .closed } []).put i
        { t with socket := u.socket } t.socket.aborted)
    | _, _ => none
  | .swap i other =>
    match s.streams i, s.streams other with
    | some t, some u =>
      some ((s.put other { u with socket := t.socket } []).put i
        { t with socket := u.socket } [])
    | _, _ => none

end System

end Vee.Comm
