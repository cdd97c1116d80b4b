import Vee.Comm.TcpStream

/- Whether a `tcp_stream` says the peer its socket is connected to.

   The endpoint is a second copy of what the socket knows. `connect`, `disconnect` and the
   handler of `async_connect` write it; moving and swapping move the socket and leave it,
   and the handler writes it in the stream that has called `async_connect`, whatever has
   become of its socket. Where the sockets that are moved own no connection, those that are
   swapped own the same, and a connect succeeds and is handled on the stream that has
   called for it (`Follows`), a stream says its socket's peer unless a handler is still to
   say it (`Followed`). -/
namespace Vee.Comm
open Transition

universe u v

variable {I : Type u} {Addr : Type v} {parse : String → Option Addr}

/-- The endpoint is the address and port of the connection the socket owns, or cleared. -/
def TcpStream.Reported (t : TcpStream I parse) : Prop :=
  match t.socket.connection with
  | some peer =>
    parse t.getRemoteEndpoint.ip = some peer.addr ∧ t.getRemoteEndpoint.port = peer.port
  | none => t.getRemoteEndpoint = .cleared

namespace System

/-- The connection of a stream's socket. -/
def connection (s : System I parse) (i : I) : Option (Peer Addr) :=
  (s.streams i).bind fun t => t.socket.connection

/-- A connect is pending for the stream: its socket has one under way, or one that it has
called for is under way or not handled. -/
def Pending (s : System I parse) (i : I) : Prop :=
  (∃ t, s.streams i = some t ∧ t.socket.connecting ≠ none) ∨
  (∃ j t r, s.streams j = some t ∧ t.socket.connecting = some r ∧ r.this = i) ∨
  ∃ h ∈ s.handlers, h.request.this = i

/-- The step leaves no endpoint behind: a socket that is moved, or moved to, owns no
connection, sockets that are swapped own the same, a connect succeeds on the stream that has
called for it, and is handled while that stream owns the connection. -/
def Follows (s : System I parse) : Action I → Prop
  | .moveConstruct _ other => s.connection other = none
  | .moveAssign i rhs => i ≠ rhs → s.connection i = none ∧ s.connection rhs = none
  | .swap i other => s.connection i = s.connection other
  | .complete i isSuccess => isSuccess = true → ∀ t r, s.streams i = some t →
      t.socket.connecting = some r → r.this = i
  | .handle k => ∀ h, s.handlers[k]? = some h → h.isSuccess = true →
      s.connection h.request.this = some h.request.peer
  | _ => True

end System

/-! ## One stream -/

namespace TcpStream

/-- A socket that is not open or has a connect under way owns no connection. -/
def Sound (t : TcpStream I parse) : Prop :=
  t.socket.isOpen = false ∨ t.socket.connecting ≠ none → t.socket.connection = none

/-- The stream says its socket's peer, or one of the handlers will. -/
def Told (t : TcpStream I parse) (i : I) (handlers : List (Handler I parse)) : Prop :=
  t.Reported ∨ ∃ h ∈ handlers, h.isSuccess = true ∧ h.request.this = i ∧
    t.socket.connection = some h.request.peer

variable {t : TcpStream I parse} {i : I} {handlers : List (Handler I parse)}

theorem reported_none (hconn : t.socket.connection = none) :
    t.Reported ↔ t.remoteEndpoint = .cleared := by
  rw [Reported, hconn]
  rfl

theorem reported_some {peer : Peer Addr} (hconn : t.socket.connection = some peer) :
    t.Reported ↔
      parse t.remoteEndpoint.ip = some peer.addr ∧ t.remoteEndpoint.port = peer.port := by
  rw [Reported, hconn]
  rfl

/-- A stream without a connection has nothing to be told. -/
theorem Told.cleared (h : t.Told i handlers) (hconn : t.socket.connection = none) :
    t.remoteEndpoint = .cleared := by
  rcases h with h | ⟨h, -, -, -, hpeer⟩
  · exact (reported_none hconn).mp h
  · rw [hconn] at hpeer
    cases hpeer

theorem Told.mono (h : t.Told i handlers) {handlers' : List (Handler I parse)}
    (hsub : ∀ h ∈ handlers, h.isSuccess = true → h.request.this = i → h ∈ handlers') :
    t.Told i handlers' := by
  rcases h with h | ⟨h, hmem, hok, hthis, hpeer⟩
  · exact .inl h
  · exact .inr ⟨h, hsub h hmem hok hthis, hok, hthis, hpeer⟩

/-- `disconnect` before a connect leaves no connection and the cleared endpoint. -/
theorem reset_cleared (hsound : t.Sound) (htold : t.Told i handlers) :
    t.reset.1.socket.connection = none ∧ t.reset.1.remoteEndpoint = .cleared := by
  unfold reset
  by_cases hopen : t.socket.isOpen = true
  · rw [if_pos hopen]
    exact ⟨rfl, rfl⟩
  · rw [if_neg hopen]
    have hconn := hsound (.inl (Bool.eq_false_iff.mpr hopen))
    exact ⟨hconn, htold.cleared hconn⟩

theorem reset_sound (hsound : t.Sound) : t.reset.1.Sound := by
  unfold reset
  split
  · intro _
    rfl
  · exact hsound

/-- A `connect` that returns has set the endpoint, one that throws has cleared it. -/
theorem connect_reported (hsound : t.Sound) (htold : t.Told i handlers) {ip : String}
    {port : UInt16} {outcome : Outcome} {r : TcpStream I parse × List (Handler I parse)}
    (h : t.connect ip port outcome = some r) : r.1.Reported ∧ r.1.Sound := by
  obtain ⟨hconn, hcleared⟩ := reset_cleared hsound htold
  unfold connect at h
  split at h
  · obtain rfl := Option.some.inj h
    exact ⟨(reported_none hconn).mpr hcleared, reset_sound hsound⟩
  · obtain rfl := Option.some.inj h
    exact ⟨(reported_none rfl).mpr hcleared, fun _ => rfl⟩
  · rename_i addr hparse
    obtain ⟨endpoint, hset, rfl⟩ := Option.map_eq_some_iff.mp h
    obtain rfl := IpEndpoint.setValue_eq hset
    refine ⟨(reported_some rfl).mpr ⟨hparse, rfl⟩, ?_⟩
    intro hcase
    rcases hcase with hopen | hconnecting
    · cases hopen
    · exact absurd rfl hconnecting

/-- An `async_connect` leaves the endpoint cleared. -/
theorem asyncConnect_reported (hsound : t.Sound) (htold : t.Told i handlers) {this : I}
    {ip : String} {port : UInt16} {opened : Bool}
    {r : TcpStream I parse × List (Handler I parse)}
    (h : asyncConnect this t ip port opened = some r) : r.1.Reported ∧ r.1.Sound := by
  obtain ⟨hconn, hcleared⟩ := reset_cleared hsound htold
  unfold asyncConnect at h
  split at h
  · cases h
  · dsimp only at h
    split at h
    · obtain rfl := Option.some.inj h
      exact ⟨(reported_none rfl).mpr hcleared, fun _ => rfl⟩
    · obtain rfl := Option.some.inj h
      exact ⟨(reported_none hconn).mpr hcleared, reset_sound hsound⟩

/-- What a stream has been told depends on its connection and its endpoint only. -/
theorem Told.congr {t' : TcpStream I parse} (h : t.Told i handlers)
    (hconn : t'.socket.connection = t.socket.connection)
    (hendpoint : t'.remoteEndpoint = t.remoteEndpoint) : t'.Told i handlers := by
  unfold Told Reported getRemoteEndpoint at h ⊢
  rwa [hconn, hendpoint]

end TcpStream

/-! ## The streams -/

/-- Every stream says its socket's peer, or a handler will. -/
structure Followed (s : System I parse) : Prop where
  told : ∀ i t, s.streams i = some t → t.Told i s.handlers
  sound : ∀ i t, s.streams i = some t → t.Sound

theorem followed_init : Followed (System.init : System I parse) where
  told := by simp [System.init]
  sound := by simp [System.init]

section
variable [DecidableEq I] {s s' : System I parse} {a : Action I} {i : I}

/-- A step that changes one stream and leaves the others what they are to be told. -/
theorem Followed.update (h : Followed s) {t : TcpStream I parse}
    {handlers : List (Handler I parse)} (htold : t.Told i handlers) (hsound : t.Sound)
    (hother : ∀ j ≠ i, ∀ u : TcpStream I parse, u.Told j s.handlers → u.Told j handlers) :
    Followed ⟨Function.update s.streams i (some t), handlers⟩ := by
  constructor
  case told =>
    refine (Function.forall_update_iff s.streams
      fun j o => ∀ u, o = some u → u.Told j handlers).mpr ⟨?_, ?_⟩
    · intro u hnone
      cases hnone
      exact htold
    · intro j hj u hu
      exact hother j hj u (h.told j u hu)
  case sound =>
    refine (Function.forall_update_iff s.streams fun _ o => ∀ u, o = some u → u.Sound).mpr ⟨?_, ?_⟩
    · intro u hnone
      cases hnone
      exact hsound
    · intro j _
      exact h.sound j

/-- A step that changes one stream and adds handlers. -/
theorem Followed.put (h : Followed s) {t : TcpStream I parse} {new : List (Handler I parse)}
    (htold : t.Told i (s.handlers ++ new)) (hsound : t.Sound) : Followed (s.put i t new) := by
  refine h.update htold hsound fun j _ u hu => ?_
  exact hu.mono fun x hx _ _ => List.mem_append_left new hx

/-- A stream whose socket is moved away without a connection. -/
theorem Followed.movedFrom (h : Followed s) {t : TcpStream I parse} (ht : s.streams i = some t)
    (hconn : t.socket.connection = none) :
    Followed (s.put i { t with socket := .closed } []) := by
  have hcleared := (h.told i t ht).cleared hconn
  exact h.put (.inl ((TcpStream.reported_none rfl).mpr hcleared)) fun _ => rfl

/-- The end of a connect that is under way. -/
theorem Followed.complete (h : Followed s) {isSuccess : Bool}
    (hfollows : s.Follows (.complete i isSuccess)) {t : TcpStream I parse}
    (ht : s.streams i = some t) {r : Request I parse} (hr : t.socket.connecting = some r) :
    Followed (s.put i { t with socket :=
      { isOpen := true
        connection := if isSuccess then some r.peer else none
        connecting := none } } [⟨r, isSuccess⟩]) := by
  have hconn : t.socket.connection = none := h.sound i t ht (.inr (by simp [hr]))
  apply h.put
  · cases isSuccess with
    | true =>
      have hthis : r.this = i := hfollows rfl t r ht hr
      exact .inr ⟨⟨r, true⟩, by simp, rfl, hthis, rfl⟩
    | false =>
      have hcleared := (h.told i t ht).cleared hconn
      exact .inl ((TcpStream.reported_none rfl).mpr hcleared)
  · intro hcase
    rcases hcase with hopen | hconnecting
    · cases hopen
    · exact absurd rfl hconnecting

/-- A handler's run. -/
theorem Followed.handle (h : Followed s) {k : Nat} (hfollows : s.Follows (.handle k))
    {x : Handler I parse} (hx : s.handlers[k]? = some x) {endpoint : IpEndpoint}
    (hset : IpEndpoint.setValue x.request.ip x.request.port = some endpoint)
    {t : TcpStream I parse} (ht : s.streams x.request.this = some t) :
    Followed (⟨if x.isSuccess then
        Function.update s.streams x.request.this (some { t with remoteEndpoint := endpoint })
        else s.streams, s.handlers.eraseIdx k⟩ : System I parse) := by
  obtain rfl := IpEndpoint.setValue_eq hset
  -- the other handlers are still to be run
  have hmem : ∀ y ∈ s.handlers, y ≠ x → y ∈ s.handlers.eraseIdx k := by
    intro y hy hyx
    obtain ⟨j, hj⟩ := List.mem_iff_getElem?.mp hy
    refine List.mem_eraseIdx_iff_getElem?.mpr ⟨j, ?_, hj⟩
    intro heq
    subst heq
    exact hyx (Option.some.inj (hj.symm.trans hx))
  cases hok : x.isSuccess with
  | false =>
    constructor
    case told =>
      intro j u hu
      refine (h.told j u hu).mono fun y hy hyok _ => hmem y hy ?_
      intro heq
      subst heq
      rw [hok] at hyok
      cases hyok
    case sound => exact h.sound
  | true =>
    have hpeer : t.socket.connection = some x.request.peer := by
      have hconn := hfollows x hx hok
      rwa [System.connection, ht] at hconn
    have hreported : TcpStream.Reported
        { t with remoteEndpoint := ⟨x.request.ip, x.request.port⟩ } := by
      unfold TcpStream.Reported
      rw [hpeer]
      exact ⟨x.request.parsed, rfl⟩
    apply h.update
    · exact .inl hreported
    · exact h.sound _ t ht
    · intro j hj u hu
      refine hu.mono fun y hy _ hyj => hmem y hy ?_
      intro heq
      subst heq
      exact hj hyj.symm

theorem Followed.step (h : Followed s) (hfollows : s.Follows a) (hs : s.step a = some s') :
    Followed s' := by
  cases a with
  | construct i =>
    simp only [System.step] at hs
    split at hs
    · obtain rfl := Option.some.inj hs
      exact h.put (.inl ((TcpStream.reported_none rfl).mpr rfl)) fun _ => rfl
    · cases hs
  | connect i ip port outcome =>
    obtain ⟨t, ht, hs⟩ := Option.bind_eq_some_iff.mp hs
    obtain ⟨r, hr, rfl⟩ := Option.map_eq_some_iff.mp hs
    obtain ⟨hreported, hsound⟩ := TcpStream.connect_reported (h.sound i t ht) (h.told i t ht) hr
    exact h.put (.inl hreported) hsound
  | disconnect i =>
    obtain ⟨t, ht, rfl⟩ := Option.map_eq_some_iff.mp hs
    exact h.put (.inl ((TcpStream.reported_none rfl).mpr rfl)) fun _ => rfl
  | asyncConnect i ip port opened =>
    obtain ⟨t, ht, hs⟩ := Option.bind_eq_some_iff.mp hs
    obtain ⟨r, hr, rfl⟩ := Option.map_eq_some_iff.mp hs
    obtain ⟨hreported, hsound⟩ :=
      TcpStream.asyncConnect_reported (h.sound i t ht) (h.told i t ht) hr
    exact h.put (.inl hreported) hsound
  | complete i isSuccess =>
    obtain ⟨t, ht, hs⟩ := Option.bind_eq_some_iff.mp hs
    obtain ⟨r, hr, rfl⟩ := Option.map_eq_some_iff.mp hs
    exact h.complete hfollows ht hr
  | handle k =>
    obtain ⟨x, hx, hs⟩ := Option.bind_eq_some_iff.mp hs
    obtain ⟨endpoint, hset, hs⟩ := Option.bind_eq_some_iff.mp hs
    obtain ⟨t, ht, rfl⟩ := Option.map_eq_some_iff.mp hs
    exact h.handle hfollows hx hset ht
  | moveConstruct i other =>
    simp only [System.step] at hs
    split at hs
    · rename_i t hi ht
      obtain rfl := Option.some.inj hs
      have hconn : t.socket.connection = none := by
        have hnone : s.connection other = none := hfollows
        rwa [System.connection, ht] at hnone
      apply (h.movedFrom ht hconn).put
      · refine .inl ((TcpStream.reported_none ?_).mpr rfl)
        exact hconn
      · exact h.sound other t ht
    · cases hs
  | moveAssign i rhs =>
    simp only [System.step] at hs
    split at hs
    · rename_i t u ht hu
      split at hs
      · obtain rfl := Option.some.inj hs
        exact h
      · rename_i hne
        obtain rfl := Option.some.inj hs
        obtain ⟨hi, hrhs⟩ := hfollows hne
        rw [System.connection, ht] at hi
        rw [System.connection, hu] at hrhs
        have hcleared := (h.told i t ht).cleared hi
        apply (h.movedFrom hu hrhs).put
        · refine .inl ((TcpStream.reported_none ?_).mpr hcleared)
          exact hrhs
        · exact h.sound rhs u hu
    · cases hs
  | swap i other =>
    simp only [System.step] at hs
    split at hs
    · rename_i t u ht hu
      obtain rfl := Option.some.inj hs
      have hsame : t.socket.connection = u.socket.connection := by
        have hconn : s.connection i = s.connection other := hfollows
        rwa [System.connection, System.connection, ht, hu] at hconn
      have hfirst : Followed (s.put other { u with socket := t.socket } []) := by
        apply h.put
        · rw [List.append_nil]
          exact (h.told other u hu).congr hsame rfl
        · exact h.sound i t ht
      apply hfirst.put
      · have htold : TcpStream.Told { t with socket := u.socket } i s.handlers :=
          (h.told i t ht).congr hsame.symm rfl
        refine htold.mono fun x hx _ _ => ?_
        simpa [System.put] using hx
      · exact h.sound other u hu
    · cases hs

/-- **The reported peer follows the socket** in every state of every run whose steps leave no
endpoint behind: a stream for which no connect is pending says the address and port of the
connection its socket owns, and is cleared where it owns none. -/
theorem peer_follows {tr : List (System I parse × Action I)} (h : Run System.step System.init tr s)
    (hfollows : Meets System.Follows tr) {t : TcpStream I parse} (ht : s.streams i = some t)
    (hpending : ¬ s.Pending i) : t.Reported := by
  have hinv : Followed s :=
    Run.invariant (C := System.Follows) followed_init (fun _ _ _ hi ha hs => hi.step ha hs) h
      hfollows
  rcases hinv.told i t ht with hreported | ⟨x, hx, -, hthis, -⟩
  · exact hreported
  · exact absurd (.inr (.inr ⟨x, hx, hthis⟩)) hpending

end

/-! ## Concrete runs -/

/-- One address. -/
def oneAddress (ip : String) : Option Nat := if ip = "10.0.0.1" then some 1 else none

instance (s : System I parse) [DecidableEq Addr] [DecidableEq I] : ∀ a, Decidable (s.Follows a)
  | .moveConstruct _ other => inferInstanceAs (Decidable (s.connection other = none))
  | .moveAssign i rhs =>
    inferInstanceAs (Decidable (i ≠ rhs → s.connection i = none ∧ s.connection rhs = none))
  | .swap i other => inferInstanceAs (Decidable (s.connection i = s.connection other))
  | .complete i isSuccess => decidable_of_iff
      (isSuccess = true → ∀ t ∈ s.streams i, ∀ r ∈ t.socket.connecting, r.this = i) (by
        simp only [System.Follows, Option.mem_def]
        exact forall_congr' fun _ => forall_congr' fun t =>
          ⟨fun h r ht hr => h ht r hr, fun h ht r hr => h r ht hr⟩)
  | .handle k => inferInstanceAs (Decidable (∀ h ∈ s.handlers[k]?, h.isSuccess = true →
      s.connection h.request.this = some h.request.peer))
  | .construct _ | .connect .. | .disconnect _ | .asyncConnect .. => isTrue trivial

/-- With no handlers and no connect under way none is pending. -/
theorem not_pending {s : System I parse} (hhandlers : s.handlers.isEmpty)
    (hstreams : ∀ i, (s.streams i).all fun t => t.socket.connecting.isNone) (i : I) :
    ¬ s.Pending i := by
  have hnone : ∀ j t, s.streams j = some t → t.socket.connecting = none := by
    intro j t ht
    simpa [ht] using hstreams j
  intro hcase
  rcases hcase with ⟨t, ht, hconnecting⟩ | ⟨j, t, r, ht, hr, -⟩ | ⟨h, hmem, -⟩
  · exact hconnecting (hnone i t ht)
  · rw [hnone j t ht] at hr
    cases hr
  · rw [List.isEmpty_iff.mp hhandlers] at hmem
    cases hmem

/-- A connect that is handled, and a swap with a stream of the same peer. -/
def handled : List (Action Bool) :=
  [.construct true, .asyncConnect true "10.0.0.1" 80 true, .complete true true, .handle 0,
    .construct false, .connect false "10.0.0.1" 80 .established, .swap true false]

theorem peer_follows_handled : ∃ (tr : _) (s : System Bool oneAddress) (t : _),
    Run System.step System.init tr s ∧ tr.map Prod.snd = handled ∧ s.streams true = some t ∧
      t.Reported ∧ t.socket.connection = some ⟨1, 80⟩ := by
  have hrun : ∃ (tr : _) (s : System Bool oneAddress), Run System.step System.init tr s ∧
      Meets System.Follows tr ∧ tr.map Prod.snd = handled ∧
        (s.handlers.isEmpty ∧ (∀ i, (s.streams i).all fun t => t.socket.connecting.isNone) ∧
          s.connection true = some ⟨1, 80⟩) :=
    Run.of_execMeets_any _ (by decide)
  obtain ⟨tr, s, h, hfollows, ha, hhandlers, hstreams, hconn⟩ := hrun
  obtain ⟨t, ht, hpeer⟩ := Option.bind_eq_some_iff.mp hconn
  have hreported := peer_follows h hfollows ht (not_pending hhandlers hstreams true)
  exact ⟨tr, s, t, h, ha, ht, hreported, hpeer⟩

/-- A stream is constructed from one that is connected. -/
def movedOn : List (Action Bool) :=
  [.construct true, .connect true "10.0.0.1" 80 .established, .moveConstruct false true]

theorem moved_peer_is_null : ∃ (tr : _) (s : System Bool oneAddress) (t : _),
    Run System.step System.init tr s ∧ tr.map Prod.snd = movedOn ∧ s.streams false = some t ∧
      ¬ s.Pending false ∧ t.socket.connection = some ⟨1, 80⟩ ∧ ¬ t.Reported := by
  have hrun : ∃ (tr : _) (s : System Bool oneAddress), Run System.step System.init tr s ∧
      tr.map Prod.snd = movedOn ∧
        (s.handlers.isEmpty ∧ (∀ i, (s.streams i).all fun t => t.socket.connecting.isNone) ∧
          s.connection false = some ⟨1, 80⟩ ∧
          (s.streams false).all fun t => t.remoteEndpoint == .cleared) :=
    Run.of_exec_any _ (by decide)
  obtain ⟨tr, s, h, ha, hhandlers, hstreams, hconn, hendpoint⟩ := hrun
  obtain ⟨t, ht, hpeer⟩ := Option.bind_eq_some_iff.mp hconn
  refine ⟨tr, s, t, h, ha, ht, not_pending hhandlers hstreams false, hpeer, ?_⟩
  intro hreported
  have hport := ((TcpStream.reported_some hpeer).mp hreported).2
  have hcleared : t.remoteEndpoint = .cleared := by simpa [ht] using hendpoint
  rw [hcleared] at hport
  cases hport

end Vee.Comm
