import Mathlib.Data.Fintype.Option
import Vee.Comm.UdpStream

/- Where the datagrams of a `udp_stream` go, and where it says they go.

   The cache that `get_remote_endpoint` returns is written at construction and never again, and
   `remote_endpoint` by every mapping and by every datagram that comes in. So the two agree as
   long as all of these name the endpoint of the construction (`endpoints_coherent_iff`); and
   a datagram is sent to whoever was mapped or heard last, whichever endpoint is given
   (`datagrams_directed_iff`). -/
namespace Vee.Comm.Udp
open Transition Io ByteMemory

universe v

variable {Addr : Type v}

section
variable (parse : String → Option Addr) (any : Addr)

/-- The endpoint is the address and port of the peer. -/
def Names (endpoint : IpEndpoint) (peer : Peer Addr) : Prop :=
  parse endpoint.ip = some peer.addr ∧ endpoint.port = peer.port

/-- The same, where a cleared endpoint stands for none. -/
def Denotes (endpoint : IpEndpoint) (peer : Peer Addr) : Prop :=
  Names parse endpoint peer ∨ endpoint = .cleared ∧ peer = ⟨any, 0⟩

/-- The endpoint that the stream reports is the one it sends to. -/
def System.Coherent (s : System Addr) : Prop :=
  Denotes parse any s.stream.getRemoteEndpoint s.stream.remoteEndpoint

/-- An endpoint that the step gives the stream is the one it reports already. -/
def System.Keeps (s : System Addr) (a : Action Addr) : Prop :=
  ∀ peer ∈ a.endpoint parse, Denotes parse any s.stream.getRemoteEndpoint peer

end

section
variable {parse : String → Option Addr} {text : Addr → String} {any : Addr} {s s' : System Addr}
  {a : Action Addr} {t : UdpStream Addr} {remote : Option (Peer Addr)} {memory : Memory}
  {tr : List (System Addr × Action Addr)}

/-! ## The two endpoints -/

/-- A stream is constructed with one endpoint in both forms. -/
theorem ofSocket_coherent (hround : ∀ addr, parse (text addr) = some addr)
    (ht : UdpStream.ofSocket text any remote = some t) :
    Denotes parse any t.getRemoteEndpoint t.remoteEndpoint := by
  cases remote with
  | none =>
    obtain rfl := Option.some.inj ht
    exact .inr ⟨rfl, rfl⟩
  | some endpoint =>
    obtain ⟨cache, hcache, rfl⟩ := Option.map_eq_some_iff.mp ht
    obtain rfl := IpEndpoint.setValue_eq hcache
    exact .inl ⟨hround endpoint.addr, rfl⟩

/-- A coherent stream stays so exactly if the endpoint it is given is the one it reports. -/
theorem System.Coherent.step_iff (h : s.Coherent parse any) (hs : s.step parse a = some s') :
    s'.Coherent parse any ↔ s.Keeps parse any a := by
  have hstream := step_stream hs
  simp only [System.Coherent, UdpStream.getRemoteEndpoint, System.Keeps, hstream] at h ⊢
  cases a.endpoint parse with
  | none => simpa using h
  | some peer => simp

/-- **When the two endpoints of a stream agree.** In every state of a run that starts with a
stream constructed from a socket, the endpoint it reports denotes the one it sends to, exactly
if every endpoint mapped and the sender of every datagram is the one it reports. -/
theorem endpoints_coherent_iff (hround : ∀ addr, parse (text addr) = some addr)
    (ht : UdpStream.ofSocket text any remote = some t)
    (h : Run (System.step parse) (System.init t memory) tr s) :
    (∀ x ∈ visited tr s, x.Coherent parse any) ↔ Meets (System.Keeps parse any) tr :=
  h.visited_iff (ofSocket_coherent hround ht) fun _ _ _ hx hs => hx.step_iff hs

end

/-! ## The datagrams -/

/-- The endpoint that was mapped last. -/
def lastMapped (log : List (Event Addr)) : Option (Peer Addr) :=
  log.foldl (fun m e => match e with
    | .mapped endpoint => some endpoint
    | _ => m) none

/-- The sender of the last datagram that has come in since. -/
def lastHeard (log : List (Event Addr)) : Option (Peer Addr) :=
  log.foldl (fun m e => match e with
    | .mapped _ => none
    | .received datagram _ => some datagram.sender
    | _ => m) none

/-- Whoever was mapped or heard last. -/
def lastSet (log : List (Event Addr)) : Option (Peer Addr) := lastHeard log <|> lastMapped log

section
variable (parse : String → Option Addr)

/-- The event is what the caller said: `write_to` sends to the endpoint it is given and
`write_some` to the one mapped last, and `read_from` says who has sent the datagram. -/
def System.Said (s : System Addr) : Action Addr → Event Addr → Prop
  | .writeTo _ _ endpoint _, .sent _ dest => Names parse endpoint dest
  | .writeSome .., .sent _ dest => lastMapped s.log = some dest
  | .readFrom .., .received datagram endpointOut => Names parse endpointOut datagram.sender
  | _, _ => True

/-- The step does what the caller said. -/
def System.AsSaid (s : System Addr) (a : Action Addr) : Prop :=
  ∀ s' e, s.step parse a = some s' → s'.log = s.log ++ [e] → s.Said parse a e

/-- What is given to `write_to` was mapped or heard last; nobody has been heard since the
mapping where `write_some` sends, or the one mapped itself; and what is given to `read_from` is
the sender's endpoint already. -/
def System.Directed (s : System Addr) : Action Addr → Prop
  | .writeTo _ _ endpoint sends =>
    sends = true → ∀ peer ∈ lastSet s.log, Names parse endpoint peer
  | .writeSome _ _ sends => sends = true → ∀ peer ∈ lastHeard s.log, lastMapped s.log = some peer
  | .readFrom _ _ endpointOut answer => ∀ datagram ∈ answer, Names parse endpointOut datagram.sender
  | _ => True

end

/-- The stream sends to whoever was mapped or heard last. -/
def System.Tracked (s : System Addr) : Prop := lastSet s.log = some s.stream.remoteEndpoint

section
variable {parse : String → Option Addr} {s s' : System Addr} {a : Action Addr}
  {t : UdpStream Addr} {memory : Memory} {tr : List (System Addr × Action Addr)}

theorem lastSet_snoc (log : List (Event Addr)) (e : Event Addr) :
    lastSet (log ++ [e]) = match e with
      | .mapped endpoint => some endpoint
      | .received datagram _ => some datagram.sender
      | .sent .. | .threw => lastSet log := by
  cases e <;> simp [lastSet, lastHeard, lastMapped, List.foldl_append]

theorem System.Tracked.mapped (ht : s.mapped t = s') : s'.Tracked := by
  subst ht
  exact lastSet_snoc s.log (.mapped t.remoteEndpoint)

theorem System.Tracked.readFrom (h : s.Tracked) (buffer : Buffer) (n : Nat) (out : IpEndpoint)
    (answer : Option (Datagram Addr)) : (s.readFrom buffer n out answer).Tracked := by
  cases answer with
  | none => exact (lastSet_snoc s.log .threw).trans h
  | some datagram => exact lastSet_snoc s.log (.received datagram out)

theorem System.Tracked.writeTo (h : s.Tracked) (buffer : Buffer) (n : Nat) (endpoint : IpEndpoint)
    (sends : Bool) : (s.writeTo buffer n endpoint sends).Tracked := by
  cases sends with
  | false => exact (lastSet_snoc s.log .threw).trans h
  | true => exact (lastSet_snoc s.log (.sent _ s.stream.remoteEndpoint)).trans h

theorem System.Tracked.step (h : s.Tracked) (hs : s.step parse a = some s') : s'.Tracked := by
  cases a with
  | mapRemoteEndpoint | mapRemoteEndpointOf =>
    obtain ⟨t, -, ht⟩ := Option.map_eq_some_iff.mp hs
    exact System.Tracked.mapped ht
  | readFrom | readSome | readExplicit =>
    obtain rfl := Option.some.inj hs
    exact h.readFrom _ _ _ _
  | writeTo | writeSome =>
    obtain rfl := Option.some.inj hs
    exact h.writeTo _ _ _ _

theorem tracked_init : (System.init t memory).Tracked := rfl

theorem tracked_run (h : Run (System.step parse) (System.init t memory) tr s) : s.Tracked :=
  h.invariant (C := fun _ _ => True) tracked_init (fun _ _ _ hx _ hs => hx.step hs)
    (fun _ _ => trivial)

/-- A step has one event. -/
theorem asSaid_iff {e : Event Addr} (hs : s.step parse a = some s')
    (hlog : s'.log = s.log ++ [e]) : s.AsSaid parse a ↔ s.Said parse a e := by
  refine ⟨fun h => h s' e hs hlog, ?_⟩
  intro h x e' hx hlog'
  obtain rfl := Option.some.inj (hs.symm.trans hx)
  obtain rfl := List.singleton_inj.mp (List.append_cancel_left (hlog.symm.trans hlog'))
  exact h

/-- Of what has no other end the caller says nothing. -/
theorem asSaid_of_forall (h : ∀ e, s.Said parse a e) : s.AsSaid parse a := fun _ e _ _ => h e

/-- One step does as the caller said exactly if it meets the condition. -/
theorem System.Tracked.asSaid_iff (h : s.Tracked) : s.AsSaid parse a ↔ s.Directed parse a := by
  have hlast : lastSet s.log = some s.stream.remoteEndpoint := h
  cases a with
  | mapRemoteEndpoint | mapRemoteEndpointOf | readSome | readExplicit =>
    exact iff_of_true (asSaid_of_forall fun _ => trivial) trivial
  | readFrom buffer n out answer =>
    cases answer with
    | none =>
      rw [asSaid_iff (e := .threw) rfl rfl]
      simp [System.Said, System.Directed]
    | some datagram =>
      rw [asSaid_iff (e := .received datagram out) rfl rfl]
      simp [System.Said, System.Directed]
  | writeTo buffer n endpoint sends =>
    cases sends with
    | false =>
      rw [asSaid_iff (e := .threw) rfl rfl]
      simp [System.Said, System.Directed]
    | true =>
      rw [asSaid_iff (e := .sent _ s.stream.remoteEndpoint) rfl rfl]
      simp [System.Said, System.Directed, hlast]
  | writeSome buffer n sends =>
    cases sends with
    | false =>
      rw [asSaid_iff (e := .threw) rfl rfl]
      simp [System.Said, System.Directed]
    | true =>
      rw [asSaid_iff (e := .sent _ s.stream.remoteEndpoint) rfl rfl]
      simp only [System.Said, System.Directed, true_implies, Option.mem_def]
      -- if somebody has been heard since the mapping, it is who is sent to
      rw [lastSet] at hlast
      cases hheard : lastHeard s.log with
      | none => simpa [hheard] using hlast
      | some sender =>
        obtain rfl : sender = s.stream.remoteEndpoint := by simpa [hheard] using hlast
        simp

/-- **Where the datagrams of a stream go.** In a run of a stream that has just been
constructed every step does what the caller said, exactly if each `write_to` is given whoever
was mapped or heard last, each `write_some` sends with nobody heard since the mapping but the
one that was mapped, and each `read_from` is given the sender's endpoint. -/
theorem datagrams_directed_iff (h : Run (System.step parse) (System.init t memory) tr s) :
    Meets (System.AsSaid parse) tr ↔ Meets (System.Directed parse) tr :=
  h.meets_iff (I := System.Tracked) tracked_init (fun _ _ _ hx hs => hx.step hs)
    fun _ _ hx => hx.asSaid_iff

end

/-! ## Concrete runs -/

/-- Two addresses, and that of no endpoint. -/
def twoAddresses : String → Option (Option Bool)
  | "10.0.0.1" => some (some false)
  | "10.0.0.2" => some (some true)
  | "0.0.0.0" => some none
  | _ => none

/-- Their texts. -/
def addressText : Option Bool → String
  | some false => "10.0.0.1"
  | some true => "10.0.0.2"
  | none => "0.0.0.0"

theorem twoAddresses_round : ∀ addr, twoAddresses (addressText addr) = some addr := by
  decide

section
variable [DecidableEq Addr] {parse : String → Option Addr} {any : Addr}

instance (endpoint : IpEndpoint) (peer : Peer Addr) : Decidable (Names parse endpoint peer) :=
  inferInstanceAs (Decidable (_ ∧ _))

instance (endpoint : IpEndpoint) (peer : Peer Addr) : Decidable (Denotes parse any endpoint peer) :=
  inferInstanceAs (Decidable (_ ∨ _))

instance (s : System Addr) : Decidable (s.Coherent parse any) :=
  inferInstanceAs (Decidable (Denotes ..))

instance (s : System Addr) (a : Action Addr) : Decidable (s.Keeps parse any a) :=
  inferInstanceAs (Decidable (∀ peer ∈ a.endpoint parse, _))

instance (s : System Addr) : ∀ a, Decidable (s.Directed parse a)
  | .writeTo _ _ endpoint sends =>
    inferInstanceAs (Decidable (sends = true → ∀ peer ∈ lastSet s.log, Names parse endpoint peer))
  | .writeSome _ _ sends => inferInstanceAs (Decidable
      (sends = true → ∀ peer ∈ lastHeard s.log, lastMapped s.log = some peer))
  | .readFrom _ _ endpointOut answer => inferInstanceAs (Decidable
      (∀ datagram ∈ answer, Names parse endpointOut datagram.sender))
  | .mapRemoteEndpoint .. | .mapRemoteEndpointOf .. | .readSome .. | .readExplicit .. =>
    isTrue trivial

end

/-- A socket that is connected, an end that is mapped to where it is connected, and a datagram
from there. -/
def oneEnd : List (Action (Option Bool)) :=
  [.mapRemoteEndpoint "10.0.0.1" 80, .readSome ⟨0, 4⟩ 4 (some ⟨⟨some false, 80⟩, [1]⟩),
    .writeSome ⟨0, 4⟩ 4 true]

theorem endpoints_coherent_iff_connected : ∃ (t : UdpStream (Option Bool)) (tr : _) (s : _),
    UdpStream.ofSocket addressText none (some ⟨some false, 80⟩) = some t ∧
      Run (System.step twoAddresses) (System.init t fun _ => 0) tr s ∧
      tr.map Prod.snd = oneEnd ∧ ∀ x ∈ visited tr s, x.Coherent twoAddresses none := by
  have hrun : ∃ (tr : _) (s : _), Run (System.step twoAddresses)
      (System.init ⟨⟨"10.0.0.1", 80⟩, ⟨some false, 80⟩⟩ fun _ => 0) tr s ∧
        Meets (System.Keeps twoAddresses none) tr ∧ tr.map Prod.snd = oneEnd ∧ True :=
    Run.of_execMeets_any _ (by decide)
  obtain ⟨tr, s, h, hkeeps, ha, -⟩ := hrun
  have ht : UdpStream.ofSocket addressText none (some ⟨some false, 80⟩) =
      some (⟨⟨"10.0.0.1", 80⟩, ⟨some false, 80⟩⟩ : UdpStream (Option Bool)) := by decide
  exact ⟨_, tr, s, ht, h, ha, (endpoints_coherent_iff twoAddresses_round ht h).mpr hkeeps⟩

/-- The socket has no other end, and one is mapped: the stream goes on reporting none. -/
theorem mapped_not_reported :
    UdpStream.ofSocket addressText none none = some (UdpStream.new (none : Option Bool)) ∧
      ∃ (tr : _) (s : System (Option Bool)),
        Run (System.step twoAddresses) (System.init (.new none) fun _ => 0) tr s ∧
          tr.map Prod.snd = [.mapRemoteEndpoint "10.0.0.1" 80] ∧
          s.stream.getRemoteEndpoint = .cleared ∧ s.stream.remoteEndpoint = ⟨some false, 80⟩ ∧
          ¬ s.Coherent twoAddresses none :=
  ⟨rfl, Run.of_exec_any _ (by decide)⟩

/-- The end is mapped and written to; another one sends a datagram and is answered. -/
def answered : List (Action (Option Bool)) :=
  [.mapRemoteEndpoint "10.0.0.1" 80, .writeSome ⟨0, 4⟩ 2 true,
    .readFrom ⟨0, 4⟩ 4 ⟨"10.0.0.2", 7⟩ (some ⟨⟨some true, 7⟩, [1]⟩),
    .writeTo ⟨0, 4⟩ 1 ⟨"10.0.0.2", 7⟩ true]

theorem datagrams_directed_iff_answered : ∃ (tr : _) (s : System (Option Bool)),
    Run (System.step twoAddresses) (System.init (.new none) fun _ => 0) tr s ∧
      tr.map Prod.snd = answered ∧ Meets (System.AsSaid twoAddresses) tr := by
  have hrun : ∃ (tr : _) (s : System (Option Bool)),
      Run (System.step twoAddresses) (System.init (.new none) fun _ => 0) tr s ∧
        Meets (System.Directed twoAddresses) tr ∧ tr.map Prod.snd = answered ∧ True :=
    Run.of_execMeets_any _ (by decide)
  obtain ⟨tr, s, h, hdirected, ha, -⟩ := hrun
  exact ⟨tr, s, h, ha, (datagrams_directed_iff h).mpr hdirected⟩

/-- One end is mapped and another one sends a datagram. Then `write_some` and a `write_to` of
the mapped end send to the other one, and `read_from` does not say who has sent. -/
theorem sent_to_last_heard : ∃ (tr : _) (s : System (Option Bool)),
    Run (System.step twoAddresses) (System.init (.new none) fun _ => 0) tr s ∧
      tr.map Prod.snd = [.mapRemoteEndpoint "10.0.0.1" 80,
        .readSome ⟨0, 4⟩ 4 (some ⟨⟨some true, 7⟩, [1]⟩)] ∧
      s.stream.remoteEndpoint = ⟨some true, 7⟩ ∧
      ¬ s.AsSaid twoAddresses (.writeSome ⟨0, 4⟩ 1 true) ∧
      ¬ s.AsSaid twoAddresses (.writeTo ⟨0, 4⟩ 1 ⟨"10.0.0.1", 80⟩ true) ∧
      ¬ s.AsSaid twoAddresses
        (.readFrom ⟨0, 4⟩ 4 .cleared (some ⟨⟨some true, 7⟩, [1]⟩)) := by
  have hrun : ∃ (tr : _) (s : System (Option Bool)),
      Run (System.step twoAddresses) (System.init (.new none) fun _ => 0) tr s ∧
        tr.map Prod.snd = [.mapRemoteEndpoint "10.0.0.1" 80,
          .readSome ⟨0, 4⟩ 4 (some ⟨⟨some true, 7⟩, [1]⟩)] ∧
        (s.stream.remoteEndpoint = ⟨some true, 7⟩ ∧
          ¬ s.Directed twoAddresses (.writeSome ⟨0, 4⟩ 1 true) ∧
          ¬ s.Directed twoAddresses (.writeTo ⟨0, 4⟩ 1 ⟨"10.0.0.1", 80⟩ true) ∧
          ¬ s.Directed twoAddresses
            (.readFrom ⟨0, 4⟩ 4 .cleared (some ⟨⟨some true, 7⟩, [1]⟩))) :=
    Run.of_exec_any _ (by decide)
  obtain ⟨tr, s, h, ha, hto, hsome, hwrite, hread⟩ := hrun
  have htracked := tracked_run h
  exact ⟨tr, s, h, ha, hto, fun hsaid => hsome (htracked.asSaid_iff.mp hsaid),
    fun hsaid => hwrite (htracked.asSaid_iff.mp hsaid),
    fun hsaid => hread (htracked.asSaid_iff.mp hsaid)⟩

end Vee.Comm.Udp
