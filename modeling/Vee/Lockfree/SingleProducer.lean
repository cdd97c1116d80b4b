import Mathlib.Data.List.Perm.Basic
import Mathlib.Data.List.Range
import Vee.Lib.Linearizable
import Vee.Lockfree.AtQueueAlone

/- With one producer and one consumer, `queue` is a bounded FIFO.

   Each inner ring then has one enqueuer and one dequeuer (`Spsc`), the producer
   and the consumer facing each other across both. The FIFO holds what the
   consumer has taken and not yet given its block back, then the blocks in
   `_out_queue`. An `enqueue` takes effect when it publishes its block in
   `_out_queue`, a `dequeue` when it publishes the block in `_cont_queue`, and a
   call that returns false at the check that finds the slot null: no block is free,
   so all `capacity` values are in the FIFO, or none is out, so it is empty
   (`spsc_refines_fifo`). A failed `enqueue` has touched nothing before, since its
   thread never got past the check (`refused_untouched`). -/
namespace Vee.Lockfree.Queue
open AtQueue Transition Linearizability Circular

variable {w n : Nat} {D T : Type*}

/-! ## The specification -/

inductive Op (D : Type*) where
  | enqueue (value : D) (rvalue : Bool)
  | dequeue
  deriving DecidableEq, Repr

/-- What a call returns; `left` is what it leaves in its argument object. -/
inductive Result (D : Type*) where
  | enqueued (result : Bool) (left : D)
  | dequeued (out : Option D)
  deriving DecidableEq, Repr

/-- The FIFO of capacity `n`; it moves an rvalue argument only if it accepts it. -/
def fifo (moved : D → D) (n : Nat) : Object (List D) (Op D) (Result D) where
  start := []
  apply q
    | .enqueue v rvalue =>
      let (q', accepted) := Fifo.enqueue n q v
      (q', .enqueued accepted (if accepted && rvalue then moved v else v))
    | .dequeue =>
      let (q', out) := Fifo.dequeue q
      (q', .dequeued out)

theorem fifo_room (moved : D → D) {q : List D} (v : D) (rvalue : Bool) (h : q.length < n) :
    (fifo moved n).apply q (.enqueue v rvalue) =
      (q ++ [v], .enqueued true (if rvalue then moved v else v)) := by
  simp [fifo, Fifo.enqueue_room v h]

theorem fifo_full (moved : D → D) {q : List D} (v : D) (rvalue : Bool) (h : n ≤ q.length) :
    (fifo moved n).apply q (.enqueue v rvalue) = (q, .enqueued false v) := by
  simp [fifo, Fifo.enqueue_full v h]

/-- A logged event as a call or return of an operation of the FIFO. -/
def Event.operation : Event T D → Linearizability.Event T (Op D) (Result D)
  | .callEnqueue t v rvalue => .call t (.enqueue v rvalue)
  | .enqueued t _ result left => .ret t (.enqueued result left)
  | .callDequeue t => .call t .dequeue
  | .dequeued t out => .ret t (.dequeued out)

def System.history (s : System w n D T) : List (Linearizability.Event T (Op D) (Result D)) :=
  s.log.map Event.operation

/-- Only the producer calls `enqueue` and only the consumer calls `dequeue`. -/
def Action.InRole : Action w D Side → Prop
  | .enqueue t _ _ _ => t = .producer
  | .dequeue t => t = .consumer
  | .run _ => True

instance : ∀ a : Action w D Side, Decidable a.InRole
  | .enqueue t _ _ _ => inferInstanceAs (Decidable (t = .producer))
  | .dequeue t => inferInstanceAs (Decidable (t = .consumer))
  | .run _ => isTrue trivial

/-! ## The invariant -/

/-- The values in the queue: the one the consumer is taking, then those in `_out_queue`. -/
def System.contents (s : System w n D Side) (used : List Nat) : List D :=
  (s.pcs .consumer).taking s.cont ++ used.map s.cont

/-- The blocks `free` go round in `_cont_queue` from position `f` on, the blocks
`used` in `_out_queue` from position `g` on, and the two calls hold the others. -/
structure Pipeline [NeZero n] (s : System w n D Side) (f g : Nat) (free used : List Nat) :
    Prop where
  side : ∀ t x, (s.pcs t).side = some x → t = x
  cont : Spsc s.contQueue (s.onCont .consumer) (s.onCont .producer) f free
  out : Spsc s.outQueue (s.onOut .producer) (s.onOut .consumer) g used
  blocks : (free ++ used ++ (s.pcs .producer).held ++ (s.pcs .consumer).held).Perm (List.range n)
  carried : ∀ v left pc, s.pcs .producer = .putOut v left pc → s.cont pc.value = v

/-- The operation a call is to perform; none has taken effect before it returns. -/
inductive Tracks (moved : D → D) : Pc w n D → Status (Op D) (Result D) → Prop where
  | idle : Tracks moved .idle .idle
  | takeFree (v rvalue r c pc) :
      Tracks moved (.takeFree v rvalue r c pc) (.pending (.enqueue v rvalue))
  | fill (v rvalue b) : Tracks moved (.fill v rvalue b) (.pending (.enqueue v rvalue))
  | putOut (v rvalue pc) :
      Tracks moved (.putOut v (if rvalue then moved v else v) pc) (.pending (.enqueue v rvalue))
  | takeOut (pc) : Tracks moved (.takeOut pc) (.pending .dequeue)
  | drain (b) : Tracks moved (.drain b) (.pending .dequeue)
  | putFree (out pc) : Tracks moved (.putFree out pc) (.pending .dequeue)

theorem taking_congr {cont cont' : Nat → D} {p : Pc w n D} (h : ∀ b ∈ p.held, cont' b = cont b) :
    p.taking cont' = p.taking cont := by
  cases p <;> simp_all [Pc.taking, Pc.held]

/-- A `dequeue` takes one value out for the block it holds. -/
theorem length_taking (cont : Nat → D) {p : Pc w n D} (h : ∀ x, p.side = some x → x = .consumer) :
    (p.taking cont).length = p.held.length := by
  cases p <;> simp_all [Pc.taking, Pc.held, Pc.side]

theorem tracks_update {moved : D → D} {pcs : Side → Pc w n D} {st : Side → Status (Op D) (Result D)}
    {t : Side} {p' : Pc w n D} {x : Status (Op D) (Result D)}
    (h : ∀ u, Tracks moved (pcs u) (st u)) (hp : Tracks moved p' x) (u : Side) :
    Tracks moved (Function.update pcs t p' u) (Function.update st t x u) := by
  by_cases hu : u = t
  · simpa [hu] using hp
  · simpa [Function.update_of_ne hu] using h u

/-- The state `s` of the queue stands for the state `c` of the FIFO and its callers. -/
def Simulates [NeZero n] (moved : D → D) (s : System w n D Side)
    (c : Config (List D) Side (Op D) (Result D)) : Prop :=
  ∃ f g free used, Pipeline s f g free used ∧ c.object = s.contents used ∧
    ∀ t, Tracks moved (s.pcs t) (c.status t)

/-! ## One step -/

variable [NeZero n] {moved : D → D} {s s' : System w n D Side} {f g : Nat} {free used : List Nat}
  {c : Config (List D) Side (Op D) (Result D)}

theorem Pipeline.at_producer (h : Pipeline s f g free used) {t : Side} {p : Pc w n D}
    (ht : s.pcs t = p) (hp : p.side = some .producer) : t = .producer :=
  h.side t _ (ht ▸ hp)

theorem Pipeline.at_consumer (h : Pipeline s f g free used) {t : Side} {p : Pc w n D}
    (ht : s.pcs t = p) (hp : p.side = some .consumer) : t = .consumer :=
  h.side t _ (ht ▸ hp)

/-- The producer moves to `p'`: what is left to show. -/
theorem Pipeline.producer (h : Pipeline s f g free used) {y : System w n D Side}
    {p' : Pc w n D} {f' : Nat} {free' used' : List Nat}
    (hpcs : y.pcs = Function.update s.pcs .producer p')
    (hside : ∀ x, p'.side = some x → x = .producer)
    (hcont : Spsc y.contQueue (s.onCont .consumer) p'.onCont f' free')
    (hout : Spsc y.outQueue p'.onOut (s.onOut .consumer) g used')
    (hblocks : (free' ++ used' ++ p'.held).Perm (free ++ used ++ (s.pcs .producer).held))
    (hcarried : ∀ v left pc, p' = .putOut v left pc → y.cont pc.value = v) :
    Pipeline y f' g free' used' where
  side t x hx := by
    by_cases ht : t = .producer
    · subst ht
      rw [hpcs, Function.update_self] at hx
      exact (hside x hx).symm
    · rw [hpcs, Function.update_of_ne ht] at hx
      exact h.side t x hx
  cont := by simpa [onCont_update hpcs] using hcont
  out := by simpa [onOut_update hpcs] using hout
  blocks := by
    rw [hpcs, Function.update_self, Function.update_of_ne (by decide)]
    exact (hblocks.append_right _).trans h.blocks
  carried v left pc hpc := by
    rw [hpcs, Function.update_self] at hpc
    exact hcarried v left pc hpc

/-- The consumer moves to `p'`: what is left to show. -/
theorem Pipeline.consumer (h : Pipeline s f g free used) {y : System w n D Side}
    {p' : Pc w n D} {g' : Nat} {free' used' : List Nat}
    (hpcs : y.pcs = Function.update s.pcs .consumer p')
    (hside : ∀ x, p'.side = some x → x = .consumer)
    (hcont : Spsc y.contQueue p'.onCont (s.onCont .producer) f free')
    (hout : Spsc y.outQueue (s.onOut .producer) p'.onOut g' used')
    (hblocks : (free' ++ used' ++ p'.held).Perm (free ++ used ++ (s.pcs .consumer).held))
    (hcarried : ∀ b ∈ (s.pcs .producer).held, y.cont b = s.cont b) :
    Pipeline y f g' free' used' where
  side t x hx := by
    by_cases ht : t = .consumer
    · subst ht
      rw [hpcs, Function.update_self] at hx
      exact (hside x hx).symm
    · rw [hpcs, Function.update_of_ne ht] at hx
      exact h.side t x hx
  cont := by simpa [onCont_update hpcs] using hcont
  out := by simpa [onOut_update hpcs] using hout
  blocks := by
    rw [hpcs, Function.update_self, Function.update_of_ne (by decide)]
    have hswap : ∀ (xs ys zs : List Nat), (xs ++ ys ++ zs).Perm (xs ++ zs ++ ys) := by
      intro xs ys zs
      simpa only [List.append_assoc] using List.perm_append_comm.append_left xs
    exact (hswap _ _ _).trans ((hblocks.append_right _).trans ((hswap _ _ _).trans h.blocks))
  carried v left pc hpc := by
    rw [hpcs, Function.update_of_ne (by decide)] at hpc
    rw [hcarried pc.value (by simp [hpc, Pc.held])]
    exact h.carried v left pc hpc

/-- No block is in two places. -/
theorem Pipeline.nodup (h : Pipeline s f g free used) :
    (free ++ used ++ (s.pcs .producer).held ++ (s.pcs .consumer).held).Nodup :=
  h.blocks.nodup_iff.mpr List.nodup_range

theorem Pipeline.count (h : Pipeline s f g free used) :
    free.length + used.length + (s.pcs .producer).held.length + (s.pcs .consumer).held.length =
      n := by
  simpa [Nat.add_assoc] using h.blocks.length_eq

theorem Pipeline.length_contents (h : Pipeline s f g free used) :
    (s.contents used).length = used.length + (s.pcs .consumer).held.length := by
  have hside : ∀ x, (s.pcs .consumer).side = some x → x = .consumer :=
    fun x hx => (h.side _ x hx).symm
  simp only [System.contents, List.length_append, List.length_map, length_taking s.cont hside]
  omega

/-- What a step has to do: its events are a trace of the FIFO. -/
def Follows (moved : D → D) (s : System w n D Side) (c : Config (List D) Side (Op D) (Result D))
    (s' : System w n D Side) : Prop :=
  ∃ new c', s'.history = s.history ++ new ∧ Trace (fifo moved n) c new c' ∧ Simulates moved s' c'

section
variable {f' g' : Nat} {free' used' : List Nat} {t : Side} {p' : Pc w n D}

/-- A step inside a call leaves the FIFO as it is. -/
theorem follows_silent (hobj : c.object = s.contents used)
    (htr : ∀ u, Tracks moved (s.pcs u) (c.status u)) (hpcs : s'.pcs = Function.update s.pcs t p')
    (hlog : s'.log = s.log) (h' : Pipeline s' f' g' free' used')
    (hsame : s'.contents used' = s.contents used) (hp : Tracks moved p' (c.status t)) :
    Follows moved s c s' := by
  refine ⟨[], c, by simp [System.history, hlog], .nil, f', g', free', used', h', ?_, ?_⟩
  · rw [hobj, hsame]
  · intro u
    have hu := tracks_update (t := t) htr hp u
    rwa [Function.update_eq_self, ← hpcs] at hu

/-- A call is pending. -/
theorem follows_call (hobj : c.object = s.contents used)
    (htr : ∀ u, Tracks moved (s.pcs u) (c.status u)) (hpcs : s'.pcs = Function.update s.pcs t p')
    (ht : s.pcs t = .idle) {e : Event Side D} {op : Op D} (hlog : s'.log = s.log ++ [e])
    (he : e.operation = .call t op) (h' : Pipeline s' f' g' free' used')
    (hsame : s'.contents used' = s.contents used) (hp : Tracks moved p' (.pending op)) :
    Follows moved s c s' := by
  have hidle : c.status t = .idle := by
    have htt := htr t
    rw [ht] at htt
    generalize hst : c.status t = st at htt
    cases htt
    rfl
  refine ⟨[.call t op], c.call t op, by simp [System.history, hlog, he], .single_call op hidle,
    f', g', free', used', h', ?_, ?_⟩
  · rw [hsame, ← hobj]
    rfl
  · intro u
    rw [hpcs]
    exact tracks_update htr hp u

/-- A call takes effect as it returns. -/
theorem follows_ret (htr : ∀ u, Tracks moved (s.pcs u) (c.status u))
    (hpcs : s'.pcs = Function.update s.pcs t .idle) {e : Event Side D} {op : Op D} {r : Result D}
    (hlog : s'.log = s.log ++ [e]) (he : e.operation = .ret t r)
    (hst : c.status t = .pending op) (h' : Pipeline s' f' g' free' used')
    (happly : (fifo moved n).apply c.object op = (s'.contents used', r)) :
    Follows moved s c s' := by
  have htrace : Trace (fifo moved n) c [.ret t r] ((c.linearize (fifo moved n) t op).ret t) := by
    simpa [happly] using Trace.complete (O := fifo moved n) hst
  refine ⟨[.ret t r], _, by simp [System.history, hlog, he], htrace, f', g', free', used', h',
    ?_, ?_⟩
  · simp [Config.ret, Config.linearize, happly]
  · intro u
    have hu := tracks_update (t := t) htr (.idle : Tracks moved .idle .idle) u
    rw [← hpcs] at hu
    simpa [Config.ret, Config.linearize] using hu

end

/-- The block in the hands of one side is free for it to write: it is neither in the FIFO nor in
the hands of the other side. -/
theorem Pipeline.apart (h : Pipeline s f g free used) {t u : Side} (htu : t ≠ u) {b : Nat}
    (hb : (s.pcs t).held = [b]) : b ∉ used ∧ b ∉ (s.pcs u).held := by
  have hnodup := h.nodup
  simp only [List.nodup_append, List.mem_append] at hnodup
  cases t <;> cases u <;> grind

/-- Such a block may be written without a change to the FIFO. -/
theorem map_update_apart (cont : Nat → D) {b : Nat} (hb : b ∉ used) (v : D) :
    used.map (Function.update cont b v) = used.map cont :=
  List.map_congr_left fun _ hk => Function.update_of_ne (ne_of_mem_of_not_mem hk hb) v cont

/-- With no block free and none in the producer's hands the FIFO holds the values of all. -/
theorem Pipeline.full (h : Pipeline s f g free used) (hfree : free = [])
    (hheld : (s.pcs .producer).held = []) : n ≤ (s.contents used).length := by
  have hcount := h.count
  rw [h.length_contents]
  simp only [hfree, hheld, List.length_nil] at hcount
  omega

/-- With a block in the producer's hands there is room for its value. -/
theorem Pipeline.room (h : Pipeline s f g free used) {b : Nat}
    (hheld : (s.pcs .producer).held = [b]) : (s.contents used).length < n := by
  have hcount := h.count
  rw [h.length_contents]
  simp only [hheld, List.length_singleton] at hcount
  omega

/-- A step of the producer inside its call. -/
theorem Pipeline.producer_silent (h : Pipeline s f g free used) (hobj : c.object = s.contents used)
    (htr : ∀ u, Tracks moved (s.pcs u) (c.status u)) {p' : Pc w n D} {f' : Nat} {free' : List Nat}
    (hpcs : s'.pcs = Function.update s.pcs .producer p') (hlog : s'.log = s.log)
    (hp : Tracks moved p' (c.status .producer)) (hside : p'.side = some .producer)
    (hcont : Spsc s'.contQueue (s.onCont .consumer) p'.onCont f' free')
    (hout : Spsc s'.outQueue p'.onOut (s.onOut .consumer) g used)
    (hblocks : (free' ++ used ++ p'.held).Perm (free ++ used ++ (s.pcs .producer).held))
    (hcarried : ∀ v left pc, p' = .putOut v left pc → s'.cont pc.value = v)
    (hsame : s'.contents used = s.contents used) : Follows moved s c s' := by
  have hmine : ∀ x, p'.side = some x → x = .producer :=
    fun x hx => Option.some.inj (hx.symm.trans hside)
  have h' := h.producer hpcs hmine hcont hout hblocks hcarried
  exact follows_silent hobj htr hpcs hlog h' hsame hp

/-- A step of the consumer inside its call. -/
theorem Pipeline.consumer_silent (h : Pipeline s f g free used) (hobj : c.object = s.contents used)
    (htr : ∀ u, Tracks moved (s.pcs u) (c.status u)) {p' : Pc w n D} {g' : Nat} {used' : List Nat}
    (hpcs : s'.pcs = Function.update s.pcs .consumer p') (hlog : s'.log = s.log)
    (hp : Tracks moved p' (c.status .consumer)) (hside : p'.side = some .consumer)
    (hcont : Spsc s'.contQueue p'.onCont (s.onCont .producer) f free)
    (hout : Spsc s'.outQueue (s.onOut .producer) p'.onOut g' used')
    (hblocks : (free ++ used' ++ p'.held).Perm (free ++ used ++ (s.pcs .consumer).held))
    (hcarried : ∀ b ∈ (s.pcs .producer).held, s'.cont b = s.cont b)
    (hsame : s'.contents used' = s.contents used) : Follows moved s c s' := by
  have hmine : ∀ x, p'.side = some x → x = .consumer :=
    fun x hx => Option.some.inj (hx.symm.trans hside)
  have h' := h.consumer hpcs hmine hcont hout hblocks hcarried
  exact follows_silent hobj htr hpcs hlog h' hsame hp

/-- A step of the producer. -/
theorem follows_producer {a : Action w D Side} (h : Pipeline s f g free used)
    (hobj : c.object = s.contents used) (htr : ∀ u, Tracks moved (s.pcs u) (c.status u))
    (hs : Stepped moved s a s') (hrole : a.InRole) (ha : a.thread = .producer) :
    Follows moved s c s' := by
  have hcont := h.cont
  have hout := h.out
  have hst := htr .producer
  simp only [System.onCont, System.onOut] at hcont hout
  generalize hx : c.status .producer = x at hst
  cases hs with
  | callDequeue t ht => exact absurd (ha.symm.trans hrole) (by decide)
  | callEnqueue t v rvalue retries ht =>
    obtain rfl : t = .producer := ha
    rw [ht] at hcont hout
    have hcont' := hcont.dequeuer_rest rfl (.inr rfl)
    have h' := h.producer (y := s.emit .producer (.takeFree v rvalue retries 0 .load)
      (.callEnqueue .producer v rvalue)) rfl (by simp [Pc.side]) hcont' hout (by simp [Pc.held, ht])
      (by simp)
    exact follows_call hobj htr rfl ht rfl rfl h' (by simp [System.contents, System.emit])
      (.takeFree ..)
  | takeFree t v rvalue retries counter pc pc' q ht hm =>
    obtain rfl : t = .producer := ha
    rw [ht] at hcont hout hst
    cases hst
    have hcont' := hcont.dequeue_goto hm
    refine h.producer_silent hobj htr rfl rfl (hx ▸ .takeFree ..) rfl hcont' hout ?_ ?_ ?_
    · simp [Pc.held, ht]
    · simp
    · simp [System.contents, System.setPc]
  | noneFree t v rvalue retries counter i ht hnull hmore =>
    obtain rfl : t = .producer := ha
    rw [ht] at hcont hout hst
    cases hst
    have hcont' := hcont.dequeuer_rest rfl (.inr rfl)
    refine h.producer_silent hobj htr rfl rfl (hx ▸ .takeFree ..) rfl hcont' hout ?_ ?_ ?_
    · simp [Pc.held, ht]
    · simp
    · simp [System.contents, System.setPc]
  | refused t v rvalue retries counter i ht hnull hlast =>
    obtain rfl : t = .producer := ha
    rw [ht] at hcont hout hst
    cases hst
    have hcont' := hcont.dequeuer_rest rfl (.inl rfl)
    have h' := h.producer (y := s.emit .producer .idle (.enqueued .producer v false v)) rfl
      (by simp [Pc.side]) hcont' hout (by simp [Pc.held, ht]) (by simp)
    have hsame : (s.emit .producer .idle (.enqueued .producer v false v)).contents used =
        c.object := by
      rw [hobj]
      simp [System.contents, System.emit]
    have hnil : free = [] := by
      obtain rfl := hcont.checkFront i rfl
      exact hcont.nil_of_null rfl hnull
    have hfull : n ≤ c.object.length := by
      rw [hobj]
      exact h.full hnil (by rw [ht]; rfl)
    apply follows_ret htr rfl rfl rfl hx h'
    rw [fifo_full moved v rvalue hfull, hsame]
  | gotFree t v rvalue retries counter i b ht =>
    obtain rfl : t = .producer := ha
    rw [ht] at hcont hout hst
    cases hst
    obtain ⟨rest, rfl, hcont'⟩ := hcont.clear
    refine h.producer_silent hobj htr rfl rfl (hx ▸ .fill ..) rfl hcont' hout ?_ ?_ ?_
    · simpa [Pc.held, ht] using List.perm_append_singleton b (rest ++ used)
    · simp
    · simp [System.contents, System.setPc]
  | fill t v rvalue b ht =>
    obtain rfl : t = .producer := ha
    have hapart := h.apart (t := .producer) (u := .consumer) (by decide) (by rw [ht]; rfl)
    rw [ht] at hcont hout hst
    cases hst
    have hout' := hout.enqueuer_rest rfl (.inr ⟨b, 0, 0, rfl⟩)
    have htaking : (s.pcs .consumer).taking (Function.update s.cont b v) =
        (s.pcs .consumer).taking s.cont :=
      taking_congr fun k hk =>
        Function.update_of_ne (ne_of_mem_of_not_mem hk hapart.2) v s.cont
    refine h.producer_silent hobj htr rfl rfl (hx ▸ .putOut ..) rfl hcont hout' ?_ ?_ ?_
    · simp [Pc.held, ht, EnqueuePc.start, EnqueuePc.value]
    · intro _ _ _ hpc
      cases hpc
      simp [System.setPc, EnqueuePc.start, EnqueuePc.value]
    · simp [System.contents, System.setPc, htaking, map_update_apart s.cont hapart.1]
  | putOut t v left pc pc' q ht hm =>
    obtain rfl : t = .producer := ha
    have hcarried := h.carried v left pc ht
    rw [ht] at hcont hout hst
    have hval : pc'.value = pc.value := by cases hm <;> rfl
    have hout' := hout.enqueue_goto hm
    cases hst
    refine h.producer_silent hobj htr rfl rfl (hx ▸ .putOut ..) rfl hcont hout' ?_ ?_ ?_
    · simp [Pc.held, ht, hval]
    · intro _ _ _ hpc
      cases hpc
      simpa [System.setPc, hval] using hcarried
    · simp [System.contents, System.setPc]
  | outFull t v left b r counter i ht hset =>
    obtain rfl : t = .producer := ha
    have hcarried := h.carried v left _ ht
    rw [ht] at hcont hout hst
    have hout' := hout.enqueuer_rest rfl (.inr ⟨b, 0, 0, rfl⟩)
    cases hst
    refine h.producer_silent hobj htr rfl rfl (hx ▸ .putOut ..) rfl hcont hout' ?_ ?_ ?_
    · simp [Pc.held, ht, EnqueuePc.start, EnqueuePc.value]
    · intro _ _ _ hpc
      cases hpc
      exact hcarried
    · simp [System.contents, System.setPc]
  | enqueued t v left b i ht =>
    obtain rfl : t = .producer := ha
    have hcarried := h.carried v left _ ht
    rw [ht] at hcont hout hst
    have hout' := hout.publish
    have h' := h.producer (y := { s with outQueue := { s.outQueue with
        ptrs := Function.update s.outQueue.ptrs i true } }.emit .producer .idle
          (.enqueued .producer v true left)) rfl (by simp [Pc.side]) hcont hout'
      (by simp [Pc.held, ht, EnqueuePc.value]) (by simp)
    have hroom : c.object.length < n := by
      rw [hobj]
      exact h.room (by rw [ht]; rfl)
    have hv : s.cont b = v := hcarried
    cases hst
    apply follows_ret htr rfl rfl rfl hx h'
    rw [fifo_room moved v _ hroom]
    simp [hobj, System.contents, System.emit, hv]
  | takeOut t _ _ _ ht | noneOut t _ ht | gotOut t _ _ ht | drain t _ ht | putFree t _ _ _ _ ht
  | contFull t _ _ _ _ _ ht | dequeued t _ _ _ ht =>
    obtain rfl : t = .producer := ha
    cases h.at_consumer ht rfl

/-- A step of the consumer. -/
theorem follows_consumer {a : Action w D Side} (h : Pipeline s f g free used)
    (hobj : c.object = s.contents used) (htr : ∀ u, Tracks moved (s.pcs u) (c.status u))
    (hs : Stepped moved s a s') (hrole : a.InRole) (ha : a.thread = .consumer) :
    Follows moved s c s' := by
  have hcont := h.cont
  have hout := h.out
  have hst := htr .consumer
  simp only [System.onCont, System.onOut] at hcont hout
  generalize hx : c.status .consumer = x at hst
  cases hs with
  | callEnqueue t v rvalue retries ht => exact absurd (ha.symm.trans hrole) (by decide)
  | callDequeue t ht =>
    obtain rfl : t = .consumer := ha
    rw [ht] at hcont hout
    have hout' := hout.dequeuer_rest rfl (.inr rfl)
    have h' := h.consumer (y := s.emit .consumer (.takeOut .load) (.callDequeue .consumer)) rfl
      (by simp [Pc.side]) hcont hout' (by simp [Pc.held, ht]) (by simp [System.emit])
    exact follows_call hobj htr rfl ht rfl rfl h'
      (by simp [System.contents, System.emit, Pc.taking, ht]) (.takeOut ..)
  | takeOut t pc pc' q ht hm =>
    obtain rfl : t = .consumer := ha
    rw [ht] at hcont hout hst
    cases hst
    have hout' := hout.dequeue_goto hm
    refine h.consumer_silent hobj htr rfl rfl (hx ▸ .takeOut ..) rfl hcont hout' ?_ ?_ ?_
    · simp [Pc.held, ht]
    · simp [System.setPc]
    · simp [System.contents, System.setPc, Pc.taking, ht]
  | noneOut t i ht hnull =>
    obtain rfl : t = .consumer := ha
    rw [ht] at hcont hout hst
    cases hst
    have hout' := hout.dequeuer_rest rfl (.inl rfl)
    have h' := h.consumer (y := s.emit .consumer .idle (.dequeued .consumer none)) rfl
      (by simp [Pc.side]) hcont hout' (by simp [Pc.held, ht]) (by simp [System.emit])
    -- no block is out and the consumer holds none, so the FIFO is empty
    have hnil : used = [] := by
      obtain rfl := hout.checkFront i rfl
      exact hout.nil_of_null rfl hnull
    have hempty : c.object = [] := by
      simp [hobj, System.contents, hnil, ht, Pc.taking]
    apply follows_ret htr rfl rfl rfl hx h'
    simp [fifo, hempty, System.contents, System.emit, hnil, Pc.taking]
  | gotOut t i b ht =>
    obtain rfl : t = .consumer := ha
    rw [ht] at hcont hout hst
    cases hst
    obtain ⟨rest, rfl, hout'⟩ := hout.clear
    refine h.consumer_silent hobj htr rfl rfl (hx ▸ .drain ..) rfl hcont hout' ?_ ?_ ?_
    · simpa [Pc.held, ht] using (List.perm_append_singleton b rest).append_left free
    · simp [System.setPc]
    · simp [System.contents, System.setPc, Pc.taking, ht]
  | drain t b ht =>
    obtain rfl : t = .consumer := ha
    have hapart := h.apart (t := .consumer) (u := .producer) (by decide) (by rw [ht]; rfl)
    rw [ht] at hcont hout hst
    cases hst
    have hcont' := hcont.enqueuer_rest rfl (.inr ⟨b, 0, 0, rfl⟩)
    refine h.consumer_silent hobj htr rfl rfl (hx ▸ .putFree ..) rfl hcont' hout ?_ ?_ ?_
    · simp [Pc.held, ht, EnqueuePc.start, EnqueuePc.value]
    · intro k hk
      exact Function.update_of_ne (ne_of_mem_of_not_mem hk hapart.2) _ s.cont
    · simp [System.contents, System.setPc, Pc.taking, ht, map_update_apart s.cont hapart.1]
  | putFree t out pc pc' q ht hm =>
    obtain rfl : t = .consumer := ha
    rw [ht] at hcont hout hst
    cases hst
    have hval : pc'.value = pc.value := by cases hm <;> rfl
    have hcont' := hcont.enqueue_goto hm
    refine h.consumer_silent hobj htr rfl rfl (hx ▸ .putFree ..) rfl hcont' hout ?_ ?_ ?_
    · simp [Pc.held, ht, hval]
    · simp [System.setPc]
    · simp [System.contents, System.setPc, Pc.taking, ht]
  | contFull t out b r counter i ht hset =>
    obtain rfl : t = .consumer := ha
    rw [ht] at hcont hout hst
    cases hst
    have hcont' := hcont.enqueuer_rest rfl (.inr ⟨b, 0, 0, rfl⟩)
    refine h.consumer_silent hobj htr rfl rfl (hx ▸ .putFree ..) rfl hcont' hout ?_ ?_ ?_
    · simp [Pc.held, ht, EnqueuePc.start, EnqueuePc.value]
    · simp [System.setPc]
    · simp [System.contents, System.setPc, Pc.taking, ht]
  | dequeued t out b i ht =>
    obtain rfl : t = .consumer := ha
    rw [ht] at hcont hout hst
    cases hst
    have hcont' := hcont.publish
    have h' := h.consumer (y := { s with contQueue := { s.contQueue with
        ptrs := Function.update s.contQueue.ptrs i true } }.emit .consumer .idle
          (.dequeued .consumer (some out))) rfl (by simp [Pc.side]) hcont' hout
      (by
        have hswap := (List.perm_append_singleton b used).symm.append_left free
        simpa [Pc.held, ht, EnqueuePc.value] using hswap) (by simp [System.emit])
    have hhead : c.object = out :: used.map s.cont := by
      simp [hobj, System.contents, ht, Pc.taking]
    apply follows_ret htr rfl rfl rfl hx h'
    simp [fifo, hhead, System.contents, System.emit, Pc.taking]
  | takeFree t _ _ _ _ _ _ _ ht | noneFree t _ _ _ _ _ ht | refused t _ _ _ _ _ ht
  | gotFree t _ _ _ _ _ _ ht | fill t _ _ _ ht | putOut t _ _ _ _ _ ht
  | outFull t _ _ _ _ _ _ ht | enqueued t _ _ _ _ ht =>
    obtain rfl : t = .consumer := ha
    cases h.at_producer ht rfl

/-! ## Calls that fail -/

/-- The memory of the queue: the blocks and the slots and indices of both rings. -/
def System.memory (s : System w n D T) : (Nat → D) × AtQueue n Nat × AtQueue n Nat :=
  (s.cont, s.contQueue, s.outQueue)

/-- In `enqueue` and without a block yet. -/
def Pc.Searching : Pc w n D → Prop
  | takeFree _ _ _ _ pc => (AtQueue.Pc.dequeue (w := w) pc).reading = none
  | _ => False

/-- In `enqueue` with a block, or returned. -/
def Pc.Settled : Pc w n D → Prop
  | takeFree _ _ _ _ pc => (AtQueue.Pc.dequeue (w := w) pc).reading ≠ none
  | fill .. | putOut .. | idle => True
  | _ => False

/-- Of each call of `enqueue` in the run that returns false, every step leaves
the memory as it is. Between the call in state `x` and the return in state `y`
its thread starts no other call. -/
def RefusedUntouched [DecidableEq T] (moved : D → D)
    (tr : List (System w n D T × Action w D T)) : Prop :=
  ∀ before x t v rvalue retries during y after z u left,
    tr = before ++ (x, Action.enqueue t v rvalue retries) :: during ++ (y, Action.run t) :: after →
    (∀ p ∈ during, p.2.thread = t → p.2 = .run t) →
    y.step moved (.run t) = some z → z.log = y.log ++ [.enqueued t u false left] →
    ∀ p ∈ during ++ [(y, Action.run t)], p.2 = .run t →
      ∀ p', p.1.step moved p.2 = some p' → p'.memory = p.1.memory

section
variable [DecidableEq T] {x x' : System w n D T} {t : T}

omit [NeZero n] in
/-- A search for a block leaves the memory alone until it has one. -/
theorem searching_step (h : Stepped moved x (.run t) x') (hp : (x.pcs t).Searching) :
    (x'.memory = x.memory ∧ ((x'.pcs t).Searching ∨ (x'.pcs t).Settled)) ∨
      ((x'.pcs t).Settled ∧ x'.log = x.log) := by
  cases h with
  | takeFree t v rvalue retries counter pc pc' q ht hm =>
    rw [ht] at hp
    cases hm with
    | loadFront | seen | lostFront =>
      exact .inl ⟨rfl, .inl (by simp [System.setPc, Pc.Searching, AtQueue.Pc.reading])⟩
    | claim => exact .inr ⟨by simp [System.setPc, Pc.Settled, AtQueue.Pc.reading], rfl⟩
    | take i => cases hp
  | noneFree t v rvalue retries counter i ht =>
    exact .inl ⟨rfl, .inl (by simp [System.setPc, Pc.Searching, AtQueue.Pc.reading])⟩
  | refused t v rvalue retries counter i ht =>
    exact .inl ⟨rfl, .inr (by simp [System.emit, Pc.Settled])⟩
  | gotFree t v rvalue retries counter i b ht =>
    rw [ht] at hp
    cases hp
  | _ => simp_all [Pc.Searching]

omit [NeZero n] in
/-- A call that has its block does not fail. -/
theorem settled_step (h : Stepped moved x (.run t) x') (hp : (x.pcs t).Settled) :
    (x'.pcs t).Settled ∧ ∀ v left, x'.log ≠ x.log ++ [.enqueued t v false left] := by
  cases h with
  | takeFree t v rvalue retries counter pc pc' q ht hm =>
    rw [ht] at hp
    cases hm <;> simp_all [System.setPc, Pc.Settled, AtQueue.Pc.reading]
  | noneFree t v rvalue retries counter i ht =>
    rw [ht] at hp
    exact absurd rfl hp
  | refused t v rvalue retries counter i ht =>
    rw [ht] at hp
    exact absurd rfl hp
  | _ => simp_all [System.setPc, System.emit, Pc.Settled]

omit [NeZero n] in
/-- Up to any point of the call either its steps have left the memory alone and
it is still searching, or it has its block. -/
theorem searching_run {during : List (System w n D T × Action w D T)} {y : System w n D T}
    (hx : (x.pcs t).Searching) (h : Run (System.step moved) x during y)
    (hown : ∀ p ∈ during, p.2.thread = t → p.2 = .run t) :
    ((y.pcs t).Searching ∧ ∀ p ∈ during, p.2 = .run t →
      ∀ p', p.1.step moved p.2 = some p' → p'.memory = p.1.memory) ∨ (y.pcs t).Settled := by
  induction h with
  | nil => exact .inl ⟨hx, by simp⟩
  | @snoc tr m m' a _ hs ih =>
    have hstep := System.step_cases hs
    have hown' : ∀ p ∈ tr, p.2.thread = t → p.2 = .run t := fun p hp => hown p (by simp [hp])
    -- a step of the call itself, or one of another thread, which leaves `t` where it is
    by_cases hat : a.thread = t
    · obtain rfl := hown (m, a) (by simp) hat
      rcases ih hown' with ⟨hsearch, hsame⟩ | hset
      · rcases searching_step hstep hsearch with ⟨hmem, hnext | hnext⟩ | ⟨hnext, -⟩
        · refine .inl ⟨hnext, ?_⟩
          intro p hp
          rcases List.mem_append.mp hp with hp | hp
          · exact hsame p hp
          · obtain rfl := List.mem_singleton.mp hp
            intro _ p' hp'
            obtain rfl := Option.some.inj (hs.symm.trans hp')
            exact hmem
        · exact .inr hnext
        · exact .inr hnext
      · exact .inr (settled_step hstep hset).1
    · obtain ⟨pc, hpc⟩ := hstep.pcs
      have hkeep : m'.pcs t = m.pcs t := by rw [hpc, Function.update_of_ne (Ne.symm hat)]
      rw [hkeep]
      rcases ih hown' with ⟨hsearch, hsame⟩ | hset
      · refine .inl ⟨hsearch, ?_⟩
        intro p hp
        rcases List.mem_append.mp hp with hp | hp
        · exact hsame p hp
        · obtain rfl := List.mem_singleton.mp hp
          intro hrun
          exact absurd (congrArg Action.thread hrun) hat
      · exact .inr hset

omit [NeZero n] in
theorem refused_untouched {x₀ y : System w n D T} {tr : List (System w n D T × Action w D T)}
    (h : Run (System.step moved) x₀ tr y) : RefusedUntouched moved tr := by
  intro before x t v rvalue retries during y after z u left htr hown hstep hlog
  subst htr
  obtain ⟨m, h₁, hafter⟩ := Run.split h
  obtain ⟨rfl, -⟩ := hafter.cons
  obtain ⟨m, -, hcall⟩ := Run.split h₁
  obtain ⟨rfl, x₁, hx₁, hduring⟩ := hcall.cons
  have hsearch : (x₁.pcs t).Searching := by
    cases System.step_cases hx₁
    simp [System.emit, Pc.Searching, AtQueue.Pc.reading]
  intro p hp hrun p' hp'
  rcases searching_run hsearch hduring hown with ⟨hlast, hsame⟩ | hset
  · rcases List.mem_append.mp hp with hp | hp
    · exact hsame p hp hrun p' hp'
    · obtain rfl := List.mem_singleton.mp hp
      obtain rfl := Option.some.inj (hstep.symm.trans hp')
      -- the last step logs the refusal, so it has not found a block
      rcases searching_step (System.step_cases hstep) hlast with ⟨hmem, -⟩ | ⟨-, hquiet⟩
      · exact hmem
      · rw [hquiet] at hlog
        simp at hlog
  · exact absurd hlog ((settled_step (System.step_cases hstep) hset).2 u left)

end

/-! ## Runs -/

theorem Simulates.step {a : Action w D Side} (h : Simulates moved s c) (hrole : a.InRole)
    (hs : s.step moved a = some s') : Follows moved s c s' := by
  obtain ⟨f, g, free, used, hp, hobj, htr⟩ := h
  cases ha : a.thread with
  | producer => exact follows_producer hp hobj htr (System.step_cases hs) hrole ha
  | consumer => exact follows_consumer hp hobj htr (System.step_cases hs) hrole ha

theorem simulates_init [Inhabited D] :
    Simulates moved (System.init : System w n D Side) (Config.start (fifo moved n)) := by
  refine ⟨0, 0, List.range n, [], ?_, rfl, fun _ => .idle⟩
  constructor
  case side => simp [System.init, Pc.side]
  case blocks => simp [System.init, Pc.held]
  case carried => simp [System.init]
  case cont => exact spsc_full
  case out =>
    constructor <;> simp [System.init, System.onOut, Pc.onOut, AtQueue.init, Pc.reads, Pc.writes,
      AtQueue.Pc.reading, AtQueue.Pc.writing]

/-- Every run has a linearizable history. -/
theorem linearizable_run [Inhabited D] {tr : List (System w n D Side × Action w D Side)}
    (h : Run (System.step moved) System.init tr s) (hrole : Meets (fun _ => Action.InRole) tr) :
    Linearizable (fifo moved n) s.history :=
  linearizable_of_simulation (Simulates moved) rfl simulates_init
    (fun _ _ _ _ hR ha hs => hR.step ha hs) h hrole

/-- **One producer and one consumer: a bounded FIFO.** At any capacity, with any
calls and any interleaving, the calls and their results are those of the FIFO
with each operation taking effect at one point of its call, and a call of
`enqueue` that returns false has left the memory and its argument alone. -/
theorem spsc_refines_fifo [Inhabited D] {tr : List (System w n D Side × Action w D Side)}
    (h : Run (System.step moved) System.init tr s) (hrole : Meets (fun _ => Action.InRole) tr) :
    Linearizable (fifo moved n) s.history ∧ RefusedUntouched moved tr :=
  ⟨linearizable_run h hrole, refused_untouched h⟩

/-- Capacity 1: the consumer calls first and finds nothing, the producer's second
`enqueue` is refused while the consumer is still taking the first value out. -/
def refusedHandover : List (Event Side Nat) :=
  [.callDequeue .consumer, .callEnqueue .producer 7 false, .dequeued .consumer none,
    .enqueued .producer 7 true 7, .callDequeue .consumer, .callEnqueue .producer 8 true,
    .enqueued .producer 8 false 8, .dequeued .consumer (some 7)]

theorem spsc_refines_fifo_handover : ∃ (tr : _) (s : System 64 1 Nat Side),
    Run (System.step id) System.init tr s ∧ Meets (fun _ => Action.InRole) tr ∧
      s.log = refusedHandover ∧ Linearizable (fifo id 1) s.history ∧ RefusedUntouched id tr := by
  have hrun : ∃ (tr : _) (s : System 64 1 Nat Side), Run (System.step id) System.init tr s ∧
      Meets (fun _ => Action.InRole) tr ∧ tr.map Prod.snd = _ ∧ s.log = refusedHandover :=
    Run.of_execMeets_any (call (.dequeue .consumer) .consumer 1 ++
      call (.enqueue .producer 7 false 0) .producer 5 ++ call (.run .consumer) .producer 6 ++
      call (.dequeue .consumer) .consumer 7 ++ call (.enqueue .producer 8 true 0) .producer 2 ++
      call (.run .consumer) .consumer 3) (by decide)
  obtain ⟨tr, s, hr, hrole, -, hlog⟩ := hrun
  exact ⟨tr, s, hr, hrole, hlog, spsc_refines_fifo hr hrole⟩

end Vee.Lockfree.Queue
