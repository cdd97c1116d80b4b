import Vee.Lockfree.BlockOwnership
import Vee.Lockfree.Ledger

/- What a `dequeue` that returns false says about a `queue` with several producers.

   With one consumer and clean exchanges the values whose `enqueue` has returned
   true and that have not been dequeued are those of the blocks published in
   `_out_queue` (`Booked`). A `dequeue` returns false when the pointer at `_front`
   is null, which is not the same thing: a producer that has won the front slot
   and not published it yet hides the slots published behind it. The failing call
   is truthful exactly when no value was hidden as it began
   (`clean_truthful_iff`); `hidden_value_missed` is a run in which one was. -/
namespace Vee.Lockfree

/-- The front slot is null and a slot behind it is published. -/
def AtQueue.Hidden {n : Nat} {D : Type*} (q : AtQueue n D) : Prop :=
  q.ptrs q.front = false ∧ ∃ i, q.ptrs i = true

instance {n : Nat} {D : Type*} (q : AtQueue n D) : Decidable q.Hidden :=
  inferInstanceAs (Decidable (_ ∧ _))

namespace Queue
open AtQueue Transition Ownership

variable {w n : Nat} {D T : Type*}

/-- The value of a call of `enqueue` that returned true. -/
def Event.accepted : Event T D → Option D
  | .enqueued _ value true _ => some value
  | _ => none

/-- The value of a call of `dequeue` that returned true. -/
def Event.taken : Event T D → Option D
  | .dequeued _ result => result
  | _ => none

def accepted (log : List (Event T D)) : Multiset D := ↑(log.filterMap Event.accepted)

def taken (log : List (Event T D)) : Multiset D := ↑(log.filterMap Event.taken)

@[simp] theorem accepted_snoc (log : List (Event T D)) (e : Event T D) :
    accepted (log ++ [e]) = accepted log + ↑e.accepted.toList := by
  simp only [accepted, List.filterMap_append, ← Multiset.coe_add]
  cases he : e.accepted <;> simp [he]

@[simp] theorem taken_snoc (log : List (Event T D)) (e : Event T D) :
    taken (log ++ [e]) = taken log + ↑e.taken.toList := by
  simp only [taken, List.filterMap_append, ← Multiset.coe_add]
  cases he : e.taken <;> simp [he]

/-- Every value whose `enqueue` has returned true has been dequeued. -/
def System.Drained (s : System w n D T) : Prop := accepted s.log ≤ taken s.log

instance [DecidableEq D] (s : System w n D T) : Decidable s.Drained :=
  inferInstanceAs (Decidable (_ ≤ _))

/-- Only thread `c` calls `dequeue`. -/
def Action.ConsumedBy (c : T) : Action w D T → Prop
  | .dequeue t => t = c
  | _ => True

instance [DecidableEq T] (c : T) : ∀ a : Action w D T, Decidable (a.ConsumedBy c)
  | .dequeue t => inferInstanceAs (Decidable (t = c))
  | .enqueue .. | .run _ => isTrue trivial

/-! ## The values in the queue -/

/-- The block whose value the call has still to take out. -/
def Pc.loaded : Pc w n D → Option Nat
  | takeOut (.clear _ b) | drain b => some b
  | _ => none

theorem Pc.loaded_block {p : Pc w n D} {b : Nat} (h : p.loaded = some b) : p.block = some b := by
  unfold Pc.loaded at h
  split at h
  · exact h
  · exact h
  · cases h

/-- The value the call has taken out and has still to return. -/
def Pc.returning : Pc w n D → Multiset D
  | putFree out _ => {out}
  | _ => 0

/-- Block `b` holds a value that is in the queue. -/
def System.Loaded (s : System w n D T) (c : T) (b : Nat) : Prop :=
  (∃ i, s.Owns (.outSlot i) b) ∨ (s.pcs c).loaded = some b

/-- The values in the queue: those of the loaded blocks, and the one the consumer `c` returns. -/
def System.Queued (s : System w n D T) (c : T) (m : Multiset D) : Prop :=
  ∃ loaded : Fin n → Bool, (∀ b : Fin n, loaded b = true ↔ s.Loaded c b) ∧
    m = holding loaded (fun b => s.cont b) + (s.pcs c).returning

/-- The invariant: each id has one owner, only `c` is in `dequeue`, a block on its
way to `_out_queue` stores its value, and the values accepted are those taken and
those in the queue. -/
structure Booked [DecidableEq T] (c : T) (s : System w n D T) : Prop where
  owned : Owned s
  consumer : ∀ t, (s.pcs t).side = some .consumer → t = c
  carried : ∀ t v left pc, s.pcs t = .putOut v left pc → s.cont pc.value = v
  balance : ∃ m, s.Queued c m ∧ accepted s.log = taken s.log + m

section
variable {c : T} {s s' : System w n D T} {m : Multiset D}

/-- The same blocks are loaded, with the same values. -/
theorem queued_same (h : s.Queued c m) (hloaded : ∀ b, s'.Loaded c b ↔ s.Loaded c b)
    (hcont : ∀ b, s.Loaded c b → s'.cont b = s.cont b)
    (hret : (s'.pcs c).returning = (s.pcs c).returning) : s'.Queued c m := by
  obtain ⟨loaded, hiff, rfl⟩ := h
  refine ⟨loaded, fun b => (hiff b).trans (hloaded b).symm, ?_⟩
  have hheld : holding loaded (fun b => s'.cont b) = holding loaded (fun b => s.cont b) :=
    holding_congr fun b hb => hcont b ((hiff b).mp hb)
  rw [hheld, hret]

/-- One more block is loaded. -/
theorem queued_publish (h : s.Queued c m) {b : Nat} (hb : b < n) (hnew : ¬ s.Loaded c b)
    (hloaded : ∀ k, s'.Loaded c k ↔ s.Loaded c k ∨ k = b) (hcont : s'.cont = s.cont)
    (hret : (s'.pcs c).returning = (s.pcs c).returning) : s'.Queued c (s.cont b ::ₘ m) := by
  obtain ⟨loaded, hiff, rfl⟩ := h
  have hnull : loaded ⟨b, hb⟩ = false := by
    rw [Bool.eq_false_iff]
    exact fun hset => hnew ((hiff ⟨b, hb⟩).mp hset)
  refine ⟨Function.update loaded ⟨b, hb⟩ true, ?_, ?_⟩
  · intro k
    by_cases hk : k = ⟨b, hb⟩
    · subst hk
      simp [hloaded]
    · have hkb : k.val ≠ b := fun heq => hk (Fin.ext heq)
      simp [Function.update_of_ne hk, hloaded, hkb, hiff]
  · rw [holding_set hnull, hcont, hret, Multiset.cons_add]

/-- The consumer takes the value of its block out. -/
theorem queued_drain (h : s.Queued c m) {b : Nat} (hb : b < n) (hold : s.Loaded c b)
    (hloaded : ∀ k, s'.Loaded c k ↔ s.Loaded c k ∧ k ≠ b)
    (hcont : ∀ k, k ≠ b → s'.cont k = s.cont k) (hret : (s.pcs c).returning = 0)
    (hret' : (s'.pcs c).returning = {s.cont b}) : s'.Queued c m := by
  obtain ⟨loaded, hiff, rfl⟩ := h
  have hset : loaded ⟨b, hb⟩ = true := (hiff ⟨b, hb⟩).mpr hold
  refine ⟨Function.update loaded ⟨b, hb⟩ false, ?_, ?_⟩
  · intro k
    by_cases hk : k = ⟨b, hb⟩
    · subst hk
      simp [hloaded]
    · have hkb : k.val ≠ b := fun heq => hk (Fin.ext heq)
      simp [Function.update_of_ne hk, hloaded, hkb, hiff]
  · have hheld : holding (Function.update loaded ⟨b, hb⟩ false) (fun k => s'.cont k) =
        holding (Function.update loaded ⟨b, hb⟩ false) (fun k => s.cont k) := by
      apply holding_congr
      intro k hk
      apply hcont
      intro heq
      subst heq
      simp at hk
    rw [hheld, hret, hret', holding_clear hset, add_zero, ← Multiset.singleton_add, add_comm]

variable [DecidableEq T] {moved : D → D} {a : Action w D T}

/-- A step that neither takes an id from a slot of `_out_queue` nor publishes one. -/
theorem loaded_same (hs : s.Slots) (h : Stepped moved s a s')
    (htake : ∀ i, s.onOut a.thread ≠ .dequeue (.take i))
    (hpub : ∀ v i, s.onOut a.thread ≠ .enqueue (.publish v i))
    (hl : (s'.pcs a.thread).loaded = (s.pcs a.thread).loaded) (b : Nat) :
    s'.Loaded c b ↔ s.Loaded c b := by
  simp only [System.Loaded, System.Owns, outSlots_same hs h htake hpub, h.pcs_same Pc.loaded hl]

/-- A loaded block is in no other call. -/
theorem Booked.not_loaded (h : Booked c s) {t : T} {b : Nat} (hb : (s.pcs t).block = some b)
    (ht : (s.pcs t).loaded = none) : ¬ s.Loaded c b := by
  have hcall : s.Owns (.call t) b := hb
  intro hor
  rcases hor with ⟨i, hi⟩ | hc
  · cases h.owned.once.owner_eq hcall hi
  · have hct : s.Owns (.call c) b := Pc.loaded_block hc
    cases h.owned.once.owner_eq hcall hct
    rw [ht] at hc
    cases hc

omit [DecidableEq T] in
theorem owns_call {t : T} {b : Nat} (h : (s.pcs t).block = some b) : s.Owns (.call t) b := h

/-- An id that moves from its slot to the consumer stays loaded. -/
theorem loaded_take (hs : s.Slots) {i : Fin n} (ht : s.pcs c = .takeOut (.take i)) (b : Nat) :
    ({ s with outQueue := { s.outQueue with
        cont := Function.update s.outQueue.cont i (s.outQueue.cont i) } }.setPc c
          (.takeOut (.clear i (s.outQueue.cont i)))).Loaded c b ↔ s.Loaded c b := by
  have hat : s.onOut c = .dequeue (.take i) := by simp [System.onOut, ht, Pc.onOut]
  obtain ⟨hhas, hiff⟩ := slotHas_take hs.out hat
  simp only [System.Loaded, System.Owns, onOut_setPc]
  simp only [System.setPc, Function.update_self, ht, Pc.loaded, Option.some.injEq, reduceCtorEq,
    or_false]
  refine ⟨?_, ?_⟩
  · intro hor
    rcases hor with ⟨j, hj⟩ | rfl
    · exact ⟨j, ((hiff _ j b).mp hj).1⟩
    · exact ⟨i, hhas⟩
  · intro hall
    obtain ⟨j, hj⟩ := hall
    by_cases hji : j = i
    · subst hji
      exact .inr hj.2.1
    · exact .inl ⟨j, (hiff _ j b).mpr ⟨hj, hji⟩⟩

/-- A block whose id is published is loaded from then on. -/
theorem loaded_publish (hs : s.Slots) {t : T} {v : D} {left : D} {b : Nat} {i : Fin n}
    {e : Event T D} (ht : s.pcs t = .putOut v left (.publish b i)) (k : Nat)
    (hl : ((Function.update s.pcs t .idle) c).loaded = (s.pcs c).loaded) :
    ({ s with outQueue := { s.outQueue with
        ptrs := Function.update s.outQueue.ptrs i true } }.emit t .idle e).Loaded c k ↔
      s.Loaded c k ∨ k = b := by
  have hat : s.onOut t = .enqueue (.publish b i) := by simp [System.onOut, ht, Pc.onOut]
  obtain ⟨-, hiff⟩ := slotHas_publish hs.out hat (p := .idle) rfl
  have hl' : ({ s with outQueue := { s.outQueue with
      ptrs := Function.update s.outQueue.ptrs i true } }.emit t .idle e |>.pcs c).loaded =
        (s.pcs c).loaded := hl
  simp only [System.Loaded, hl', System.Owns, onOut_emit]
  refine ⟨?_, ?_⟩
  · intro hor
    rcases hor with ⟨j, hj⟩ | hk
    · rcases (hiff j k).mp hj with hj | ⟨-, rfl⟩
      · exact .inl (.inl ⟨j, hj⟩)
      · exact .inr rfl
    · exact .inl (.inr hk)
  · intro hor
    rcases hor with (⟨j, hj⟩ | hk) | rfl
    · exact .inl ⟨j, (hiff j k).mpr (.inl hj)⟩
    · exact .inr hk
    · exact .inl ⟨i, (hiff i k).mpr (.inr ⟨rfl, rfl⟩)⟩

/-- A block that the consumer has drained is not loaded any more. -/
theorem Booked.loaded_drain (h : Booked c s) {b : Nat} (ht : s.pcs c = .drain b)
    (hstep : Stepped moved s a s') (ha : a.thread = c) {out : D} {pc : EnqueuePc w n Nat}
    (hpcs : s'.pcs = Function.update s.pcs c (.putFree out pc)) (k : Nat) :
    s'.Loaded c k ↔ s.Loaded c k ∧ k ≠ b := by
  subst ha
  have hout := outSlots_same h.owned.slots hstep (by simp [System.onOut, ht, Pc.onOut])
    (by simp [System.onOut, ht, Pc.onOut])
  have hcall : s.Owns (.call a.thread) b := owns_call (by rw [ht]; rfl)
  simp only [System.Loaded, System.Owns, hout]
  simp only [hpcs, Function.update_self, ht, Pc.loaded, Option.some.injEq, reduceCtorEq, or_false]
  refine ⟨?_, ?_⟩
  · intro hall
    obtain ⟨i, hi⟩ := hall
    refine ⟨.inl ⟨i, hi⟩, ?_⟩
    intro heq
    subst heq
    have hslot : s.Owns (.outSlot i) k := hi
    cases h.owned.once.owner_eq hcall hslot
  · intro hall
    obtain ⟨hk | rfl, hne⟩ := hall
    · exact hk
    · exact absurd rfl hne

/-- A step that leaves the loaded blocks, their values and the log's sums alone. -/
theorem Booked.balance_same (h : Booked c s) (hstep : Stepped moved s a s')
    (htake : ∀ i, s.onOut a.thread ≠ .dequeue (.take i))
    (hpub : ∀ v i, s.onOut a.thread ≠ .enqueue (.publish v i))
    (hl : (s'.pcs a.thread).loaded = (s.pcs a.thread).loaded)
    (hr : (s'.pcs a.thread).returning = (s.pcs a.thread).returning) (hcont : s'.cont = s.cont)
    (hacc : accepted s'.log = accepted s.log) (htak : taken s'.log = taken s.log) :
    ∃ m, s'.Queued c m ∧ accepted s'.log = taken s'.log + m := by
  obtain ⟨m, hq, hm⟩ := h.balance
  have hloaded : ∀ k, _ ↔ s.Loaded c k := loaded_same h.owned.slots hstep htake hpub hl
  refine ⟨m, queued_same hq hloaded ?_ ?_, by rw [hacc, htak, hm]⟩
  · intro b _
    rw [hcont]
  · exact hstep.pcs_same Pc.returning hr c

/-- What a step accepts and takes out. -/
theorem Booked.balance_step (h : Booked c s) (hstep : Stepped moved s a s') :
    ∃ m, s'.Queued c m ∧ accepted s'.log = taken s'.log + m := by
  obtain ⟨m, hq, hm⟩ := h.balance
  have hs := h.owned.slots
  have hstep' := hstep
  cases hstep with
  | takeOut t pc pc' q ht hmv =>
    cases hmv with
    | take i =>
      obtain rfl : t = c := h.consumer t (by rw [ht]; rfl)
      exact ⟨m, queued_same hq (loaded_take hs ht) (fun _ _ => rfl)
        (by simp [System.setPc, ht, Pc.returning]), hm⟩
    | _ =>
      apply h.balance_same hstep' <;>
        simp [Action.thread, System.onOut, System.setPc, ht, Pc.onOut, Pc.loaded, Pc.returning]
  | putOut t v left pc pc' q ht hmv =>
    cases hmv <;> apply h.balance_same hstep' <;>
      simp [Action.thread, System.onOut, System.setPc, ht, Pc.onOut, Pc.loaded, Pc.returning]
  | gotOut t i b ht =>
    apply h.balance_same hstep' <;>
      simp [Action.thread, System.onOut, System.setPc, ht, Pc.onOut, Pc.loaded, Pc.returning]
  | fill t v rvalue b ht =>
    -- the block written is not loaded yet
    have hb : ¬ s.Loaded c b := h.not_loaded (t := t) (by rw [ht]; rfl) (by rw [ht]; rfl)
    have hloaded : ∀ k, _ ↔ s.Loaded c k := loaded_same hs hstep'
      (by simp [Action.thread, System.onOut, ht, Pc.onOut])
      (by simp [Action.thread, System.onOut, ht, Pc.onOut])
      (by simp [Action.thread, System.setPc, ht, Pc.loaded])
    refine ⟨m, queued_same hq hloaded ?_ ?_, hm⟩
    · intro k hk
      have hkb : k ≠ b := by
        intro heq
        subst heq
        exact hb hk
      exact Function.update_of_ne hkb v s.cont
    · exact hstep'.pcs_same Pc.returning (by simp [Action.thread, System.setPc, ht, Pc.returning]) c
  | enqueued t v left b i ht =>
    have hcall : s.Owns (.call t) b := owns_call (by rw [ht]; rfl)
    have hb : ¬ s.Loaded c b := h.not_loaded hcall (by rw [ht]; rfl)
    have hv : s.cont b = v := h.carried t v left _ ht
    have hl := hstep'.pcs_same Pc.loaded (by simp [Action.thread, System.emit, ht, Pc.loaded]) c
    -- the block is loaded with the value that the call has been accepted with
    refine ⟨s.cont b ::ₘ m, queued_publish hq (h.owned.once.1 _ _ hcall) hb ?_ rfl ?_, ?_⟩
    · exact fun k => loaded_publish hs ht k hl
    · exact hstep'.pcs_same Pc.returning (by simp [Action.thread, System.emit, ht, Pc.returning]) c
    · have hacc : accepted (s.log ++ [.enqueued t v true left]) = accepted s.log + {v} := by
        simp [Event.accepted]
      have htak : taken (s.log ++ [.enqueued t v true left]) = taken s.log := by
        simp [Event.taken]
      show accepted (s.log ++ _) = taken (s.log ++ _) + _
      rw [hacc, htak, hm, hv, ← Multiset.singleton_add, add_assoc, add_comm m]
  | drain t b ht =>
    obtain rfl : t = c := h.consumer t (by rw [ht]; rfl)
    have hcall : s.Owns (.call t) b := owns_call (by rw [ht]; rfl)
    -- the value moves from the block to the call that returns it
    refine ⟨m, queued_drain hq (h.owned.once.1 _ _ hcall) (.inr (by rw [ht]; rfl)) ?_ ?_ ?_ ?_, hm⟩
    · exact h.loaded_drain ht hstep' rfl rfl
    · intro k hk
      exact Function.update_of_ne hk _ s.cont
    · simp [ht, Pc.returning]
    · simp [System.setPc, Pc.returning]
  | dequeued t out b i ht =>
    obtain rfl : t = c := h.consumer t (by rw [ht]; rfl)
    obtain ⟨loaded, hiff, rfl⟩ := hq
    have hloaded : ∀ k, _ ↔ s.Loaded t k := loaded_same hs hstep'
      (by simp [Action.thread, System.onOut, ht, Pc.onOut])
      (by simp [Action.thread, System.onOut, ht, Pc.onOut])
      (by simp [Action.thread, System.emit, ht, Pc.loaded])
    refine ⟨_, ⟨loaded, fun k => (hiff k).trans (hloaded k).symm, rfl⟩, ?_⟩
    simp [System.emit, Event.accepted, Event.taken, hm, ht, Pc.returning, add_comm]
  -- all but five kinds of step move no value
  | _ =>
    apply h.balance_same hstep' <;>
      simp_all [Action.thread, System.onOut, System.setPc, System.emit, Pc.onOut, Pc.loaded,
        Pc.returning, Event.accepted, Event.taken]

/-- No call writes a block that another call holds. -/
theorem cont_frame (h : Owned s) (hstep : Stepped moved s a s') {u : T} {b : Nat}
    (hu : u ≠ a.thread) (hb : (s.pcs u).block = some b) : s'.cont b = s.cont b := by
  have hcall : s.Owns (.call u) b := hb
  have hne : ∀ k, (s.pcs a.thread).block = some k → b ≠ k := by
    intro k hk heq
    subst heq
    have hk' : s.Owns (.call a.thread) b := hk
    cases h.once.owner_eq hcall hk'
    exact hu rfl
  cases hstep with
  | fill t v rvalue k ht | drain t k ht =>
    exact Function.update_of_ne (hne k (by simp [Action.thread, ht, Pc.block])) _ s.cont
  | _ => rfl

/-- A thread gets into `dequeue` by calling it. -/
theorem Stepped.consumer (hstep : Stepped moved s a s')
    (h : (s'.pcs a.thread).side = some .consumer) :
    (s.pcs a.thread).side = some .consumer ∨ a = .dequeue a.thread := by
  cases hstep <;> simp_all [Action.thread, System.setPc, System.emit, Pc.side]

/-- The block a call puts into `_out_queue` stores the value of the call. -/
theorem Stepped.carried (hstep : Stepped moved s a s')
    (h : ∀ v left pc, s.pcs a.thread = .putOut v left pc → s.cont pc.value = v) (v left : D)
    (pc : EnqueuePc w n Nat) (hpc : s'.pcs a.thread = .putOut v left pc) :
    s'.cont pc.value = v := by
  cases hstep with
  | fill t u rvalue b ht =>
    simp only [System.setPc, Action.thread, Function.update_self] at hpc
    cases hpc
    simp [System.setPc, EnqueuePc.start, EnqueuePc.value]
  | putOut t u left' pc₀ pc' q ht hm =>
    simp only [System.setPc, Action.thread, Function.update_self] at hpc
    cases hpc
    have hval : pc.value = pc₀.value := by cases hm <;> rfl
    rw [hval]
    exact h _ _ _ ht
  | outFull t u left' b r counter i ht =>
    simp only [System.setPc, Action.thread, Function.update_self] at hpc
    cases hpc
    have hv := h _ _ _ ht
    exact hv
  | _ => simp_all [Action.thread, System.setPc, System.emit]

theorem Booked.step (h : Booked c s) (hc : s.Clean a) (hcons : a.ConsumedBy c)
    (hs : s.step moved a = some s') : Booked c s' := by
  have hstep := System.step_cases hs
  obtain ⟨p, hp⟩ := hstep.pcs
  refine ⟨h.owned.step hc hs, ?_, ?_, h.balance_step hstep⟩
  · intro t ht
    by_cases hta : t = a.thread
    · subst hta
      rcases hstep.consumer ht with hold | hcall
      · exact h.consumer _ hold
      · rw [hcall] at hcons
        exact hcons
    · rw [hp, Function.update_of_ne hta] at ht
      exact h.consumer t ht
  · intro t v left pc ht
    by_cases hta : t = a.thread
    · subst hta
      exact hstep.carried (h.carried _) v left pc ht
    · rw [hp, Function.update_of_ne hta] at ht
      rw [cont_frame h.owned hstep hta (by rw [ht]; rfl)]
      exact h.carried t v left pc ht

theorem booked_init [NeZero n] [Inhabited D] : Booked c (System.init : System w n D T) where
  owned := ⟨System.slots_init, owned_init⟩
  consumer t ht := by simp [System.init, Pc.side] at ht
  carried t v left pc ht := by simp [System.init] at ht
  balance := by
    refine ⟨0, ⟨fun _ => false, ?_, ?_⟩, rfl⟩
    · intro b
      simp [System.Loaded, System.Owns, SlotHas, System.init, AtQueue.init, Pc.loaded]
    · simp [holding, System.init, Pc.returning]

/-- Only the consumer takes ids out of `_out_queue`. -/
theorem Booked.reader (h : Booked c s) {t : T} {i : Fin n} (ht : (s.onOut t).reading = some i) :
    t = c :=
  h.consumer t (Pc.side_of_reading_out ht)

/-- A published slot of `_out_queue` holds a value that is still to be dequeued. -/
theorem Booked.not_drained (h : Booked c s) {i : Fin n} (hi : s.outQueue.ptrs i = true)
    (hc : (s.onOut c).reading = none) : ¬ s.Drained := by
  obtain ⟨m, ⟨loaded, hiff, rfl⟩, hm⟩ := h.balance
  have hhas : s.Owns (.outSlot i) (s.outQueue.cont i) := by
    refine ⟨hi, rfl, ?_⟩
    intro t ht
    have hread := AtQueue.Pc.emptied_reading ht
    rw [h.reader hread, hc] at hread
    cases hread
  have hb : s.outQueue.cont i < n := h.owned.once.1 _ _ hhas
  -- the block of the slot is loaded, so more values are accepted than taken out
  have hset : loaded ⟨_, hb⟩ = true := (hiff ⟨_, hb⟩).mpr (.inl ⟨i, hhas⟩)
  intro hle
  have hcard := Multiset.card_le_card hle
  rw [hm, holding_clear hset] at hcard
  simp only [Multiset.card_add, Multiset.card_cons] at hcard
  omega

/-- With no published slot, and no call taking a value out, all have been dequeued. -/
theorem Booked.drained (h : Booked c s) (hnull : ∀ i, s.outQueue.ptrs i = false)
    (hl : (s.pcs c).loaded = none) (hr : (s.pcs c).returning = 0) : s.Drained := by
  obtain ⟨m, ⟨loaded, hiff, rfl⟩, hm⟩ := h.balance
  have hnone : ∀ b, loaded b = false := by
    intro b
    rw [Bool.eq_false_iff]
    intro hset
    rcases (hiff b).mp hset with ⟨i, hi, -⟩ | hc
    · rw [hnull i] at hi
      cases hi
    · rw [hl] at hc
      cases hc
  have hempty : holding loaded (fun b => s.cont b) = 0 := by
    simp [holding, hnone]
  rw [hempty, hr, add_zero, add_zero] at hm
  exact hm.le

end

/-! ## One call of `dequeue` -/

/-- In `dequeue` before its exchange, with the front slot loaded or still to be loaded. -/
def Pc.Polling (front : Fin n) : Pc w n D → Prop
  | takeOut .load => True
  | takeOut (.check i) | takeOut (.exchange i) => i = front
  | _ => False

/-- In `dequeue` past its exchange, or returned. -/
def Pc.Served : Pc w n D → Prop
  | takeOut pc => (AtQueue.Pc.dequeue (w := w) pc).reading ≠ none
  | drain _ | putFree .. | idle => True
  | _ => False

section
variable [DecidableEq T] {moved : D → D} {c : T} {x m m' : System w n D T}

/-- The consumer polls, and since `x` the front slot has stayed and no slot has been cleared. -/
structure Polls (c : T) (x m : System w n D T) : Prop where
  booked : Booked c m
  polling : (m.pcs c).Polling m.outQueue.front
  front : m.outQueue.front = x.outQueue.front
  set : ∀ i, x.outQueue.ptrs i = true → m.outQueue.ptrs i = true

/-- The other threads leave the front slot alone and clear no slot. -/
theorem out_frame {a : Action w D T} (h : Booked c m) (hstep : Stepped moved m a m')
    (ha : a.thread ≠ c) : m'.outQueue.front = m.outQueue.front ∧
      ∀ i, m.outQueue.ptrs i = true → m'.outQueue.ptrs i = true := by
  have hside := h.consumer a.thread
  cases hstep with
  | putOut t v left pc pc' q ht hm => cases hm <;> exact ⟨rfl, fun _ hi => hi⟩
  | enqueued t v left b i ht =>
    refine ⟨rfl, ?_⟩
    intro j hj
    by_cases hji : j = i
    · simp [System.emit, hji]
    · simpa [System.emit, Function.update_of_ne hji] using hj
  | takeOut t pc pc' q ht | gotOut t i b ht =>
    exact absurd (hside (by simp [Action.thread, ht, Pc.side])) ha
  | _ => exact ⟨rfl, fun _ hi => hi⟩

/-- The consumer polls on, or gets past its exchange, or returns false. -/
theorem polling_step (hp : (m.pcs c).Polling m.outQueue.front)
    (hstep : Stepped moved m (.run c) m') :
    m'.outQueue = m.outQueue ∧ (m'.pcs c).Polling m'.outQueue.front ∨ (m'.pcs c).Served := by
  cases hstep with
  | takeOut t pc pc' q ht hm =>
    rw [ht] at hp
    cases hm with
    | loadFront | lostFront => exact .inl ⟨rfl, by simp [System.setPc, Pc.Polling]⟩
    | seen i => exact .inl ⟨rfl, by simpa [System.setPc, Pc.Polling] using hp⟩
    | claim | take => exact .inr (by simp [System.setPc, Pc.Served, AtQueue.Pc.reading])
  | noneOut t i ht => exact .inr (by simp [System.emit, Pc.Served])
  | gotOut t i b ht => exact .inr (by simp [System.setPc, Pc.Served])
  | _ => simp_all [Pc.Polling]

/-- A poll that returns false has found the front slot null. -/
theorem polling_none (hp : (m.pcs c).Polling m.outQueue.front) (hstep : Stepped moved m (.run c) m')
    (hlog : m'.log = m.log ++ [.dequeued c none]) :
    m.outQueue.ptrs m.outQueue.front = false ∧ m'.outQueue = m.outQueue ∧ m'.pcs c = .idle := by
  cases hstep with
  | noneOut t i ht hnull =>
    rw [ht] at hp
    obtain rfl : i = m.outQueue.front := hp
    exact ⟨hnull, rfl, by simp [System.emit]⟩
  | _ => simp_all [System.setPc, Pc.Polling]

/-- A call past its exchange does not return false. -/
theorem served_step (hp : (m.pcs c).Served) (hstep : Stepped moved m (.run c) m') :
    (m'.pcs c).Served ∧ m'.log ≠ m.log ++ [.dequeued c none] := by
  cases hstep with
  | takeOut t pc pc' q ht hm =>
    rw [ht] at hp
    cases hm <;> simp_all [System.setPc, Pc.Served, AtQueue.Pc.reading]
  | noneOut t i ht =>
    rw [ht] at hp
    exact absurd rfl hp
  | _ => simp_all [System.setPc, System.emit, Pc.Served]

/-- Up to any point of the call the consumer has polled throughout, or it is past its exchange. -/
theorem polls_run {during : List (System w n D T × Action w D T)} {x₁ y : System w n D T}
    (hx : Polls c x x₁) (h : Run (System.step moved) x₁ during y)
    (hclean : Meets System.Clean during) (hcons : Meets (fun _ a => a.ConsumedBy c) during)
    (hown : ∀ p ∈ during, p.2.thread = c → p.2 = .run c) :
    (∀ m ∈ visited during y, Polls c x m) ∨ (y.pcs c).Served := by
  induction h with
  | nil => exact .inl (by simpa [visited] using hx)
  | @snoc tr m m' a _ hs ih =>
    obtain ⟨hcleantr, hclean⟩ := meets_snoc.mp hclean
    obtain ⟨hconstr, hcons⟩ := meets_snoc.mp hcons
    have hstep := System.step_cases hs
    have hrest := ih hcleantr hconstr fun p hp => hown p (by simp [hp])
    -- the consumer moves on in its call, the others leave the front slot alone
    by_cases ha : a.thread = c
    · obtain rfl := hown (m, a) (by simp) ha
      rcases hrest with hpolls | hserved
      · have hm := hpolls m (by simp [visited])
        rcases polling_step hm.polling hstep with ⟨hq, hnext⟩ | hnext
        · refine .inl ?_
          intro z hz
          rcases mem_visited_snoc.mp hz with hz | rfl
          · exact hpolls z hz
          · exact ⟨hm.booked.step hclean hcons hs, hnext, hq ▸ hm.front,
              fun i hi => hq ▸ hm.set i hi⟩
        · exact .inr hnext
      · exact .inr (served_step hserved hstep).1
    · obtain ⟨p, hpcs⟩ := hstep.pcs
      have hkeep : m'.pcs c = m.pcs c := by rw [hpcs, Function.update_of_ne (Ne.symm ha)]
      rcases hrest with hpolls | hserved
      · have hm := hpolls m (by simp [visited])
        obtain ⟨hfront, hset⟩ := out_frame hm.booked hstep ha
        refine .inl ?_
        intro z hz
        rcases mem_visited_snoc.mp hz with hz | rfl
        · exact hpolls z hz
        · refine ⟨hm.booked.step hclean hcons hs, ?_, hfront.trans hm.front,
            fun i hi => hset i (hm.set i hi)⟩
          rw [hkeep, hfront]
          exact hm.polling
      · exact .inr (hkeep ▸ hserved)

theorem Polls.reading (h : Polls c x m) : (m.onOut c).reading = none := by
  have hp := h.polling
  unfold System.onOut
  generalize m.pcs c = p at hp
  unfold Pc.Polling at hp
  split at hp <;> first | rfl | cases hp

section
variable [NeZero n] [Inhabited D] {before during : List (System w n D T × Action w D T)}
  {y s : System w n D T}

/-- A call that returns false has polled throughout. -/
theorem polls_failed_call
    (h : Run (System.step moved) System.init
      (before ++ (x, Action.dequeue c) :: during ++ [(y, Action.run c)]) s)
    (hclean : Meets System.Clean (before ++ (x, Action.dequeue c) :: during ++ [(y, Action.run c)]))
    (hcons : Meets (fun _ a => a.ConsumedBy c)
      (before ++ (x, Action.dequeue c) :: during ++ [(y, Action.run c)]))
    (hown : ∀ p ∈ during, p.2.thread = c → p.2 = .run c)
    (hret : s.log = y.log ++ [.dequeued c none]) :
    x.emit c (.takeOut .load) (.callDequeue c) ∈ visited during y ∧
      ∀ m ∈ visited during y, Polls c x m := by
  obtain ⟨hrun, hlast⟩ := run_snoc_iff.mp h
  obtain ⟨hclean, -⟩ := meets_snoc.mp hclean
  obtain ⟨hcons, -⟩ := meets_snoc.mp hcons
  obtain ⟨hclean, hcleancall⟩ := meets_append.mp hclean
  obtain ⟨hcons, hconscall⟩ := meets_append.mp hcons
  obtain ⟨x', hbefore, hcall⟩ := hrun.split
  obtain ⟨hx, x₁, hx₁, hduring⟩ := hcall.cons
  obtain rfl : x = x' := hx.symm
  have hbooked : Booked c x := hbefore.invariant (C := fun s a => s.Clean a ∧ a.ConsumedBy c)
    booked_init (fun _ _ _ hi ha hs => hi.step ha.1 ha.2 hs) fun p hp => ⟨hclean p hp, hcons p hp⟩
  have hbooked₁ := hbooked.step (meets_cons.mp hcleancall).1 rfl hx₁
  obtain rfl : x₁ = x.emit c (.takeOut .load) (.callDequeue c) := by
    cases System.step_cases hx₁
    rfl
  have hstart : Polls c x (x.emit c (.takeOut .load) (.callDequeue c)) :=
    ⟨hbooked₁, by simp [System.emit, Pc.Polling], rfl, fun _ hi => hi⟩
  refine ⟨hduring.start_mem_visited, ?_⟩
  rcases polls_run hstart hduring (meets_cons.mp hcleancall).2 (meets_cons.mp hconscall).2 hown with
    hpolls | hserved
  · exact hpolls
  · exact absurd hret (served_step hserved (System.step_cases hlast)).2

/-- **Truthful emptiness.** In a run whose winning exchanges are clean, with one
consumer and any producers, a call of `dequeue` that returns false passed through
a state with every accepted value dequeued if and only if no value was hidden
behind a reserved slot when the call began. -/
theorem clean_truthful_iff
    (h : Run (System.step moved) System.init
      (before ++ (x, Action.dequeue c) :: during ++ [(y, Action.run c)]) s)
    (hclean : Meets System.Clean (before ++ (x, Action.dequeue c) :: during ++ [(y, Action.run c)]))
    (hcons : Meets (fun _ a => a.ConsumedBy c)
      (before ++ (x, Action.dequeue c) :: during ++ [(y, Action.run c)]))
    (hown : ∀ p ∈ during, p.2.thread = c → p.2 = .run c)
    (hret : s.log = y.log ++ [.dequeued c none]) :
    (∃ m ∈ visited (during ++ [(y, Action.run c)]) s, m.Drained) ↔ ¬ x.outQueue.Hidden := by
  obtain ⟨hfirst, hpolls⟩ := polls_failed_call h hclean hcons hown hret
  obtain ⟨-, hlast⟩ := run_snoc_iff.mp h
  have hy : Polls c x y := hpolls y (by simp [visited])
  obtain ⟨hnull, hsame, hidle⟩ := polling_none hy.polling (System.step_cases hlast) hret
  refine ⟨?_, ?_⟩
  · intro hall hall1
    obtain ⟨m, hm, hdrained⟩ := hall
    obtain ⟨-, i, hi⟩ := hall1
    rcases mem_visited_snoc.mp hm with hm | rfl
    · have hmpolls := hpolls m hm
      exact hmpolls.booked.not_drained (hmpolls.set i hi) hmpolls.reading hdrained
    · have hbooked := hy.booked.step (meets_snoc.mp hclean).2 trivial hlast
      refine hbooked.not_drained (hsame ▸ hy.set i hi) ?_ hdrained
      simp [System.onOut, hidle, Pc.onOut, AtQueue.Pc.reading]
  · intro hvisible
    have hfront : x.outQueue.ptrs x.outQueue.front = false := by
      rw [Bool.eq_false_iff]
      intro hset
      have hset' := hy.set _ hset
      rw [← hy.front, hnull] at hset'
      cases hset'
    have hnone : ∀ i, x.outQueue.ptrs i = false := by
      intro i
      rw [Bool.eq_false_iff]
      exact fun hi => hvisible ⟨hfront, i, hi⟩
    refine ⟨_, mem_visited_snoc.mpr (.inl hfirst), ?_⟩
    exact (hpolls _ hfirst).booked.drained hnone (by simp [System.emit, Pc.loaded])
      (by simp [System.emit, Pc.returning])

end

/-- A run over a call of `dequeue` that takes two steps. -/
theorem two_polls {tr : List (System w n D T × Action w D T)} {s : System w n D T}
    (h : Run (System.step moved) x tr s) (ha : tr.map Prod.snd = [.dequeue c, .run c, .run c]) :
    ∃ x₁ y, tr = (x, Action.dequeue c) :: [(x₁, Action.run c)] ++ [(y, Action.run c)] := by
  obtain ⟨during, y, rfl, hd⟩ := h.bracket (show _ = .dequeue c :: [.run c] ++ [.run c] from ha)
  obtain ⟨⟨x₁, _⟩, rfl, rfl⟩ := List.map_eq_singleton_iff.mp hd
  exact ⟨x₁, y, rfl⟩

/-- The consumer polls an empty queue whose front slot a producer has reserved. -/
theorem clean_truthful_iff_reserved : ∃ (before during : _) (x y s : System 64 2 Nat Bool),
    Run (System.step id) System.init
        (before ++ (x, Action.dequeue true) :: during ++ [(y, Action.run true)]) s ∧
      s.log = y.log ++ [.dequeued true none] ∧
      ((∃ m ∈ visited (during ++ [(y, Action.run true)]) s, m.Drained) ↔ ¬ x.outQueue.Hidden) := by
  have hrun : ∃ (before : _) (x : System 64 2 Nat Bool), Run (System.step id) System.init before x ∧
      Meets (fun s a => s.Clean a ∧ a.ConsumedBy true) before ∧ before.map Prod.snd = _ ∧
      (execMeets (System.step id) (fun s a => s.Clean a ∧ a.ConsumedBy true ∧
          (a = .run true → s.log = [.callEnqueue false 7 false, .callDequeue true])) x
        [.dequeue true, .run true, .run true]).any (fun s => decide
          (s.log = [.callEnqueue false 7 false, .callDequeue true, .dequeued true none])) = true :=
    Run.of_execMeets_any (call (.enqueue false 7 false 0) false 9) (by decide)
  obtain ⟨before, x, hbefore, hok, -, hx⟩ := hrun
  obtain ⟨tr, s, hr, hcall, ha, hs⟩ := Run.of_execMeets_any _ hx
  obtain ⟨x₁, y, rfl⟩ := two_polls hr ha
  have h := hbefore.append hr
  have hret : s.log = y.log ++ [.dequeued true none] := by
    rw [hs, (hcall (y, .run true) (by simp)).2.2 rfl]
    rfl
  rw [← List.append_assoc] at h
  refine ⟨before, [(x₁, .run true)], x, y, s, h, hret, ?_⟩
  apply clean_truthful_iff h _ _ (by simp) hret
  · rw [List.append_assoc]
    exact meets_append.mpr ⟨fun p hp => (hok p hp).1, fun p hp => (hcall p hp).1⟩
  · rw [List.append_assoc]
    exact meets_append.mpr ⟨fun p hp => (hok p hp).2, fun p hp => (hcall p hp).2.1⟩

/-- Capacity 2. Producer 0 has won slot 0 of `_out_queue` and stalls before it
writes the slot; producer 1 publishes slot 1 and returns true. -/
def hiddenValue : List (Action 64 Nat (Fin 3)) :=
  call (.enqueue 0 7 false 0) 0 9 ++ call (.enqueue 1 8 false 0) 1 11

/-- Then the consumer, thread 2, calls `dequeue`, which returns false. -/
def hiddenValueLog : List (Event (Fin 3) Nat) :=
  [.callEnqueue 0 7 false, .callEnqueue 1 8 false, .enqueued 1 8 true 8, .callDequeue 2]

theorem hidden_value_missed : ∃ (before during : _) (x y s : System 64 2 Nat (Fin 3)),
    Run (System.step id) System.init
        (before ++ (x, Action.dequeue 2) :: during ++ [(y, Action.run 2)]) s ∧
      (∀ p ∈ before ++ (x, Action.dequeue 2) :: during ++ [(y, Action.run 2)], p.2.ConsumedBy 2) ∧
      (∀ p ∈ during, p.2.thread = 2 → p.2 = .run 2) ∧
      s.log = y.log ++ [.dequeued 2 none] ∧
      ¬ ∃ m ∈ visited (during ++ [(y, Action.run 2)]) s, m.Drained := by
  have hrun : ∃ (before : _) (x : System 64 2 Nat (Fin 3)),
      Run (System.step id) System.init before x ∧ Meets (fun _ a => a.ConsumedBy 2) before ∧
      before.map Prod.snd = hiddenValue ∧
      (execMeets (System.step id) (fun s a => a.ConsumedBy 2 ∧
          (a = .run 2 → s.log = hiddenValueLog ∧ ¬ s.Drained)) x
        [.dequeue 2, .run 2, .run 2]).any (fun s => decide
          (s.log = hiddenValueLog ++ [.dequeued 2 none] ∧ ¬ s.Drained)) = true :=
    Run.of_execMeets_any _ (by decide)
  obtain ⟨before, x, hbefore, hok, -, hx⟩ := hrun
  obtain ⟨tr, s, hr, hcall, ha, hs, hsd⟩ := Run.of_execMeets_any _ hx
  obtain ⟨x₁, y, rfl⟩ := two_polls hr ha
  have h := hbefore.append hr
  obtain ⟨hylog, hyd⟩ := (hcall (y, .run 2) (by simp)).2 rfl
  obtain ⟨-, hx₁d⟩ := (hcall (x₁, .run 2) (by simp)).2 rfl
  refine ⟨before, [(x₁, .run 2)], x, y, s, by simpa using h, ?_, by simp, by rw [hs, hylog], ?_⟩
  · rw [List.append_assoc]
    exact meets_append.mpr ⟨hok, fun p hp => (hcall p hp).1⟩
  · intro hall
    obtain ⟨m, hm, hd⟩ := hall
    rcases mem_visited_snoc.mp hm with hm | rfl
    · rcases (by simpa [visited] using hm : m = x₁ ∨ m = y) with rfl | rfl
      · exact hx₁d hd
      · exact hyd hd
    · exact hsd hd

end

end Queue

end Vee.Lockfree
