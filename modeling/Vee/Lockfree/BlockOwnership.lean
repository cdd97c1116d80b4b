import Vee.Lib.Ownership
import Vee.Lockfree.Queue

/- Exclusive ownership of the blocks of a `queue`.

   A block id is in a slot of one of the two rings or in the local `block_id` of
   one call. Two kinds of step hand an id on: the read of `_cont[front]` inside an
   inner `dequeue` takes it from the slot to the call, and the write of
   `_ptrs[rear]` inside an inner `enqueue` gives it back to a slot. In a run
   whose winning exchanges are clean each id has exactly one owner throughout,
   so no two calls are at the same `_cont[block_id]` (`clean_owned_once`).

   With only `capacity` ids in circulation the rings still come round while a
   thread is stalled: the pointer of a slot stays set until its reader clears it,
   and a second `dequeue` can claim the slot meanwhile (`reclaimed_slot_shares`). -/
namespace Vee.Lockfree.Queue
open AtQueue Transition Ownership

variable {w n : Nat} {D T : Type*}

/-- Where a block id can be. -/
inductive Owner (n : Nat) (T : Type*) where
  | freeSlot (i : Fin n)
  | outSlot (i : Fin n)
  | call (t : T)
  deriving DecidableEq, Repr

/-- A published slot owns its id until a reader has taken it, a call owns the id
in its `block_id` until it has published it. -/
def System.Owns (s : System w n D T) : Owner n T → Nat → Prop
  | .freeSlot i, b => SlotHas s.contQueue s.onCont i b
  | .outSlot i, b => SlotHas s.outQueue s.onOut i b
  | .call t, b => (s.pcs t).block = some b

/-- The block whose `_cont[block_id]` the next step of a thread reads or writes. -/
def Pc.accesses : Pc w n D → Option Nat
  | fill _ _ b | drain b => some b
  | _ => none

theorem Pc.accesses_block {p : Pc w n D} {b : Nat} (h : p.accesses = some b) :
    p.block = some b := by
  unfold Pc.accesses at h
  split at h
  · exact h
  · exact h
  · cases h

/-- Each block id has exactly one owner, and no two calls are at the same block. -/
def System.Exclusive (s : System w n D T) : Prop :=
  (∀ b < n, ∃! o, s.Owns o b) ∧
    ∀ t u b, (s.pcs t).accesses = some b → (s.pcs u).accesses = some b → t = u

/-! ## One step -/

section
variable [DecidableEq T] {moved : D → D} {s s' : System w n D T} {a : Action w D T}

/-- A step that takes no id from a slot, puts none into one and leaves the id of
its call alone leaves all owners alone. -/
theorem owns_congr (h : Stepped moved s a s')
    (hblock : (s'.pcs a.thread).block = (s.pcs a.thread).block)
    (hcont : ∀ i b, SlotHas s'.contQueue s'.onCont i b ↔ SlotHas s.contQueue s.onCont i b)
    (hout : ∀ i b, SlotHas s'.outQueue s'.onOut i b ↔ SlotHas s.outQueue s.onOut i b)
    (o : Owner n T) (b : Nat) : s'.Owns o b ↔ s.Owns o b := by
  obtain ⟨p, hp⟩ := h.pcs
  cases o with
  | freeSlot i => exact hcont i b
  | outSlot i => exact hout i b
  | call t =>
    by_cases ht : t = a.thread
    · subst ht
      simp only [System.Owns, hblock]
    · simp only [System.Owns, hp, Function.update_of_ne ht]

theorem freeSlots_same (hs : s.Slots) (h : Stepped moved s a s')
    (htake : ∀ i, s.onCont a.thread ≠ .dequeue (.take i))
    (hpub : ∀ v i, s.onCont a.thread ≠ .enqueue (.publish v i)) (i : Fin n) (b : Nat) :
    SlotHas s'.contQueue s'.onCont i b ↔ SlotHas s.contQueue s.onCont i b := by
  obtain ⟨p, hp⟩ := h.pcs
  have hstep := h.cont
  rw [onCont_update hp] at hstep ⊢
  rw [Function.update_self] at hstep
  exact hstep.slotHas hs.cont htake hpub i b

theorem outSlots_same (hs : s.Slots) (h : Stepped moved s a s')
    (htake : ∀ i, s.onOut a.thread ≠ .dequeue (.take i))
    (hpub : ∀ v i, s.onOut a.thread ≠ .enqueue (.publish v i)) (i : Fin n) (b : Nat) :
    SlotHas s'.outQueue s'.onOut i b ↔ SlotHas s.outQueue s.onOut i b := by
  obtain ⟨p, hp⟩ := h.pcs
  have hstep := h.out
  rw [onOut_update hp] at hstep ⊢
  rw [Function.update_self] at hstep
  exact hstep.slotHas hs.out htake hpub i b

/-- The owners after a step that moves no id. -/
theorem owned_same (hs : s.Slots) (ho : OwnedOnce (· < n) s.Owns) (h : Stepped moved s a s')
    (hblock : (s'.pcs a.thread).block = (s.pcs a.thread).block)
    (htakeC : ∀ i, s.onCont a.thread ≠ .dequeue (.take i))
    (hpubC : ∀ v i, s.onCont a.thread ≠ .enqueue (.publish v i))
    (htakeO : ∀ i, s.onOut a.thread ≠ .dequeue (.take i))
    (hpubO : ∀ v i, s.onOut a.thread ≠ .enqueue (.publish v i)) : OwnedOnce (· < n) s'.Owns :=
  ho.congr (owns_congr h hblock (freeSlots_same hs h htakeC hpubC)
    (outSlots_same hs h htakeO hpubO))

/-- Calls other than the moving one keep their ids. -/
theorem calls_same (h : Stepped moved s a s') {t : T} (ht : t ≠ a.thread) (b : Nat) :
    s'.Owns (.call t) b ↔ s.Owns (.call t) b := by
  obtain ⟨p, hp⟩ := h.pcs
  simp only [System.Owns, hp, Function.update_of_ne ht]

/-- A call takes the id of slot `x`; the other slots are not concerned. -/
theorem owned_taken (ho : OwnedOnce (· < n) s.Owns) (h : Stepped moved s a s') {x : Owner n T}
    {b : Nat} (hcall : ∀ u, x ≠ .call u) (hx : s.Owns x b) (hx' : ∀ c, ¬ s'.Owns x c)
    (hblock : (s.pcs a.thread).block = none) (hblock' : (s'.pcs a.thread).block = some b)
    (hslots : ∀ o, o ≠ x → (∀ u, o ≠ .call u) → ∀ c, s'.Owns o c ↔ s.Owns o c)
    (huniq : ∀ c, s.Owns x c → c = b) : OwnedOnce (· < n) s'.Owns := by
  apply ho.transfer hx (hcall a.thread)
  · intro c
    refine ⟨?_, ?_⟩
    · exact fun hc => absurd hc (hx' c)
    · intro hall
      obtain ⟨hc, hne⟩ := hall
      exact absurd (huniq c hc) hne
  · intro c hc
    simp [System.Owns, hblock] at hc
  · intro c
    simp [System.Owns, hblock', eq_comm]
  · intro o hox hoy c
    cases o with
    | call u => exact calls_same h (fun hu => hoy (hu ▸ rfl)) c
    | freeSlot j => exact hslots _ hox (by simp) c
    | outSlot j => exact hslots _ hox (by simp) c

/-- A call publishes its id in slot `y`; the other slots are not concerned. -/
theorem owned_published (ho : OwnedOnce (· < n) s.Owns) (h : Stepped moved s a s') {y : Owner n T}
    {b : Nat} (hcall : ∀ u, y ≠ .call u) (hy : ∀ c, ¬ s.Owns y c) (hy' : ∀ c, s'.Owns y c ↔ c = b)
    (hblock : (s.pcs a.thread).block = some b) (hblock' : (s'.pcs a.thread).block = none)
    (hslots : ∀ o, o ≠ y → (∀ u, o ≠ .call u) → ∀ c, s'.Owns o c ↔ s.Owns o c) :
    OwnedOnce (· < n) s'.Owns := by
  have hx : s.Owns (.call a.thread) b := hblock
  apply ho.transfer hx (Ne.symm (hcall a.thread)) _ hy hy'
  · intro o hox hoy c
    cases o with
    | call u => exact calls_same h (fun hu => hox (hu ▸ rfl)) c
    | freeSlot j => exact hslots _ hoy (by simp) c
    | outSlot j => exact hslots _ hoy (by simp) c
  · intro c
    simp only [System.Owns, hblock, hblock', Option.some.injEq, reduceCtorEq, false_iff, not_and,
      not_not]
    exact fun h => h.symm

/-- The owners after a step: unchanged, or one id handed from a slot to the call
that read it or from a call to the slot it published. -/
theorem owned_step (hs : s.Slots) (ho : OwnedOnce (· < n) s.Owns) (h : Stepped moved s a s') :
    OwnedOnce (· < n) s'.Owns := by
  -- four kinds of step move an id; all others leave every owner with what it has
  have h' := h
  cases h with
  | takeFree t v rvalue retries counter pc pc' q ht hm =>
    cases hm with
    | take i =>
      have hat : s.onCont t = .dequeue (.take i) := by simp [System.onCont, ht, Pc.onCont]
      have hout := outSlots_same hs h' (by simp [Action.thread, System.onOut, ht, Pc.onOut])
        (by simp [Action.thread, System.onOut, ht, Pc.onOut])
      obtain ⟨hhas, hiff⟩ := slotHas_take hs.cont hat
      apply owned_taken (x := .freeSlot i) (b := s.contQueue.cont i) ho h' (by simp) hhas
      · intro c hc
        simp only [System.Owns, onCont_setPc] at hc
        exact ((hiff _ i c).mp hc).2 rfl
      · simp [Action.thread, ht, Pc.block]
      · simp [Action.thread, System.setPc, Pc.block]
      · intro o hox hoy c
        cases o with
        | call u => exact absurd rfl (hoy u)
        | freeSlot j =>
          simp only [System.Owns, onCont_setPc]
          exact (hiff _ j c).trans (and_iff_left (by rintro rfl; exact hox rfl))
        | outSlot j => exact hout j c
      · intro c hall
        obtain ⟨-, hc, -⟩ := hall
        exact hc.symm
    | _ =>
      apply owned_same hs ho h' <;>
        simp [Action.thread, System.onCont, System.onOut, System.setPc, ht, Pc.onCont, Pc.onOut,
          Pc.block]
  | takeOut t pc pc' q ht hm =>
    cases hm with
    | take i =>
      have hat : s.onOut t = .dequeue (.take i) := by simp [System.onOut, ht, Pc.onOut]
      have hcont := freeSlots_same hs h' (by simp [Action.thread, System.onCont, ht, Pc.onCont])
        (by simp [Action.thread, System.onCont, ht, Pc.onCont])
      obtain ⟨hhas, hiff⟩ := slotHas_take hs.out hat
      apply owned_taken (x := .outSlot i) (b := s.outQueue.cont i) ho h' (by simp) hhas
      · intro c hc
        simp only [System.Owns, onOut_setPc] at hc
        exact ((hiff _ i c).mp hc).2 rfl
      · simp [Action.thread, ht, Pc.block]
      · simp [Action.thread, System.setPc, Pc.block]
      · intro o hox hoy c
        cases o with
        | call u => exact absurd rfl (hoy u)
        | freeSlot j => exact hcont j c
        | outSlot j =>
          simp only [System.Owns, onOut_setPc]
          exact (hiff _ j c).trans (and_iff_left (by rintro rfl; exact hox rfl))
      · intro c hall
        obtain ⟨-, hc, -⟩ := hall
        exact hc.symm
    | _ =>
      apply owned_same hs ho h' <;>
        simp [Action.thread, System.onCont, System.onOut, System.setPc, ht, Pc.onCont, Pc.onOut,
          Pc.block]
  | putOut t v left pc pc' q ht hm | putFree t out pc pc' q ht hm =>
    cases hm <;> apply owned_same hs ho h' <;>
      simp [Action.thread, System.onCont, System.onOut, System.setPc, ht, Pc.onCont, Pc.onOut,
        Pc.block, EnqueuePc.value]
  | enqueued t v left b i ht =>
    have hat : s.onOut t = .enqueue (.publish b i) := by simp [System.onOut, ht, Pc.onOut]
    have hcont := freeSlots_same hs h' (by simp [Action.thread, System.onCont, ht, Pc.onCont])
      (by simp [Action.thread, System.onCont, ht, Pc.onCont])
    obtain ⟨hnone, hiff⟩ := slotHas_publish hs.out hat (p := .idle) rfl
    apply owned_published (y := .outSlot i) (b := b) ho h' (by simp) hnone
    · intro c
      simp only [System.Owns, onOut_emit]
      exact (hiff i c).trans (by simp [hnone c])
    · simp [Action.thread, ht, Pc.block, EnqueuePc.value]
    · simp [Action.thread, System.emit, Pc.block]
    · intro o hox hoy c
      cases o with
      | call u => exact absurd rfl (hoy u)
      | freeSlot j => exact hcont j c
      | outSlot j =>
        simp only [System.Owns, onOut_emit]
        exact (hiff j c).trans (or_iff_left (by rintro ⟨rfl, -⟩; exact hox rfl))
  | dequeued t out b i ht =>
    have hat : s.onCont t = .enqueue (.publish b i) := by simp [System.onCont, ht, Pc.onCont]
    have hout := outSlots_same hs h' (by simp [Action.thread, System.onOut, ht, Pc.onOut])
      (by simp [Action.thread, System.onOut, ht, Pc.onOut])
    obtain ⟨hnone, hiff⟩ := slotHas_publish hs.cont hat (p := .idle) rfl
    apply owned_published (y := .freeSlot i) (b := b) ho h' (by simp) hnone
    · intro c
      simp only [System.Owns, onCont_emit]
      exact (hiff i c).trans (by simp [hnone c])
    · simp [Action.thread, ht, Pc.block, EnqueuePc.value]
    · simp [Action.thread, System.emit, Pc.block]
    · intro o hox hoy c
      cases o with
      | call u => exact absurd rfl (hoy u)
      | freeSlot j =>
        simp only [System.Owns, onCont_emit]
        exact (hiff j c).trans (or_iff_left (by rintro ⟨rfl, -⟩; exact hox rfl))
      | outSlot j => exact hout j c
  | _ =>
    apply owned_same hs ho h' <;>
      simp_all [Action.thread, System.onCont, System.onOut, System.setPc, System.emit, Pc.onCont,
        Pc.onOut, Pc.block, EnqueuePc.start, EnqueuePc.value]

end

/-! ## Runs -/

/-- In a constructed queue slot `b` of `_cont_queue` owns block `b`. -/
theorem owned_init [NeZero n] [Inhabited D] :
    OwnedOnce (· < n) (System.init : System w n D T).Owns := by
  have hfree : ∀ (i : Fin n) b, (System.init : System w n D T).Owns (.freeSlot i) b ↔ b = i := by
    intro i b
    simp [System.Owns, SlotHas, System.init, AtQueue.full, System.onCont, Pc.onCont,
      AtQueue.Pc.emptied, eq_comm]
  have hout : ∀ (i : Fin n) b, ¬ (System.init : System w n D T).Owns (.outSlot i) b := by
    intro i b
    simp [System.Owns, SlotHas, System.init, AtQueue.init]
  refine ⟨?_, ?_⟩
  · intro o b ho
    cases o with
    | freeSlot i => exact (hfree i b).mp ho ▸ i.isLt
    | outSlot i => exact absurd ho (hout i b)
    | call t => cases ho
  · intro b hb
    refine ⟨.freeSlot ⟨b, hb⟩, (hfree _ b).mpr rfl, ?_⟩
    intro o ho
    cases o with
    | freeSlot i => simp [(hfree i b).mp ho]
    | outSlot i => exact absurd ho (hout i b)
    | call t => cases ho

variable [DecidableEq T]

/-- The invariant: the holders of slots are alone in them, and each id has one owner. -/
structure Owned (s : System w n D T) : Prop where
  slots : s.Slots
  once : OwnedOnce (· < n) s.Owns

theorem Owned.step {moved : D → D} {s s' : System w n D T} {a : Action w D T} (h : Owned s)
    (hc : s.Clean a) (hs : s.step moved a = some s') : Owned s' where
  slots := h.slots.step hc (System.step_cases hs)
  once := owned_step h.slots h.once (System.step_cases hs)

/-- A run whose winning exchanges are clean keeps the invariant. -/
theorem owned_run [NeZero n] [Inhabited D] {moved : D → D} {s : System w n D T}
    {tr : List (System w n D T × Action w D T)} (h : Run (System.step moved) System.init tr s)
    (hc : Meets System.Clean tr) : Owned s :=
  h.invariant ⟨System.slots_init, owned_init⟩ (fun _ _ _ hi ha hs => hi.step ha hs) hc

/-- **Exclusive blocks**: in every state reached by a run whose winning exchanges
are clean, at any capacity and with any threads. -/
theorem clean_owned_once [NeZero n] [Inhabited D] {moved : D → D} {s : System w n D T}
    {tr : List (System w n D T × Action w D T)} (h : Run (System.step moved) System.init tr s)
    (hc : Meets System.Clean tr) : s.Exclusive := by
  have hinv := owned_run h hc
  refine ⟨hinv.once.2, ?_⟩
  intro t u b ht hu
  have heq : Owner.call t = Owner.call u :=
    hinv.once.owner_eq (Pc.accesses_block ht) (Pc.accesses_block hu)
  exact Owner.call.inj heq

/-- A producer stores its block while a consumer is inside `dequeue`. -/
theorem clean_owned_once_handover : ∃ (tr : _) (s : System 64 1 Nat Bool),
    Run (System.step id) System.init tr s ∧ Meets System.Clean tr ∧
      (s.pcs false).block = some 0 ∧ s.Exclusive := by
  have hrun : ∃ (tr : _) (s : System 64 1 Nat Bool), Run (System.step id) System.init tr s ∧
      Meets System.Clean tr ∧ tr.map Prod.snd = _ ∧ (s.pcs false).block = some 0 :=
    Run.of_execMeets_any (call (.dequeue true) true 1 ++ call (.enqueue false 7 false 0) false 9)
      (by decide)
  obtain ⟨tr, s, hr, hc, -, hblock⟩ := hrun
  exact ⟨tr, s, hr, hc, hblock, clean_owned_once hr hc⟩

/-- Capacity 2. Thread `false` claims slot 0 of `_cont_queue` and stalls before it
reads the id; thread `true` enqueues block 1 and comes round to slot 0, whose
pointer is still set; both then hold block 0 and are about to write it. -/
def reclaimedSlot : List (Action 64 Nat Bool) :=
  call (.enqueue false 7 false 0) false 3 ++ call (.enqueue true 1 false 0) true 11 ++
    call (.enqueue true 2 false 0) true 5 ++ List.replicate 2 (Action.run false)

theorem reclaimed_slot_shares : ∃ (tr : _) (s : System 64 2 Nat Bool),
    Run (System.step id) System.init tr s ∧ tr.map Prod.snd = reclaimedSlot ∧ ¬ s.Exclusive := by
  have hrun : ∃ (tr : _) (s : System 64 2 Nat Bool), Run (System.step id) System.init tr s ∧
      tr.map Prod.snd = reclaimedSlot ∧
      ((s.pcs false).accesses = some 0 ∧ (s.pcs true).accesses = some 0) :=
    Run.of_exec_any _ (by decide)
  obtain ⟨tr, s, hr, ha, hf, ht⟩ := hrun
  refine ⟨tr, s, hr, ha, ?_⟩
  intro hex
  have heq := hex.2 _ _ _ hf ht
  cases heq

end Vee.Lockfree.Queue
