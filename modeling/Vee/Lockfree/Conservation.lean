import Vee.Lockfree.Emptiness

/- No loss and no duplication in a `queue` with any number of producers and consumers.

   A value is in the queue from the moment its block is published in `_out_queue` until
   the block is published in `_cont_queue` again: first in the block, then, once a consumer
   has moved it out, in the hands of that consumer's call (`System.Has`). No step but these
   two changes what the queue has. A consumer hands a block on within its call and writes
   no block but its own, which in clean runs no one else owns. So the values accepted are
   those taken and those the queue has (`clean_conserves`). -/
namespace Vee.Lockfree.Queue
open AtQueue Transition Ownership

variable {w n : Nat} {D T : Type*}

/-- The block a call of `dequeue` is emptying or giving back, and the value that was in it. -/
def Pc.due (cont : Nat → D) : Pc w n D → Option (Nat × D)
  | takeOut (.clear _ b) | drain b => some (b, cont b)
  | putFree out pc => some (pc.value, out)
  | _ => none

theorem Pc.due_block {cont : Nat → D} {p : Pc w n D} {b : Nat} {v : D}
    (h : p.due cont = some (b, v)) : p.block = some b := by
  unfold Pc.due at h
  split at h
  · cases h
    rfl
  · cases h
    rfl
  · cases h
    rfl
  · cases h

/-- What is due depends on the call's own block only. -/
theorem Pc.due_congr {cont cont' : Nat → D} {p : Pc w n D}
    (h : ∀ b, p.block = some b → cont' b = cont b) : p.due cont' = p.due cont := by
  unfold Pc.due
  split
  · simp only [h _ rfl]
  · simp only [h _ rfl]
  · rfl
  · rfl

/-- Block `b` has the value `v` for a consumer, or a consumer has taken it and still has `b`. -/
def System.Has (s : System w n D T) (b : Nat) (v : D) : Prop :=
  (∃ i, s.Owns (.outSlot i) b) ∧ s.cont b = v ∨ ∃ t, (s.pcs t).due s.cont = some (b, v)

/-- `m` are the values in the queue. -/
def System.Stores (s : System w n D T) (m : Multiset D) : Prop :=
  ∃ (held : Fin n → Bool) (val : Fin n → D), (∀ b : Fin n, held b = true ↔ ∃ v, s.Has b v) ∧
    (∀ (b : Fin n) v, s.Has b v → val b = v) ∧ m = holding held val

/-- No call is in progress. -/
def System.Quiescent (s : System w n D T) : Prop := ∀ t, s.pcs t = .idle

/-- The values of the blocks published in `_out_queue`. -/
def System.stored (s : System w n D T) : Multiset D :=
  holding (fun b : Fin n => decide (∃ i, s.outQueue.ptrs i = true ∧ s.outQueue.cont i = b))
    fun b => s.cont b

section
variable {s s' : System w n D T} {m : Multiset D}

theorem stores_same (h : s.Stores m) (hhas : ∀ b v, s'.Has b v ↔ s.Has b v) : s'.Stores m := by
  obtain ⟨held, val, hheld, hval, rfl⟩ := h
  refine ⟨held, val, ?_, ?_, rfl⟩
  · intro b
    simp only [hhas, hheld]
  · intro b v hv
    exact hval b v ((hhas b v).mp hv)

/-- One more block has a value. -/
theorem stores_publish (h : s.Stores m) {b : Nat} {v : D} (hb : b < n) (hnew : ∀ u, ¬ s.Has b u)
    (hhas : ∀ k u, s'.Has k u ↔ s.Has k u ∨ k = b ∧ u = v) : s'.Stores (v ::ₘ m) := by
  obtain ⟨held, val, hheld, hval, rfl⟩ := h
  have hnull : held ⟨b, hb⟩ = false := by
    rw [Bool.eq_false_iff]
    intro hset
    obtain ⟨u, hu⟩ := (hheld ⟨b, hb⟩).mp hset
    exact hnew u hu
  refine ⟨Function.update held ⟨b, hb⟩ true, Function.update val ⟨b, hb⟩ v, ?_, ?_, ?_⟩
  · intro k
    by_cases hk : k = ⟨b, hb⟩
    · subst hk
      simp [hhas]
    · have hkb : k.val ≠ b := fun heq => hk (Fin.ext heq)
      simp [Function.update_of_ne hk, hhas, hkb, hheld]
  · intro k u hu
    by_cases hk : k = ⟨b, hb⟩
    · subst hk
      rcases (hhas b u).mp hu with hold | ⟨-, rfl⟩
      · exact absurd hold (hnew u)
      · exact Function.update_self ..
    · have hkb : k.val ≠ b := fun heq => hk (Fin.ext heq)
      rw [Function.update_of_ne hk]
      exact hval k u (by simpa [hkb] using (hhas k u).mp hu)
  · have hsame : holding held (Function.update val ⟨b, hb⟩ v) = holding held val := by
      apply holding_congr
      intro k hk
      apply Function.update_of_ne
      intro heq
      subst heq
      rw [hnull] at hk
      cases hk
    rw [holding_set hnull, Function.update_self, hsame]

/-- One block's value is gone. -/
theorem stores_return (h : s.Stores m) {b : Nat} {v : D} (hb : b < n) (hgone : ∀ u, ¬ s'.Has b u)
    (hhas : ∀ k u, s.Has k u ↔ s'.Has k u ∨ k = b ∧ u = v) :
    ∃ m', s'.Stores m' ∧ m = v ::ₘ m' := by
  obtain ⟨held, val, hheld, hval, rfl⟩ := h
  have hmine : s.Has b v := (hhas b v).mpr (.inr ⟨rfl, rfl⟩)
  have hset : held ⟨b, hb⟩ = true := (hheld ⟨b, hb⟩).mpr ⟨v, hmine⟩
  refine ⟨_, ⟨Function.update held ⟨b, hb⟩ false, val, ?_, ?_, rfl⟩, ?_⟩
  · intro k
    by_cases hk : k = ⟨b, hb⟩
    · subst hk
      simp [hgone]
    · have hkb : k.val ≠ b := fun heq => hk (Fin.ext heq)
      simp [Function.update_of_ne hk, hheld, hhas, hkb]
  · intro k u hu
    exact hval k u ((hhas k u).mpr (.inl hu))
  · rw [holding_clear hset, hval ⟨b, hb⟩ v hmine]

variable [DecidableEq T] {moved : D → D} {a : Action w D T}

omit [DecidableEq T] in
/-- What the queue has, with the call of one thread apart. -/
theorem has_split (s : System w n D T) (t : T) (b : Nat) (v : D) :
    s.Has b v ↔ (∃ i, s.Owns (.outSlot i) b) ∧ s.cont b = v ∨
      (s.pcs t).due s.cont = some (b, v) ∨ ∃ u, u ≠ t ∧ (s.pcs u).due s.cont = some (b, v) := by
  refine or_congr_right ?_
  constructor
  · intro hdue
    obtain ⟨u, hu⟩ := hdue
    by_cases hut : u = t
    · exact .inl (hut ▸ hu)
    · exact .inr ⟨u, hut, hu⟩
  · intro hdue
    rcases hdue with ht | ⟨u, -, hu⟩
    · exact ⟨t, ht⟩
    · exact ⟨u, hu⟩

/-- Other calls' blocks are left alone. -/
theorem others_due (h : Owned s) (hstep : Stepped moved s a s') {u : T} (hu : u ≠ a.thread) :
    (s'.pcs u).due s'.cont = (s.pcs u).due s.cont := by
  obtain ⟨p, hp⟩ := hstep.pcs
  have hsame : s'.pcs u = s.pcs u := by rw [hp, Function.update_of_ne hu]
  rw [hsame]
  exact Pc.due_congr fun b hb => cont_frame h hstep hu hb

/-- So are the blocks in the slots. -/
theorem slots_cont (h : Owned s) (hstep : Stepped moved s a s') {i : Fin n} {b : Nat}
    (hi : s.Owns (.outSlot i) b) : s'.cont b = s.cont b := by
  have hne : ∀ k, (s.pcs a.thread).block = some k → b ≠ k := by
    intro k hk heq
    subst heq
    have hcall : s.Owns (.call a.thread) b := hk
    cases h.once.owner_eq hcall hi
  cases hstep with
  | fill t v rvalue k ht | drain t k ht =>
    exact Function.update_of_ne (hne k (by simp [Action.thread, ht, Pc.block])) _ s.cont
  | _ => rfl

theorem others_has (h : Owned s) (hstep : Stepped moved s a s') (b : Nat) (v : D) :
    (∃ u, u ≠ a.thread ∧ (s'.pcs u).due s'.cont = some (b, v)) ↔
      ∃ u, u ≠ a.thread ∧ (s.pcs u).due s.cont = some (b, v) := by
  refine exists_congr fun u => and_congr_right fun hu => ?_
  rw [others_due h hstep hu]

/-- A step that leaves the slots of `_out_queue` with their blocks and its own call with what is
due to it changes nothing. -/
theorem has_same (h : Owned s) (hstep : Stepped moved s a s')
    (hout : ∀ i b, s'.Owns (.outSlot i) b ↔ s.Owns (.outSlot i) b)
    (hdue : (s'.pcs a.thread).due s'.cont = (s.pcs a.thread).due s.cont) (b : Nat) (v : D) :
    s'.Has b v ↔ s.Has b v := by
  rw [has_split s' a.thread, has_split s a.thread, hdue, others_has h hstep]
  refine or_congr_left ?_
  simp only [hout]
  refine and_congr_right fun hslot => ?_
  obtain ⟨i, hi⟩ := hslot
  rw [slots_cont h hstep hi]

/-- Such a step, told by the points of its call. -/
theorem has_quiet (h : Owned s) (hstep : Stepped moved s a s')
    (htake : ∀ i, s.onOut a.thread ≠ .dequeue (.take i))
    (hpub : ∀ v i, s.onOut a.thread ≠ .enqueue (.publish v i))
    (hdue : (s'.pcs a.thread).due s'.cont = (s.pcs a.thread).due s.cont) (b : Nat) (v : D) :
    s'.Has b v ↔ s.Has b v :=
  has_same h hstep (outSlots_same h.slots hstep htake hpub) hdue b v

/-- A consumer takes a block out of its slot: its value stays in the queue. -/
theorem has_take (h : Owned s) {t : T} {i : Fin n} (ht : s.pcs t = .takeOut (.take i))
    (hstep : Stepped moved s (.run t) s') (hs' : s' = { s with outQueue := { s.outQueue with
        cont := Function.update s.outQueue.cont i (s.outQueue.cont i) } }.setPc t
          (.takeOut (.clear i (s.outQueue.cont i)))) (b : Nat) (v : D) :
    s'.Has b v ↔ s.Has b v := by
  have hat : s.onOut t = .dequeue (.take i) := by simp [System.onOut, ht, Pc.onOut]
  obtain ⟨hhas, hiff⟩ := slotHas_take h.slots.out hat
  have hslot : ∀ j, s'.Owns (.outSlot j) b ↔ s.Owns (.outSlot j) b ∧ j ≠ i := by
    intro j
    subst hs'
    simp only [System.Owns, onOut_setPc]
    exact hiff _ j b
  have hcont : s'.cont = s.cont := by rw [hs']; rfl
  have hnow : (s'.pcs t).due s'.cont = some (s.outQueue.cont i, s.cont (s.outQueue.cont i)) := by
    rw [hs']
    simp [System.setPc, Pc.due]
  have hbefore : (s.pcs t).due s.cont = none := by rw [ht]; rfl
  have hothers := others_has h hstep b v
  rw [has_split s' t, has_split s t, hnow, hbefore]
  simp only [Action.thread] at hothers
  rw [hothers, hcont]
  simp only [hslot, Option.some.injEq, Prod.mk.injEq, reduceCtorEq, false_or]
  rw [← or_assoc]
  refine or_congr_left ?_
  constructor
  · intro hor
    rcases hor with ⟨⟨j, hj, -⟩, hv⟩ | ⟨rfl, hv⟩
    · exact ⟨⟨j, hj⟩, hv⟩
    · exact ⟨⟨i, hhas⟩, hv⟩
  · intro hall
    obtain ⟨⟨j, hj⟩, hv⟩ := hall
    by_cases hji : j = i
    · subst hji
      have hb : s.outQueue.cont j = b := hj.2.1
      exact .inr ⟨hb, by rw [hb]; exact hv⟩
    · exact .inl ⟨⟨j, hj, hji⟩, hv⟩

omit [DecidableEq T] in
/-- A call's block is in no slot of `_out_queue`. -/
theorem not_in_slot (h : Owned s) {t : T} {b : Nat} (hb : (s.pcs t).block = some b) (i : Fin n) :
    ¬ s.Owns (.outSlot i) b := by
  intro hi
  have hcall : s.Owns (.call t) b := owns_call hb
  cases h.once.owner_eq hcall hi

omit [DecidableEq T] in
/-- Nor is it due to another call. -/
theorem not_due (h : Owned s) {t u : T} {b : Nat} (hb : (s.pcs t).block = some b) (hu : u ≠ t)
    (v : D) : (s.pcs u).due s.cont ≠ some (b, v) := by
  intro hdue
  have hcall : s.Owns (.call t) b := owns_call hb
  have hcall' : s.Owns (.call u) b := owns_call (Pc.due_block hdue)
  cases h.once.owner_eq hcall hcall'
  exact hu rfl

/-- A producer publishes its block: the queue has one value more. -/
theorem has_publish (h : Owned s) {t : T} {v left : D} {b : Nat} {i : Fin n}
    (ht : s.pcs t = .putOut v left (.publish b i)) (hstep : Stepped moved s (.run t) s')
    (hs' : s' = { s with outQueue := { s.outQueue with
        ptrs := Function.update s.outQueue.ptrs i true } }.emit t .idle (.enqueued t v true left)) :
    (∀ u, ¬ s.Has b u) ∧ ∀ k u, s'.Has k u ↔ s.Has k u ∨ k = b ∧ u = s.cont b := by
  have hblock : (s.pcs t).block = some b := by rw [ht]; rfl
  have hat : s.onOut t = .enqueue (.publish b i) := by simp [System.onOut, ht, Pc.onOut]
  obtain ⟨-, hiff⟩ := slotHas_publish h.slots.out hat (p := .idle) rfl
  have hslot : ∀ j k, s'.Owns (.outSlot j) k ↔ s.Owns (.outSlot j) k ∨ j = i ∧ k = b := by
    intro j k
    subst hs'
    simp only [System.Owns, onOut_emit]
    exact hiff j k
  have hcont : s'.cont = s.cont := by rw [hs']; rfl
  have hnow : (s'.pcs t).due s'.cont = none := by
    rw [hs']
    simp [System.emit, Pc.due]
  have hbefore : (s.pcs t).due s.cont = none := by rw [ht]; rfl
  refine ⟨?_, ?_⟩
  · intro u hu
    rcases (has_split s t b u).mp hu with ⟨⟨j, hj⟩, -⟩ | hdue | ⟨x, hx, hdue⟩
    · exact not_in_slot h hblock j hj
    · rw [hbefore] at hdue
      cases hdue
    · exact not_due h hblock hx u hdue
  · intro k u
    have hothers := others_has h hstep k u
    simp only [Action.thread] at hothers
    rw [has_split s' t, has_split s t, hnow, hbefore, hothers, hcont]
    simp only [hslot, reduceCtorEq, false_or]
    rw [or_right_comm]
    refine or_congr_left ?_
    constructor
    · intro hall
      obtain ⟨⟨j, hj | ⟨-, rfl⟩⟩, hv⟩ := hall
      · exact .inl ⟨⟨j, hj⟩, hv⟩
      · exact .inr ⟨rfl, hv.symm⟩
    · intro hor
      rcases hor with ⟨⟨j, hj⟩, hv⟩ | ⟨rfl, rfl⟩
      · exact ⟨⟨j, .inl hj⟩, hv⟩
      · exact ⟨⟨i, .inr ⟨rfl, rfl⟩⟩, rfl⟩

/-- A consumer gives its block back: the queue has one value less. -/
theorem has_return (h : Owned s) {t : T} {out : D} {b : Nat} {i : Fin n}
    (ht : s.pcs t = .putFree out (.publish b i)) (hstep : Stepped moved s (.run t) s')
    (hs' : s'.pcs t = .idle) (hcont : s'.cont = s.cont) :
    (∀ u, ¬ s'.Has b u) ∧ ∀ k u, s.Has k u ↔ s'.Has k u ∨ k = b ∧ u = out := by
  have hblock : (s.pcs t).block = some b := by rw [ht]; rfl
  have hslot := outSlots_same h.slots hstep (by simp [Action.thread, System.onOut, ht, Pc.onOut])
    (by simp [Action.thread, System.onOut, ht, Pc.onOut])
  have hslot' : ∀ j k, s'.Owns (.outSlot j) k ↔ s.Owns (.outSlot j) k := hslot
  have hnow : (s'.pcs t).due s'.cont = none := by rw [hs']; rfl
  have hbefore : (s.pcs t).due s.cont = some (b, out) := by rw [ht]; rfl
  refine ⟨?_, ?_⟩
  · intro u hu
    have hothers := others_has h hstep b u
    simp only [Action.thread] at hothers
    rw [has_split s' t, hnow, hothers] at hu
    rcases hu with ⟨⟨j, hj⟩, -⟩ | hdue | ⟨x, hx, hdue⟩
    · exact not_in_slot h hblock j ((hslot' j b).mp hj)
    · cases hdue
    · exact not_due h hblock hx u hdue
  · intro k u
    have hothers := others_has h hstep k u
    simp only [Action.thread] at hothers
    rw [has_split s' t, has_split s t, hnow, hbefore, hothers, hcont]
    simp only [hslot', Option.some.injEq, Prod.mk.injEq, reduceCtorEq, false_or]
    rw [or_assoc]
    refine or_congr_right ?_
    rw [or_comm]
    refine or_congr_right ?_
    exact and_congr eq_comm eq_comm

/-- The invariant: each id has one owner, a block on its way to `_out_queue` stores its value,
and the values accepted are those taken and those in the queue. -/
structure Conserved (s : System w n D T) : Prop where
  owned : Owned s
  carried : ∀ t v left pc, s.pcs t = .putOut v left pc → s.cont pc.value = v
  balance : ∃ m, s.Stores m ∧ accepted s.log = taken s.log + m

/-- What a step accepts and takes out. -/
theorem Conserved.balance_step (h : Conserved s) (hstep : Stepped moved s a s') :
    ∃ m, s'.Stores m ∧ accepted s'.log = taken s'.log + m := by
  obtain ⟨m, hm, hlog⟩ := h.balance
  have hstep' := hstep
  cases hstep with
  | takeOut t pc pc' q ht hmv =>
    cases hmv with
    | take i => exact ⟨m, stores_same hm (has_take h.owned ht hstep' rfl), hlog⟩
    | _ =>
      refine ⟨m, stores_same hm (has_quiet h.owned hstep' ?_ ?_ ?_), hlog⟩ <;>
        simp [Action.thread, System.onOut, System.setPc, ht, Pc.onOut, Pc.due]
  | enqueued t v left b i ht =>
    obtain ⟨hnew, hhas⟩ := has_publish h.owned ht hstep' rfl
    have hcall : s.Owns (.call t) b := owns_call (by rw [ht]; rfl)
    have hv : s.cont b = v := h.carried t v left _ ht
    refine ⟨s.cont b ::ₘ m, stores_publish hm (h.owned.once.1 _ _ hcall) hnew hhas, ?_⟩
    simp only [System.emit, accepted_snoc, taken_snoc, Event.accepted, Event.taken, hlog, hv,
      Option.toList_some, Option.toList_none, Multiset.coe_singleton, Multiset.coe_nil, add_zero]
    rw [add_comm, Multiset.singleton_add, Multiset.add_cons]
  | dequeued t out b i ht =>
    have hcall : s.Owns (.call t) b := owns_call (by rw [ht]; rfl)
    obtain ⟨hgone, hhas⟩ := has_return h.owned ht hstep' (by simp [System.emit]) rfl
    obtain ⟨m', hm', rfl⟩ := stores_return hm (h.owned.once.1 _ _ hcall) hgone hhas
    refine ⟨m', hm', ?_⟩
    simp only [System.emit, accepted_snoc, taken_snoc, Event.accepted, Event.taken, hlog,
      Option.toList_some, Option.toList_none, Multiset.coe_singleton, Multiset.coe_nil, add_zero]
    rw [← Multiset.singleton_add, add_assoc]
  | putOut t v left pc pc' q ht hmv | putFree t out pc pc' q ht hmv
  | takeFree t v rvalue r c pc pc' q ht hmv =>
    refine ⟨m, stores_same hm (has_quiet h.owned hstep' ?_ ?_ ?_), hlog⟩ <;> cases hmv <;>
      simp [Action.thread, System.onOut, System.setPc, ht, Pc.onOut, Pc.due, EnqueuePc.value]
  -- the other steps move no value in or out
  | _ =>
    refine ⟨m, stores_same hm (has_quiet h.owned hstep' ?_ ?_ ?_), ?_⟩ <;>
      simp_all [Action.thread, System.onOut, System.setPc, System.emit, Pc.onOut, Pc.due,
        EnqueuePc.start, EnqueuePc.value, Event.accepted, Event.taken]

theorem Conserved.step (h : Conserved s) (hc : s.Clean a) (hs : s.step moved a = some s') :
    Conserved s' := by
  have hstep := System.step_cases hs
  obtain ⟨p, hp⟩ := hstep.pcs
  refine ⟨h.owned.step hc hs, ?_, h.balance_step hstep⟩
  intro t v left pc ht
  by_cases hta : t = a.thread
  · subst hta
    exact hstep.carried (h.carried _) v left pc ht
  · rw [hp, Function.update_of_ne hta] at ht
    rw [cont_frame h.owned hstep hta (by rw [ht]; rfl)]
    exact h.carried t v left pc ht

omit [DecidableEq T] in
theorem conserved_init [NeZero n] [Inhabited D] : Conserved (System.init : System w n D T) where
  owned := ⟨System.slots_init, owned_init⟩
  carried t v left pc ht := by simp [System.init] at ht
  balance := by
    refine ⟨0, ⟨fun _ => false, fun _ => default, ?_, ?_, ?_⟩, rfl⟩
    · intro b
      simp [System.Has, System.Owns, SlotHas, System.init, AtQueue.init, Pc.due]
    · intro b v hv
      simp [System.Has, System.Owns, SlotHas, System.init, AtQueue.init, Pc.due] at hv
    · simp [holding]

omit [DecidableEq T] in
/-- With no call in progress the queue has the values of the published blocks. -/
theorem stores_quiescent (h : s.Stores m) (hq : s.Quiescent) : m = s.stored := by
  obtain ⟨held, val, hheld, hval, rfl⟩ := h
  have hhas : ∀ b v, s.Has b v ↔
      (∃ i, s.outQueue.ptrs i = true ∧ s.outQueue.cont i = b) ∧ s.cont b = v := by
    intro b v
    simp [System.Has, System.Owns, SlotHas, System.onOut, hq _, Pc.due, Pc.onOut,
      AtQueue.Pc.emptied]
  have hpublished : held =
      fun b : Fin n => decide (∃ i, s.outQueue.ptrs i = true ∧ s.outQueue.cont i = b) := by
    funext b
    rw [Bool.eq_iff_iff]
    simp [hheld, hhas]
  rw [System.stored, ← hpublished]
  apply holding_congr
  intro b hb
  obtain ⟨v, hv⟩ := (hheld b).mp hb
  rw [hval b v hv]
  exact ((hhas b v).mp hv).2.symm

/-- **Producers and consumers of any number**: in a run whose winning exchanges are clean, at
any capacity and any interleaving, no value is taken that was not accepted, none is taken
twice, and with no call in progress the values accepted and not taken are those of the blocks
in `_out_queue`. -/
theorem clean_conserves [NeZero n] [Inhabited D] {tr : List (System w n D T × Action w D T)}
    (h : Run (System.step moved) System.init tr s) (hc : Meets System.Clean tr) :
    taken s.log ≤ accepted s.log ∧ (s.Quiescent → accepted s.log = taken s.log + s.stored) := by
  have hinv := h.invariant (I := Conserved) conserved_init (fun _ _ _ hi ha hs => hi.step ha hs) hc
  obtain ⟨m, hm, hlog⟩ := hinv.balance
  refine ⟨?_, ?_⟩
  · rw [hlog]
    exact Multiset.le_add_right _ _
  · intro hq
    rw [hlog, stores_quiescent hm hq]

/-- Two threads that both put a value in and both take one out, each stopped inside its call
while the other one makes a whole call. -/
theorem clean_conserves_crossed : ∃ (tr : _) (s : System 64 2 Nat Bool),
    Run (System.step id) System.init tr s ∧ Meets System.Clean tr ∧
      (accepted s.log = {8, 7} ∧ taken s.log = {7, 8}) ∧
      taken s.log ≤ accepted s.log ∧ (s.Quiescent → accepted s.log = taken s.log + s.stored) := by
  have hrun : ∃ (tr : _) (s : System 64 2 Nat Bool), Run (System.step id) System.init tr s ∧
      Meets System.Clean tr ∧ tr.map Prod.snd = _ ∧
      (accepted s.log = {8, 7} ∧ taken s.log = {7, 8}) :=
    Run.of_execMeets_any (call (.enqueue false 7 false 0) false 5 ++
      call (.enqueue true 8 false 0) true 11 ++ List.replicate 6 (.run false) ++
      call (.dequeue false) false 5 ++ call (.dequeue true) true 11 ++
      List.replicate 6 (.run false)) (by decide)
  obtain ⟨tr, s, hr, hc, -, hlog⟩ := hrun
  exact ⟨tr, s, hr, hc, hlog, clean_conserves hr hc⟩

end

end Vee.Lockfree.Queue
