import Mathlib.Data.Fintype.Basic
import Vee.Lockfree.AtQueue

/- Who holds the slots of an `atqueue`.

   A thread that wins the exchange on `_rear` holds the slot it won until it
   writes the slot's pointer, and one that wins the exchange on `_front` holds
   its slot until it clears the pointer. `Slots` says that the holders are alone
   in their slots and that the pointer tells them apart. Nothing in the code
   makes this hold: the pointer is read before the exchange, and the exchange
   compares the index only, which comes back to the same value every `capacity`
   steps. `Clean` is the condition a winning exchange would have to check, and
   `Slots.move` is the invariant under it. -/
namespace Vee.Lockfree.AtQueue

variable {w n : Nat} {D T : Type*} {moved : D → D}

/-- The holders of slots are alone in them: a slot being written is null and has
one writer, a slot being read is non-null and has one reader, and a slot about
to be published stores its value. -/
structure Slots (q : AtQueue n D) (pcs : T → Pc w n D) : Prop where
  writer_null : ∀ t i, (pcs t).writing = some i → q.ptrs i = false
  reader_set : ∀ t i, (pcs t).reading = some i → q.ptrs i = true
  one_writer : ∀ t u i, (pcs t).writing = some i → (pcs u).writing = some i → t = u
  one_reader : ∀ t u i, (pcs t).reading = some i → (pcs u).reading = some i → t = u
  stored : ∀ t v i, pcs t = .enqueue (.publish v i) → q.cont i = v

/-- If the next step of thread `t` is an exchange that wins a slot, the slot is
still as the check before the exchange saw it and nobody holds it: null and
with no writer for `enqueue`, non-null and with no reader for `dequeue`. -/
def Clean (q : AtQueue n D) (pcs : T → Pc w n D) (t : T) : Prop :=
  match pcs t with
  | .enqueue (.exchange _ _ _ i) =>
    q.rear = i → q.ptrs i = false ∧ ∀ u, (pcs u).writing ≠ some i
  | .dequeue (.exchange i) =>
    q.front = i → q.ptrs i = true ∧ ∀ u, (pcs u).reading ≠ some i
  | _ => True

instance [Fintype T] (q : AtQueue n D) (pcs : T → Pc w n D) (t : T) :
    Decidable (Clean q pcs t) := by
  unfold Clean
  split <;> infer_instance

theorem Clean.reserve {q : AtQueue n D} {pcs : T → Pc w n D} {t : T} {v : D} {r c : BitVec w}
    (h : Clean q pcs t) (ht : pcs t = .enqueue (.exchange v r c q.rear)) :
    q.ptrs q.rear = false ∧ ∀ u, (pcs u).writing ≠ some q.rear := by
  simpa [Clean, ht] using h

theorem Clean.claim {q : AtQueue n D} {pcs : T → Pc w n D} {t : T}
    (h : Clean q pcs t) (ht : pcs t = .dequeue (.exchange q.front)) :
    q.ptrs q.front = true ∧ ∀ u, (pcs u).reading ≠ some q.front := by
  simpa [Clean, ht] using h

theorem Slots.init {q : AtQueue n D} {pcs : T → Pc w n D} (h : ∀ t, pcs t = .idle) :
    Slots q pcs where
  writer_null t i ht := by simp [h t, Pc.writing] at ht
  reader_set t i ht := by simp [h t, Pc.reading] at ht
  one_writer t u i ht := by simp [h t, Pc.writing] at ht
  one_reader t u i ht := by simp [h t, Pc.reading] at ht
  stored t v i ht := by simp [h t] at ht

/-- A slot is never held by a writer and a reader at once. -/
theorem Slots.disjoint {q : AtQueue n D} {pcs : T → Pc w n D} (h : Slots q pcs) {t u : T}
    {i : Fin n} (ht : (pcs t).writing = some i) (hu : (pcs u).reading = some i) : False := by
  have h₁ := h.writer_null t i ht
  have h₂ := h.reader_set u i hu
  rw [h₁] at h₂
  cases h₂

/-- The slot whose value the thread has taken but which it has not cleared yet. -/
def Pc.emptied : Pc w n D → Option (Fin n)
  | dequeue (.clear i _) => some i
  | _ => none

/-- The thread holds no slot. -/
def Pc.Quiet (p : Pc w n D) : Prop := p.writing = none ∧ p.reading = none

theorem Pc.emptied_reading {p : Pc w n D} {i : Fin n} (h : p.emptied = some i) :
    p.reading = some i := by
  unfold Pc.emptied at h
  split at h
  · simpa [Pc.reading] using h
  · cases h

theorem Pc.Quiet.emptied {p : Pc w n D} (h : p.Quiet) : p.emptied = none := by
  cases hp : p.emptied with
  | none => rfl
  | some i =>
    have hr := Pc.emptied_reading hp
    rw [h.2] at hr
    cases hr

/-- Slot `i` is published with `b` and nobody has taken `b` out of it. -/
def SlotHas (q : AtQueue n D) (pcs : T → Pc w n D) (i : Fin n) (b : D) : Prop :=
  q.ptrs i = true ∧ q.cont i = b ∧ ∀ t, (pcs t).emptied ≠ some i

variable [DecidableEq T]

/-- A thread that ends its step holding no slot, having left the memory alone,
leaves the holders as they are. -/
theorem Slots.quiet {q : AtQueue n D} {pcs : T → Pc w n D} (h : Slots q pcs) {t : T}
    {p : Pc w n D} (hp : p.Quiet) : Slots q (Function.update pcs t p) := by
  obtain ⟨hw, hr⟩ := hp
  have hpub : ∀ v i, p ≠ .enqueue (.publish v i) := by
    intro v i heq
    subst heq
    simp [Pc.writing] at hw
  obtain ⟨h₁, h₂, h₃, h₄, h₅⟩ := h
  constructor <;> grind [Function.update_apply]

theorem Slots.move {q q' : AtQueue n D} {pcs : T → Pc w n D} {t : T} {p' : Pc w n D}
    (h : Slots q pcs) (hc : Clean q pcs t) (hm : Move moved q (pcs t) q' p') :
    Slots q' (Function.update pcs t p') := by
  generalize hp : pcs t = p at hm
  cases hm with
  | loadRear | free | retry | full | lostRear | loadFront | seen | empty | lostFront =>
    exact h.quiet ⟨rfl, rfl⟩
  | reserve v r c =>
    -- the winner of the exchange finds its slot null and free: this is what `Clean` is for
    obtain ⟨hnull, hfree⟩ := hc.reserve hp
    obtain ⟨h₁, h₂, h₃, h₄, h₅⟩ := h
    constructor <;> grind [Function.update_apply, Pc.writing, Pc.reading]
  | store v i =>
    have hw : (pcs t).writing = some i := by rw [hp]; rfl
    obtain ⟨h₁, h₂, h₃, h₄, h₅⟩ := h
    constructor <;> grind [Function.update_apply, Pc.writing, Pc.reading]
  | publish v i =>
    have hw : (pcs t).writing = some i := by rw [hp]; rfl
    obtain ⟨h₁, h₂, h₃, h₄, h₅⟩ := h
    constructor <;> grind [Function.update_apply, Pc.writing, Pc.reading]
  | claim =>
    -- and so does the winner of the other exchange with a slot that is set
    obtain ⟨hset, hfree⟩ := hc.claim hp
    obtain ⟨h₁, h₂, h₃, h₄, h₅⟩ := h
    constructor <;> grind [Function.update_apply, Pc.writing, Pc.reading]
  | take i =>
    have hr : (pcs t).reading = some i := by rw [hp]; rfl
    obtain ⟨h₁, h₂, h₃, h₄, h₅⟩ := h
    constructor <;> grind [Function.update_apply, Pc.writing, Pc.reading]
  | clear i out =>
    have hr : (pcs t).reading = some i := by rw [hp]; rfl
    obtain ⟨h₁, h₂, h₃, h₄, h₅⟩ := h
    constructor <;> grind [Function.update_apply, Pc.writing, Pc.reading]

/-- What one step of a client does to a ring: a step of a call, or anything that
leaves the ring alone and begins and ends holding no slot. -/
inductive ClientStep (moved : D → D) (q : AtQueue n D) (p : Pc w n D) (q' : AtQueue n D)
    (p' : Pc w n D) : Prop where
  | move : Move moved q p q' p' → ClientStep moved q p q' p'
  | away : q' = q → p.Quiet → p'.Quiet → ClientStep moved q p q' p'

theorem Slots.client {q q' : AtQueue n D} {pcs : T → Pc w n D} {t : T} {p' : Pc w n D}
    (h : Slots q pcs) (hc : Clean q pcs t) (hm : ClientStep moved q (pcs t) q' p') :
    Slots q' (Function.update pcs t p') := by
  cases hm with
  | move hm => exact h.move hc hm
  | away hq _ hp =>
    subst hq
    exact h.quiet hp

/-! ## What the slots have -/

theorem emptied_update {pcs : T → Pc w n D} {t : T} {p : Pc w n D} {j : Fin n}
    (hp : p.emptied ≠ some j) (ht : (pcs t).emptied ≠ some j) :
    (∀ u, (Function.update pcs t p u).emptied ≠ some j) ↔ ∀ u, (pcs u).emptied ≠ some j := by
  refine ⟨?_, ?_⟩
  · intro h u
    by_cases hu : u = t
    · exact hu ▸ ht
    · simpa [Function.update_of_ne hu] using h u
  · intro h u
    by_cases hu : u = t
    · simpa [hu] using hp
    · simpa [Function.update_of_ne hu] using h u

/-- A step between points at which its thread has emptied no slot changes what
the slots have only through the memory. -/
theorem slotHas_congr {q q' : AtQueue n D} {pcs : T → Pc w n D} {t : T} {p : Pc w n D}
    (ht : (pcs t).emptied = none) (hp : p.emptied = none) (hptr : q'.ptrs = q.ptrs)
    (hcont : ∀ j, q.ptrs j = true → q'.cont j = q.cont j) (j : Fin n) (b : D) :
    SlotHas q' (Function.update pcs t p) j b ↔ SlotHas q pcs j b := by
  simp only [SlotHas, emptied_update (show p.emptied ≠ some j by simp [hp])
    (show (pcs t).emptied ≠ some j by simp [ht]), hptr]
  refine ⟨?_, ?_⟩
  · intro hall
    obtain ⟨h₁, h₂, h₃⟩ := hall
    exact ⟨h₁, hcont j h₁ ▸ h₂, h₃⟩
  · intro hall
    obtain ⟨h₁, h₂, h₃⟩ := hall
    exact ⟨h₁, (hcont j h₁).trans h₂, h₃⟩

/-- A reader takes what its slot has, and only that. -/
theorem slotHas_take {q : AtQueue n D} {pcs : T → Pc w n D} {t : T} {i : Fin n}
    (h : Slots q pcs) (ht : pcs t = .dequeue (.take i)) :
    SlotHas q pcs i (q.cont i) ∧ ∀ v j b,
      SlotHas { q with cont := Function.update q.cont i v }
        (Function.update pcs t (.dequeue (.clear i (q.cont i)))) j b ↔
      SlotHas q pcs j b ∧ j ≠ i := by
  have hr : (pcs t).reading = some i := by rw [ht]; rfl
  -- nobody else reads slot `i`, so nobody has emptied it
  have hnone : ∀ u, (pcs u).emptied ≠ some i := by
    intro u hu
    have hut := h.one_reader t u i hr (Pc.emptied_reading hu)
    subst hut
    rw [ht] at hu
    cases hu
  refine ⟨⟨h.reader_set t i hr, rfl, hnone⟩, ?_⟩
  intro v j b
  by_cases hji : j = i
  · subst hji
    refine ⟨?_, ?_⟩
    · intro hall
      obtain ⟨-, -, hu⟩ := hall
      exact absurd (by rw [Function.update_self]; rfl) (hu t)
    · intro hall
      obtain ⟨-, hne⟩ := hall
      exact absurd rfl hne
  · have htj : (pcs t).emptied ≠ some j := by simp [ht, Pc.emptied]
    have hpj : (Pc.dequeue (w := w) (.clear i (q.cont i))).emptied ≠ some j := by
      simpa [Pc.emptied] using Ne.symm hji
    simp only [SlotHas, emptied_update hpj htj, Function.update_of_ne hji]
    exact ⟨fun h => ⟨h, hji⟩, fun h => h.1⟩

/-- A reader leaves its slot empty. -/
theorem slotHas_clear {q : AtQueue n D} {pcs : T → Pc w n D} {t : T} {i : Fin n} {out : D}
    {p : Pc w n D} (ht : pcs t = .dequeue (.clear i out)) (hp : p.emptied = none) (j : Fin n)
    (b : D) :
    SlotHas { q with ptrs := Function.update q.ptrs i false } (Function.update pcs t p) j b ↔
      SlotHas q pcs j b := by
  by_cases hji : j = i
  · subst hji
    refine ⟨?_, ?_⟩
    · intro hall
      obtain ⟨hj, -⟩ := hall
      simp at hj
    · intro hall
      obtain ⟨-, -, hu⟩ := hall
      exact absurd (by rw [ht]; rfl) (hu t)
  · have htj : (pcs t).emptied ≠ some j := by simpa [ht, Pc.emptied] using Ne.symm hji
    simp only [SlotHas, emptied_update (show p.emptied ≠ some j by simp [hp]) htj,
      Function.update_of_ne hji]

/-- A writer gives its slot the value it stored, where there was none. -/
theorem slotHas_publish {q : AtQueue n D} {pcs : T → Pc w n D} {t : T} {i : Fin n} {v : D}
    {p : Pc w n D} (h : Slots q pcs) (ht : pcs t = .enqueue (.publish v i))
    (hp : p.emptied = none) :
    (∀ b, ¬ SlotHas q pcs i b) ∧ ∀ j b,
      SlotHas { q with ptrs := Function.update q.ptrs i true } (Function.update pcs t p) j b ↔
      SlotHas q pcs j b ∨ (j = i ∧ b = v) := by
  have hw : (pcs t).writing = some i := by rw [ht]; rfl
  have hnull := h.writer_null t i hw
  have hnone : ∀ b, ¬ SlotHas q pcs i b := by
    intro b hall
    obtain ⟨hi, -⟩ := hall
    rw [hnull] at hi
    cases hi
  refine ⟨hnone, ?_⟩
  intro j b
  have htj : (pcs t).emptied ≠ some j := by simp [ht, Pc.emptied]
  have hpj : p.emptied ≠ some j := by simp [hp]
  by_cases hji : j = i
  · subst hji
    -- a slot with a writer has no reader
    have hread : ∀ u, (pcs u).emptied ≠ some j := fun u hu =>
      h.disjoint hw (Pc.emptied_reading hu)
    simp only [hnone b, false_or, true_and]
    refine ⟨?_, ?_⟩
    · intro hall
      obtain ⟨-, hb, -⟩ := hall
      exact hb.symm.trans (h.stored t v j ht)
    · intro heq
      subst heq
      exact ⟨Function.update_self .., h.stored t b j ht, (emptied_update hpj htj).mpr hread⟩
  · simp only [SlotHas, emptied_update hpj htj, Function.update_of_ne hji, hji, false_and, or_false]

/-- No other step of a client changes what the slots have. -/
theorem ClientStep.slotHas {q q' : AtQueue n D} {pcs : T → Pc w n D} {t : T} {p : Pc w n D}
    (hs : Slots q pcs) (h : ClientStep moved q (pcs t) q' p)
    (htake : ∀ i, pcs t ≠ .dequeue (.take i)) (hpub : ∀ v i, pcs t ≠ .enqueue (.publish v i))
    (j : Fin n) (b : D) : SlotHas q' (Function.update pcs t p) j b ↔ SlotHas q pcs j b := by
  cases h with
  | away hq ht hp =>
    subst hq
    exact slotHas_congr ht.emptied hp.emptied rfl (fun _ _ => rfl) j b
  | move hm =>
    generalize ht : pcs t = p₀ at hm
    cases hm with
    | take i => exact absurd ht (htake i)
    | publish v i => exact absurd ht (hpub v i)
    | clear i out => exact slotHas_clear ht rfl j b
    | store v i =>
      have hnull := hs.writer_null t i (by rw [ht]; rfl)
      have hnone : (pcs t).emptied = none := by rw [ht]; rfl
      refine slotHas_congr hnone (by rfl) (by rfl) ?_ j b
      intro k hk
      apply Function.update_of_ne
      intro heq
      subst heq
      rw [hnull] at hk
      cases hk
    | _ => exact slotHas_congr (by rw [ht]; rfl) rfl rfl (fun _ _ => rfl) j b

end Vee.Lockfree.AtQueue
