import Vee.Lib.Ownership
import Vee.Lockfree.Progress
import Vee.Lockfree.SpscRing

/- In what order an `atqueue` gives its values back.

   The winner of an exchange on `_rear` has drawn the next ticket for putting a value in,
   and the winner of an exchange on `_front` the next one for taking a value out; which of
   them comes to publish or to clear its slot first is left to the scheduler. `Tickets`
   says where the tickets are: those from the number of the next taker to the number of
   the next putter are in distinct slots and hold the value drawn for them or are about to,
   and the slots after them are null or are still being read by the takers of a lap before.
   Every clean step keeps this (`Tickets.move`), so in a clean run the taker of the k-th
   ticket returns the value the k-th putter drew it for (`served_in_order`). -/
namespace Vee.Lockfree.AtQueue
open Transition Circular Ownership

variable {w n : Nat} {D T : Type*} {moved : D → D}

/-- The value for which the next step of the thread draws a ticket. -/
def Pc.draws (q : AtQueue n D) : Pc w n D → Option D
  | enqueue (.exchange v _ _ i) => if q.rear = i then some v else none
  | _ => none

/-- 1 if the next step of the thread takes a ticket. -/
def Pc.calls (q : AtQueue n D) : Pc w n D → Nat
  | dequeue (.exchange i) => if q.front = i then 1 else 0
  | _ => 0

/-- The value the thread writes or is about to. -/
def Pc.written : Pc w n D → Option D
  | enqueue (.store v _) | enqueue (.publish v _) => some v
  | _ => none

/-- The value the thread reads or has read. -/
def Pc.got (cont : Fin n → D) : Pc w n D → Option D
  | dequeue (.take i) => some (cont i)
  | dequeue (.clear _ out) => some out
  | _ => none

/-- What a thread reads is not changed by a write to a slot it does not read. -/
theorem Pc.got_update {cont : Fin n → D} {p : Pc w n D} {i : Fin n} (h : p.reading ≠ some i)
    (v : D) : p.got (Function.update cont i v) = p.got cont := by
  unfold Pc.got
  split
  · rename_i j
    have hji : j ≠ i := fun heq => h (heq ▸ rfl)
    simp only [Function.update_of_ne hji]
  · rfl
  · rfl

/-- Some thread writes to the slot. -/
def Written (pcs : T → Pc w n D) (i : Fin n) : Prop := ∃ t, (pcs t).writing = some i

/-- Some thread reads the slot. -/
def Read (pcs : T → Pc w n D) (i : Fin n) : Prop := ∃ t, (pcs t).reading = some i

/-- The values `drawn` have been given tickets, in order, and `f` tickets have been taken. -/
structure Tickets [NeZero n] (q : AtQueue n D) (pcs : T → Pc w n D) (drawn : List D) (f : Nat) :
    Prop where
  slots : Slots q pcs
  front : q.front = slot n f
  rear : q.rear = slot n drawn.length
  behind : f ≤ drawn.length
  ahead : drawn.length ≤ f + n
  /-- the slots of the tickets not taken hold a value or get one -/
  filled : ∀ k, f ≤ k → k < drawn.length →
    ¬ Read pcs (slot n k) ∧ (Written pcs (slot n k) ∨ q.ptrs (slot n k) = true)
  /-- the slots of the tickets not drawn are null or get so -/
  hollow : ∀ k, drawn.length ≤ k → k < f + n →
    ¬ Written pcs (slot n k) ∧ (Read pcs (slot n k) ∨ q.ptrs (slot n k) = false)
  /-- a writer writes the value its ticket was drawn for, and a published one is in its slot -/
  writer : ∀ t k, f ≤ k → k < drawn.length → (pcs t).writing = some (slot n k) →
    drawn[k]? = (pcs t).written
  value : ∀ k, f ≤ k → k < drawn.length → q.ptrs (slot n k) = true →
    drawn[k]? = some (q.cont (slot n k))
  /-- a reader reads the value of the ticket it took -/
  reader : ∀ t k, k < f → drawn.length ≤ k + n → (pcs t).reading = some (slot n k) →
    drawn[k]? = (pcs t).got q.cont

section
variable {q q' : AtQueue n D} {pcs : T → Pc w n D} {t : T} {p : Pc w n D} {i : Fin n}

theorem Slots.not_read (h : Slots q pcs) (hi : q.ptrs i = false) : ¬ Read pcs i := by
  intro hread
  obtain ⟨u, hu⟩ := hread
  rw [h.reader_set u i hu] at hi
  cases hi

theorem Slots.not_written (h : Slots q pcs) (hi : q.ptrs i = true) : ¬ Written pcs i := by
  intro hwritten
  obtain ⟨u, hu⟩ := hwritten
  rw [h.writer_null u i hu] at hi
  cases hi

variable [DecidableEq T]

/-- The slots that are written to after a step of one thread. -/
theorem Slots.written_update (h : Slots q pcs) (t : T) (p : Pc w n D) (i : Fin n) :
    Written (Function.update pcs t p) i ↔
      p.writing = some i ∨ Written pcs i ∧ (pcs t).writing ≠ some i :=
  at_update_iff (f := Pc.writing) fun u => h.one_writer t u i

/-- The slots that are read after a step of one thread. -/
theorem Slots.read_update (h : Slots q pcs) (t : T) (p : Pc w n D) (i : Fin n) :
    Read (Function.update pcs t p) i ↔
      p.reading = some i ∨ Read pcs i ∧ (pcs t).reading ≠ some i :=
  at_update_iff (f := Pc.reading) fun u => h.one_reader t u i

theorem written_same (pcs : T → Pc w n D) (hp : p.writing = (pcs t).writing) (i : Fin n) :
    Written (Function.update pcs t p) i ↔ Written pcs i :=
  at_update_same (f := Pc.writing) hp

theorem read_same (pcs : T → Pc w n D) (hp : p.reading = (pcs t).reading) (i : Fin n) :
    Read (Function.update pcs t p) i ↔ Read pcs i :=
  at_update_same (f := Pc.reading) hp

end

section
variable [NeZero n] {q q' : AtQueue n D} {pcs : T → Pc w n D} {drawn : List D}
  {f : Nat} {t : T} {p : Pc w n D}

/-- There is room for the ticket of a clean exchange on `_rear`. -/
theorem Tickets.room (h : Tickets q pcs drawn f) {v : D} {r c : BitVec w}
    (ht : pcs t = .enqueue (.exchange v r c q.rear)) (hc : Clean q pcs t) :
    drawn.length < f + n := by
  obtain ⟨hnull, hfree⟩ := hc.reserve ht
  have hn : 0 < n := Nat.pos_of_neZero n
  have hahead := h.ahead
  by_contra hfull
  have hlen : drawn.length = f + n := by omega
  have hrear : q.rear = slot n f := by rw [h.rear, hlen, slot_lap]
  rcases (h.filled f (Nat.le_refl f) (by omega)).2 with ⟨u, hu⟩ | hset
  · exact hfree u (hrear ▸ hu)
  · rw [← hrear, hnull] at hset
    cases hset

/-- There is a ticket for a clean exchange on `_front`. -/
theorem Tickets.some_left (h : Tickets q pcs drawn f)
    (ht : pcs t = .dequeue (.exchange q.front)) (hc : Clean q pcs t) : f < drawn.length := by
  obtain ⟨hset, hfree⟩ := hc.claim ht
  have hn : 0 < n := Nat.pos_of_neZero n
  have hbehind := h.behind
  by_contra hnone
  rcases (h.hollow f (by omega) (by omega)).2 with ⟨u, hu⟩ | hnull
  · exact hfree u (h.front ▸ hu)
  · rw [← h.front, hset] at hnull
    cases hnull

variable [DecidableEq T]

/-- A step that leaves the memory alone and its thread no slot. -/
theorem Tickets.rest (h : Tickets q pcs drawn f) (ht : (pcs t).Quiet) (hp : p.Quiet) :
    Tickets q (Function.update pcs t p) drawn f := by
  have hslots := h.slots.quiet (t := t) hp
  obtain ⟨htw, htr⟩ := ht
  obtain ⟨hpw, hpr⟩ := hp
  have hwritten := written_same pcs (hpw.trans htw.symm)
  have hread := read_same pcs (hpr.trans htr.symm)
  obtain ⟨h₁, h₂, h₃, h₄, h₅, h₆, h₇, h₈, h₉, h₁₀⟩ := h
  constructor <;> grind [Function.update_apply]

theorem Tickets.reserve (h : Tickets q pcs drawn f) {v : D} {r c : BitVec w}
    (ht : pcs t = .enqueue (.exchange v r c q.rear)) (hc : Clean q pcs t) :
    Tickets { q with rear := wrap q.rear } (Function.update pcs t (.enqueue (.store v q.rear)))
      (drawn ++ [v]) f := by
  have hroom := h.room ht hc
  have hslots := h.slots.move hc (show Move id q (pcs t) _ _ by rw [ht]; exact .reserve v r c)
  have hwritten : ∀ i, Written (Function.update pcs t (.enqueue (.store v q.rear))) i ↔
      i = q.rear ∨ Written pcs i := by
    intro i
    rw [h.slots.written_update, ht]
    simp [Pc.writing, eq_comm]
  have hread := read_same pcs (t := t) (p := .enqueue (.store v q.rear)) (by rw [ht]; rfl)
  obtain ⟨hnull, hfree⟩ := hc.reserve ht
  have hwrap : wrap q.rear = slot n (drawn.length + 1) := by rw [h.rear, wrap_slot]
  have hnone := h.slots.not_read hnull
  have hlen : (drawn ++ [v]).length = drawn.length + 1 := by simp
  have hinj : ∀ k, f ≤ k → k < f + n → slot n k = q.rear → k = drawn.length := by
    intro k hfk hkn heq
    rw [h.rear] at heq
    have := h.behind
    exact slot_inj heq (by omega) (by omega)
  obtain ⟨h₁, h₂, h₃, h₄, h₅, h₆, h₇, h₈, h₉, h₁₀⟩ := h
  constructor
  case slots => exact hslots
  case front => exact h₂
  case rear => rw [hlen]; exact hwrap
  case behind => omega
  case ahead => omega
  case filled => grind
  case hollow => grind
  case writer => grind [Function.update_apply, Pc.writing, Pc.written]
  case value => grind
  case reader => grind [Function.update_apply, Pc.reading, Pc.got]

theorem Tickets.claim (h : Tickets q pcs drawn f) (ht : pcs t = .dequeue (.exchange q.front))
    (hc : Clean q pcs t) :
    Tickets { q with front := wrap q.front } (Function.update pcs t (.dequeue (.take q.front)))
      drawn (f + 1) := by
  have hleft := h.some_left ht hc
  have hslots := h.slots.move hc (show Move id q (pcs t) _ _ by rw [ht]; exact .claim)
  have hwritten := written_same pcs (t := t) (p := .dequeue (.take q.front)) (by rw [ht]; rfl)
  have hread : ∀ i, Read (Function.update pcs t (.dequeue (.take q.front))) i ↔
      i = q.front ∨ Read pcs i := by
    intro i
    rw [h.slots.read_update, ht]
    simp [Pc.reading, eq_comm]
  obtain ⟨hset, hfree⟩ := hc.claim ht
  have hwrap : wrap q.front = slot n (f + 1) := by rw [h.front, wrap_slot]
  have hnone := h.slots.not_written hset
  have hvalue := h.value f (Nat.le_refl f) hleft (h.front ▸ hset)
  have hlap : slot n (f + n) = q.front := by rw [h.front, slot_lap]
  have hinj : ∀ k, drawn.length ≤ k + n → k < f + n → slot n k = q.front → k = f := by
    intro k hkn hk heq
    rw [h.front] at heq
    exact slot_inj heq (by omega) (by omega)
  obtain ⟨h₁, h₂, h₃, h₄, h₅, h₆, h₇, h₈, h₉, h₁₀⟩ := h
  constructor
  case slots => exact hslots
  case front => exact hwrap
  case rear => exact h₃
  case behind => omega
  case ahead => omega
  case filled => grind
  case hollow => grind
  case writer => grind [Function.update_apply, Pc.writing, Pc.written]
  case value => grind
  case reader => grind [Function.update_apply, Pc.reading, Pc.got]

/-- A writer's slot is the one of its ticket: the value goes where the ticket is looked for. -/
theorem Tickets.store (h : Tickets q pcs drawn f) {v : D} {i : Fin n}
    (ht : pcs t = .enqueue (.store v i)) :
    Tickets { q with cont := Function.update q.cont i v }
      (Function.update pcs t (.enqueue (.publish v i))) drawn f := by
  have hc : Clean q pcs t := by simp [Clean, ht]
  have hslots := h.slots.move hc (show Move id q (pcs t) _ _ by rw [ht]; exact .store v i)
  have hnull := h.slots.writer_null t i (by rw [ht]; rfl)
  have hset := h.slots.reader_set
  have hwritten := written_same pcs (t := t) (p := .enqueue (.publish v i)) (by rw [ht]; rfl)
  have hread := read_same pcs (t := t) (p := .enqueue (.publish v i)) (by rw [ht]; rfl)
  obtain ⟨h₁, h₂, h₃, h₄, h₅, h₆, h₇, h₈, h₉, h₁₀⟩ := h
  constructor
  case slots => exact hslots
  case front => exact h₂
  case rear => exact h₃
  case behind => exact h₄
  case ahead => exact h₅
  case filled => grind
  case hollow => grind
  case writer => grind [Function.update_apply, Pc.writing, Pc.written]
  case value => grind [Function.update_apply]
  case reader =>
    intro u k hk hkn hu
    by_cases hut : u = t
    · simp [hut, Pc.reading] at hu
    · rw [Function.update_of_ne hut] at hu ⊢
      have hne : (pcs u).reading ≠ some i := by
        intro hi
        rw [hset u i hi] at hnull
        cases hnull
      rw [Pc.got_update hne]
      exact h₁₀ u k hk hkn hu

theorem Tickets.publish (h : Tickets q pcs drawn f) {v : D} {i : Fin n}
    (ht : pcs t = .enqueue (.publish v i)) :
    Tickets { q with ptrs := Function.update q.ptrs i true } (Function.update pcs t .idle)
      drawn f := by
  have hc : Clean q pcs t := by simp [Clean, ht]
  have hslots := h.slots.move hc (show Move id q (pcs t) _ _ by rw [ht]; exact .publish v i)
  have hw : (pcs t).writing = some i := by rw [ht]; rfl
  have hv : (pcs t).written = some (q.cont i) := by rw [h.slots.stored t v i ht, ht]; rfl
  have hnone := h.slots.not_read (h.slots.writer_null t i hw)
  have hwritten : ∀ j, Written (Function.update pcs t .idle) j ↔ Written pcs j ∧ j ≠ i := by
    intro j
    rw [h.slots.written_update, hw]
    simp [Pc.writing, eq_comm]
  have hread := read_same pcs (t := t) (p := .idle) (by rw [ht]; rfl)
  have hmine : Written pcs i := ⟨t, hw⟩
  obtain ⟨h₁, h₂, h₃, h₄, h₅, h₆, h₇, h₈, h₉, h₁₀⟩ := h
  constructor
  case slots => exact hslots
  case front => exact h₂
  case rear => exact h₃
  case behind => exact h₄
  case ahead => exact h₅
  case filled => grind [Function.update_apply]
  case hollow => grind [Function.update_apply]
  case writer => grind [Function.update_apply, Pc.writing]
  case value => grind [Function.update_apply]
  case reader => grind [Function.update_apply, Pc.reading]

theorem Tickets.take (h : Tickets q pcs drawn f) {i : Fin n} (ht : pcs t = .dequeue (.take i)) :
    Tickets { q with cont := Function.update q.cont i (moved (q.cont i)) }
      (Function.update pcs t (.dequeue (.clear i (q.cont i)))) drawn f := by
  have hc : Clean q pcs t := by simp [Clean, ht]
  have hslots := h.slots.move hc (show Move moved q (pcs t) _ _ by rw [ht]; exact .take i)
  have hr : (pcs t).reading = some i := by rw [ht]; rfl
  have hv : (pcs t).got q.cont = some (q.cont i) := by rw [ht]; rfl
  have hone := h.slots.one_reader t
  have hwritten := written_same pcs (t := t) (p := .dequeue (.clear i (q.cont i)))
    (by rw [ht]; rfl)
  have hread := read_same pcs (t := t) (p := .dequeue (.clear i (q.cont i))) (by rw [ht]; rfl)
  have hmine : Read pcs i := ⟨t, hr⟩
  obtain ⟨h₁, h₂, h₃, h₄, h₅, h₆, h₇, h₈, h₉, h₁₀⟩ := h
  constructor
  case slots => exact hslots
  case front => exact h₂
  case rear => exact h₃
  case behind => exact h₄
  case ahead => exact h₅
  case filled => grind
  case hollow => grind
  case writer => grind [Function.update_apply, Pc.writing]
  case value => grind [Function.update_apply]
  case reader =>
    intro u k hk hkn hu
    by_cases hut : u = t
    · subst hut
      rw [Function.update_self] at hu ⊢
      rw [h₁₀ u k hk hkn (hr.trans hu), hv]
      rfl
    · rw [Function.update_of_ne hut] at hu ⊢
      have hne : (pcs u).reading ≠ some i := fun hi => hut (hone u i hr hi).symm
      rw [Pc.got_update hne]
      exact h₁₀ u k hk hkn hu

theorem Tickets.clear (h : Tickets q pcs drawn f) {i : Fin n} {out : D}
    (ht : pcs t = .dequeue (.clear i out)) :
    Tickets { q with ptrs := Function.update q.ptrs i false } (Function.update pcs t .idle)
      drawn f := by
  have hc : Clean q pcs t := by simp [Clean, ht]
  have hslots := h.slots.move hc (show Move id q (pcs t) _ _ by rw [ht]; exact .clear i out)
  have hr : (pcs t).reading = some i := by rw [ht]; rfl
  have hnone := h.slots.not_written (h.slots.reader_set t i hr)
  have hwritten := written_same pcs (t := t) (p := .idle) (by rw [ht]; rfl)
  have hread : ∀ j, Read (Function.update pcs t .idle) j ↔ Read pcs j ∧ j ≠ i := by
    intro j
    rw [h.slots.read_update, hr]
    simp [Pc.reading, eq_comm]
  have hmine : Read pcs i := ⟨t, hr⟩
  obtain ⟨h₁, h₂, h₃, h₄, h₅, h₆, h₇, h₈, h₉, h₁₀⟩ := h
  constructor
  case slots => exact hslots
  case front => exact h₂
  case rear => exact h₃
  case behind => exact h₄
  case ahead => exact h₅
  case filled => grind [Function.update_apply]
  case hollow => grind [Function.update_apply]
  case writer => grind [Function.update_apply, Pc.writing]
  case value => grind [Function.update_apply]
  case reader => grind [Function.update_apply, Pc.reading]

/-- A clean step keeps the tickets in order. -/
theorem Tickets.move (h : Tickets q pcs drawn f) (hc : Clean q pcs t)
    (hm : Move moved q (pcs t) q' p) :
    Tickets q' (Function.update pcs t p) (drawn ++ ((pcs t).draws q).toList)
      (f + (pcs t).calls q) := by
  generalize hp : pcs t = p₀ at hm
  cases hm with
  | reserve v r c => simpa [Pc.draws, Pc.calls] using h.reserve hp hc
  | claim => simpa [Pc.draws, Pc.calls] using h.claim hp hc
  | store v i => simpa [Pc.draws, Pc.calls] using h.store hp
  | publish v i => simpa [Pc.draws, Pc.calls] using h.publish hp
  | take i =>
    have htaken : Tickets { q with cont := Function.update q.cont i (moved (q.cont i)) } _
      drawn f := h.take hp
    simpa [Pc.draws, Pc.calls] using htaken
  | clear i out => simpa [Pc.draws, Pc.calls] using h.clear hp
  | lostRear v r c i hne =>
    simpa [Pc.draws, Pc.calls, hne] using h.rest (by rw [hp]; exact ⟨rfl, rfl⟩) ⟨rfl, rfl⟩
  | lostFront i hne =>
    simpa [Pc.draws, Pc.calls, hne] using h.rest (by rw [hp]; exact ⟨rfl, rfl⟩) ⟨rfl, rfl⟩
  | _ => simpa [Pc.draws, Pc.calls] using h.rest (by rw [hp]; exact ⟨rfl, rfl⟩) ⟨rfl, rfl⟩

/-- A reader keeps its ticket until it returns. -/
theorem Tickets.keep (h : Tickets q pcs drawn f) {u : T} (hc : Clean q pcs u)
    (hm : Move moved q (pcs u) q' p) {k : Nat} (ht : (pcs t).reading = some (slot n k))
    (hlap : drawn.length ≤ k + n) :
    (drawn ++ ((pcs u).draws q).toList).length ≤ k + n ∧
      ((Function.update pcs u p t).reading = some (slot n k) ∨
        Function.update pcs u p t = .idle) := by
  refine ⟨?_, ?_⟩
  · generalize hp : pcs u = p₀ at hm
    cases hm with
    | reserve v r c =>
      -- the slot is set, so the exchange a lap later is not clean
      have hne : drawn.length ≠ k + n := by
        intro heq
        have hrear : q.rear = slot n k := by rw [h.rear, heq, slot_lap]
        have hset := h.slots.reader_set t _ ht
        rw [← hrear, (hc.reserve hp).1] at hset
        cases hset
      simp [Pc.draws]
      omega
    | lostRear v r c i hne => simpa [Pc.draws, hne] using hlap
    | _ => simpa [Pc.draws] using hlap
  · by_cases htu : t = u
    · subst htu
      rw [Function.update_self]
      generalize pcs t = p₀ at hm ht
      cases hm with
      | take i => exact .inl ht
      | clear i out => exact .inr rfl
      | _ => cases ht
    · rw [Function.update_of_ne htu]
      exact .inl ht

end

/-! ## Runs -/

/-- The value for which the step draws a ticket. -/
def System.draws (s : System w n D T) : Action w D T → List D
  | .run t => ((s.pcs t).draws s.mem).toList
  | _ => []

/-- 1 if the step takes a ticket. -/
def System.calls (s : System w n D T) : Action w D T → Nat
  | .run t => (s.pcs t).calls s.mem
  | _ => 0

/-- The values of the exchanges won on `_rear`, in order. -/
def drawn (tr : List (System w n D T × Action w D T)) : List D := tr.flatMap fun p => p.1.draws p.2

/-- The number of the exchanges won on `_front`. -/
def called (tr : List (System w n D T × Action w D T)) : Nat := total System.calls tr

theorem drawn_append (tr₁ tr₂ : List (System w n D T × Action w D T)) :
    drawn (tr₁ ++ tr₂) = drawn tr₁ ++ drawn tr₂ := List.flatMap_append

theorem called_append (tr₁ tr₂ : List (System w n D T × Action w D T)) :
    called (tr₁ ++ tr₂) = called tr₁ + called tr₂ := total_append ..

section
variable [NeZero n] [DecidableEq T] {s s' : System w n D T} {a : Action w D T} {ds : List D}
  {f : Nat}

theorem Tickets.step (h : Tickets s.mem s.pcs ds f) (hc : s.Clean a)
    (hs : s.step moved a = some s') : Tickets s'.mem s'.pcs (ds ++ s.draws a) (f + s.calls a) := by
  cases hstarts : a.starts with
  | some c =>
    obtain ⟨t, k⟩ := c
    obtain ⟨hidle, rfl⟩ := System.step_start hstarts hs
    have hrest := h.rest (t := t) (p := a.entry) (by rw [hidle]; exact ⟨rfl, rfl⟩) (by
      cases a <;> exact ⟨rfl, rfl⟩)
    cases a with
    | run u => cases hstarts
    | enqueue u v retries | dequeue u => simpa [System.draws, System.calls] using hrest
  | none =>
    cases a with
    | enqueue u v retries | dequeue u => cases hstarts
    | run t =>
      obtain ⟨p, hm, hpcs⟩ := System.step_run hs
      rw [hpcs]
      exact h.move hc hm

/-- In every clean run the tickets are in order. -/
theorem tickets_run [Inhabited D] {tr : List (System w n D T × Action w D T)}
    (h : Run (System.step moved) System.init tr s) (hc : Meets System.Clean tr) :
    Tickets s.mem s.pcs (drawn tr) (called tr) := by
  refine Run.history (I := fun tr s => Tickets s.mem s.pcs (drawn tr) (called tr)) ?_ ?_ h hc
  · constructor
    case slots => exact .init fun _ => rfl
    all_goals simp [System.init, AtQueue.init, drawn, called, Written, Read, Pc.writing, Pc.reading]
  · intro tr s a s' hI ha hs
    rw [drawn_append, called_append]
    simpa [drawn, called] using hI.step ha hs

omit [NeZero n] in
/-- What a call that returns a value was about to do. -/
theorem System.returns {t : T} {v : D} (h : s.step moved (.run t) = some s')
    (hlog : s'.log = s.log ++ [.dequeued t (some v)]) : ∃ i, s.pcs t = .dequeue (.clear i v) := by
  simp only [step] at h
  split at h
  · cases h
  · rename_i pc ht
    obtain rfl := Option.some.inj h
    have hevents : enqueueEvents t pc.value (s.mem.enqueueStep pc).2 = [.dequeued t (some v)] :=
      List.append_cancel_left hlog
    cases hnext : (s.mem.enqueueStep pc).2 with
    | goto pc' => simp [hnext, enqueueEvents] at hevents
    | returned result => simp [hnext, enqueueEvents] at hevents
  · rename_i pc ht
    obtain rfl := Option.some.inj h
    have hevents : dequeueEvents t (s.mem.dequeueStep moved pc).2 = [.dequeued t (some v)] :=
      List.append_cancel_left hlog
    generalize hr : s.mem.dequeueStep moved pc = r at hevents
    obtain ⟨q, next⟩ := r
    cases next with
    | goto pc' => simp [dequeueEvents] at hevents
    | returned result =>
      obtain rfl : result = some v := by simpa [dequeueEvents] using hevents
      obtain ⟨i, rfl, -⟩ := dequeueStep_some hr
      exact ⟨i, ht⟩

omit [NeZero n] [DecidableEq T] in
/-- What a thread that takes a ticket is about to do. -/
theorem System.calls_exchange {t : T} (h : s.calls (.run t) = 1) :
    s.pcs t = .dequeue (.exchange s.mem.front) := by
  simp only [calls, Pc.calls] at h
  split at h
  · split at h
    · rename_i i ht heq
      rw [ht, heq]
    · cases h
  · cases h

/-- The thread has taken the ticket `k` and holds its slot, or its call has returned. -/
def System.Serves (s : System w n D T) (t : T) (k drawn : Nat) : Prop :=
  s.pcs t = .idle ∨ (s.pcs t).reading = some (slot n k) ∧ drawn ≤ k + n

theorem System.Serves.step {t : T} {k : Nat} (hserves : s.Serves t k ds.length)
    (h : Tickets s.mem s.pcs ds f) (hc : s.Clean a) (hown : ∀ j, a.starts ≠ some (t, j))
    (hs : s.step moved a = some s') : s'.Serves t k (ds ++ s.draws a).length := by
  cases hstarts : a.starts with
  | some c =>
    obtain ⟨u, j⟩ := c
    obtain ⟨-, rfl⟩ := step_start hstarts hs
    have hu : t ≠ u := fun heq => hown j (heq ▸ hstarts)
    have hnone : s.draws a = [] := by
      cases a with
      | run u => cases hstarts
      | enqueue | dequeue => rfl
    simpa [Serves, Function.update_of_ne hu, hnone] using hserves
  | none =>
    cases a with
    | enqueue u v retries | dequeue u => cases hstarts
    | run u =>
      obtain ⟨p, hm, hpcs⟩ := step_run hs
      rw [Serves, hpcs]
      rcases hserves with hidle | ⟨hreads, hlap⟩
      · have htu : t ≠ u := by
          intro heq
          subst heq
          -- an idle thread takes no step
          rw [hidle] at hm
          cases hm
        rw [Function.update_of_ne htu]
        exact .inl hidle
      · obtain ⟨hlap', hreads' | hidle⟩ := h.keep hc hm hreads hlap
        · exact .inr ⟨hreads', hlap'⟩
        · exact .inl hidle

/-- **First in, first out, by tickets.** In a clean run, with any threads at any interleaving,
a call of `dequeue` that wins its exchange after `k` others and returns a value returns the
one of the call of `enqueue` that won its exchange after `k` others. -/
theorem served_in_order [Inhabited D] {x y z : System w n D T} {t : T} {v : D}
    {before during : List (System w n D T × Action w D T)}
    (h : Run (System.step moved) System.init
      ((before ++ (x, .run t) :: during) ++ [(y, .run t)]) z)
    (hc : Meets System.Clean ((before ++ (x, .run t) :: during) ++ [(y, .run t)]))
    (hcall : x.calls (.run t) = 1)
    (hown : Meets (fun _ b => ∀ j, b.starts ≠ some (t, j)) during)
    (hreturn : z.log = y.log ++ [.dequeued t (some v)]) :
    (drawn before)[called before]? = some v := by
  obtain ⟨hrun, hlast⟩ := run_snoc_iff.mp h
  obtain ⟨hcrun, -⟩ := meets_append.mp hc
  obtain ⟨hcbefore, hcrest⟩ := meets_append.mp hcrun
  obtain ⟨hcx, hcduring⟩ := meets_cons.mp hcrest
  obtain ⟨m, hbefore, hafter⟩ := Run.split hrun
  obtain ⟨rfl, x₁, hx₁, hduring⟩ := hafter.cons
  have hx := tickets_run hbefore hcbefore
  have ht := System.calls_exchange hcall
  have hleft := hx.some_left ht hcx
  have hnodraw : m.draws (.run t) = [] := by simp [System.draws, ht, Pc.draws]
  -- the step itself: the thread has ticket `called before`
  have hstart : Tickets x₁.mem x₁.pcs (drawn before) (called before + 1) ∧
      x₁.Serves t (called before) (drawn before).length := by
    have hstep := hx.step hcx hx₁
    rw [hnodraw, hcall, List.append_nil] at hstep
    refine ⟨hstep, .inr ⟨?_, hx.ahead⟩⟩
    obtain ⟨p, hm, hpcs⟩ := System.step_run hx₁
    rw [ht] at hm
    rw [hpcs, Function.update_self, ← hx.front]
    generalize x₁.mem = q at hm
    cases hm with
    | claim => rfl
    | lostFront i hne => exact absurd rfl hne
  have hend := Run.history (C := fun s b => s.Clean b ∧ ∀ j, b.starts ≠ some (t, j))
    (I := fun tr s =>
      Tickets s.mem s.pcs (drawn before ++ drawn tr) (called before + 1 + called tr) ∧
        s.Serves t (called before) (drawn before ++ drawn tr).length)
    (by simpa [drawn, called] using hstart) ?_ hduring (fun p hp => ⟨hcduring p hp, hown p hp⟩)
  · obtain ⟨htickets, hserves⟩ := hend
    obtain ⟨i, hclear⟩ := System.returns hlast hreturn
    rcases hserves with hidle | ⟨hreads, hlap⟩
    · rw [hidle] at hclear
      cases hclear
    · have hvalue := htickets.reader t (called before) (by omega) hlap hreads
      rw [List.getElem?_append_left hleft, hclear] at hvalue
      exact hvalue
  · intro tr s b s' hI hb hs
    obtain ⟨hI, hserves⟩ := hI
    rw [drawn_append, called_append, ← List.append_assoc, ← Nat.add_assoc]
    have hstep := hI.step hb.1 hs
    have hserves' := hserves.step hI hb.1 hb.2 hs
    simpa [drawn, called] using And.intro hstep hserves'

end

/-- Thread 0 draws the first ticket and stops; thread 1 draws the second and publishes its
value. Thread 2 finds the first slot empty, and the value of thread 0 is what it gets when
that is published at last. -/
theorem served_in_order_overtaken : ∃ (before during : _) (x y z : System 64 2 Nat (Fin 3)),
    Run (System.step id) System.init ((before ++ (x, .run 2) :: during) ++ [(y, .run 2)]) z ∧
      z.log = [.enqueued 1 8 true, .dequeued 2 none, .enqueued 0 7 true, .dequeued 2 (some 7)] ∧
      (drawn before)[called before]? = some 7 := by
  have hrun : ∃ (tr : _) (z : System 64 2 Nat (Fin 3)), Run (System.step id) System.init tr z ∧
      Meets System.Clean tr ∧
      tr.map Prod.snd = ((.enqueue 0 7 0 :: .enqueue 1 8 0 ::
        (List.replicate 3 (.run 0) ++ List.replicate 5 (.run 1)) ++
        [.dequeue 2, .run 2, .run 2, .run 0, .run 0, .dequeue 2, .run 2, .run 2]) ++
        .run 2 :: [.run 2]) ++ [.run 2] ∧
      z.log = [.enqueued 1 8 true, .dequeued 2 none, .enqueued 0 7 true, .dequeued 2 (some 7)] :=
    Run.of_execMeets_any _ (by decide)
  obtain ⟨tr, z, hr, hc, ha, hlog⟩ := hrun
  obtain ⟨tr', last, rfl, ha', hlast⟩ := List.map_eq_append_iff.mp ha
  obtain ⟨⟨y, b⟩, rfl, hb⟩ := List.map_eq_singleton_iff.mp hlast
  obtain rfl : b = .run 2 := hb
  obtain ⟨before, rest, rfl, hbefore, hrest⟩ := List.map_eq_append_iff.mp ha'
  obtain ⟨⟨x, b⟩, during, rfl, hb, hduring⟩ := List.map_eq_cons_iff.mp hrest
  obtain rfl : b = .run 2 := hb
  obtain ⟨hy, -⟩ := run_snoc_iff.mp hr
  obtain ⟨m, hx, hafter⟩ := Run.split hy
  obtain ⟨rfl, -⟩ := hafter.cons
  have hcall : m.calls (.run 2) = 1 :=
    Run.any_exec (P := fun s : System 64 2 Nat (Fin 3) => s.calls (.run 2) = 1) hx hbefore
      (by decide)
  have hlogy : y.log = [.enqueued 1 8 true, .dequeued 2 none, .enqueued 0 7 true] :=
    Run.any_exec (P := fun s : System 64 2 Nat (Fin 3) => s.log = [.enqueued 1 8 true,
      .dequeued 2 none, .enqueued 0 7 true]) hy ha' (by decide)
  refine ⟨before, during, m, y, z, hr, hlog, served_in_order hr hc hcall ?_ ?_⟩
  · intro p hp j
    have hmem : p.2 ∈ during.map Prod.snd := List.mem_map_of_mem hp
    rw [hduring] at hmem
    obtain hb : p.2 = .run 2 := List.mem_singleton.mp hmem
    simp [hb, Action.starts]
  · rw [hlog, hlogy]
    rfl

end Vee.Lockfree.AtQueue
