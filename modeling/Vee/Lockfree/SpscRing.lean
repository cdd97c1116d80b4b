import Vee.Lib.Circular
import Vee.Lockfree.AtQueue

/- An `atqueue` that one thread enqueues to and one thread dequeues from.

   Then the two exchanges never fail and never meet a slot that has come round:
   `Spsc q e d f xs` says that from position `f` on the ring holds the values `xs`
   in order, published, the dequeuer being possibly at the first of them, and
   after them the slot the enqueuer is writing, if any; all other pointers are
   null. Every step keeps this, `xs` growing at the enqueuer's write of the
   pointer and shrinking at the dequeuer's clearing of it; and a check that finds
   a null pointer at `_front` means `xs = []`. -/
namespace Vee.Lockfree.AtQueue
open Circular

variable {w n : Nat} {D : Type*}

theorem wrap_slot [NeZero n] (k : Nat) : wrap (slot n k) = slot n (k + 1) := by
  apply Fin.ext
  simp [wrap]

/-- 1 while the thread holds a slot it has won on `_rear`. -/
def Pc.writes (p : Pc w n D) : Nat := if p.writing.isSome then 1 else 0

/-- 1 while the thread holds a slot it has won on `_front`. -/
def Pc.reads (p : Pc w n D) : Nat := if p.reading.isSome then 1 else 0

/-- The ring `q` with enqueuer `e` and dequeuer `d` holds `xs` from position `f` on. -/
structure Spsc [NeZero n] (q : AtQueue n D) (e d : Pc w n D) (f : Nat) (xs : List D) : Prop where
  front : q.front = slot n (f + d.reads)
  rear : q.rear = slot n (f + xs.length + e.writes)
  room : xs.length + e.writes ≤ n
  filled : ∀ k x, xs[k]? = some x → q.ptrs (slot n (f + k)) = true ∧ q.cont (slot n (f + k)) = x
  hollow : ∀ k, xs.length ≤ k → k < n → q.ptrs (slot n (f + k)) = false
  /-- the slot being written is the one after the values -/
  writing : ∀ i, e.writing = some i → i = slot n (f + xs.length)
  stored : ∀ v i, e = .enqueue (.publish v i) → q.cont i = v
  /-- the slot being read is the one of the first value -/
  reading : ∀ i, d.reading = some i → i = slot n f ∧ xs ≠ []
  taken : ∀ v i, d = .dequeue (.clear i v) → xs.head? = some v
  /-- the enqueuer's copy of `_rear` is not out of date, nor is its check -/
  checkRear : ∀ v r c i, e = .enqueue (.check v r c i) → i = q.rear
  exchangeRear : ∀ v r c i, e = .enqueue (.exchange v r c i) → i = q.rear ∧ xs.length < n
  /-- nor is the dequeuer's -/
  checkFront : ∀ i, d = .dequeue (.check i) → i = q.front
  exchangeFront : ∀ i, d = .dequeue (.exchange i) → i = q.front ∧ xs ≠ []

variable [NeZero n] {q q' : AtQueue n D} {e d : Pc w n D} {f : Nat} {xs : List D}

/-- The rear slot is null only if there is room. -/
theorem Spsc.room_of_null (h : Spsc q e d f xs) (he : e.writing = none)
    (hnull : q.ptrs q.rear = false) : xs.length < n := by
  have hroom := h.room
  by_contra hfull
  have hlen : xs.length = n := by omega
  have hpos : 0 < xs.length := hlen ▸ Nat.pos_of_neZero n
  have hrear : q.rear = slot n (f + 0) := by
    rw [h.rear, hlen, Pc.writes, he]
    exact slot_lap f
  have hset := (h.filled 0 xs[0] (List.getElem?_eq_getElem hpos)).1
  rw [← hrear, hnull] at hset
  cases hset

/-- The front slot is null only if there are no values. -/
theorem Spsc.nil_of_null (h : Spsc q e d f xs) (hd : d.reading = none)
    (hnull : q.ptrs q.front = false) : xs = [] := by
  have hfront : q.front = slot n (f + 0) := by
    rw [h.front, Pc.reads, hd]
    rfl
  cases xs with
  | nil => rfl
  | cons x xs =>
    have hset := (h.filled 0 x rfl).1
    rw [← hfront, hnull] at hset
    cases hset

/-- The front slot is set only if there is a value. -/
theorem Spsc.ne_nil_of_set (h : Spsc q e d f xs) (hd : d.reading = none)
    (hset : q.ptrs q.front = true) : xs ≠ [] := by
  intro heq
  subst heq
  have hnull := h.hollow 0 (Nat.le_refl 0) (Nat.pos_of_neZero n)
  have hfront : q.front = slot n (f + 0) := by
    rw [h.front, Pc.reads, hd]
    rfl
  rw [← hfront, hset] at hnull
  cases hnull

/-- An enqueuer that leaves the ring may come back at the loading of `_rear`. -/
theorem Spsc.enqueuer_rest (h : Spsc q e d f xs) (he : e.writing = none) {e' : Pc w n D}
    (he' : e' = .idle ∨ ∃ v r c, e' = .enqueue (.load v r c)) : Spsc q e' d f xs := by
  have hw : e'.writing = none := by
    rcases he' with rfl | ⟨v, r, c, rfl⟩ <;> rfl
  have hwrites : e'.writes = e.writes := by simp [Pc.writes, he, hw]
  have hat : ∀ p, e' = .enqueue p → ∃ v r c, p = .load v r c := by
    intro p heq
    subst heq
    rcases he' with h | ⟨v, r, c, h⟩
    · cases h
    · cases h
      exact ⟨v, r, c, rfl⟩
  obtain ⟨h₁, h₂, h₃, h₄, h₅, h₆, h₇, h₈, h₉, h₁₀, h₁₁, h₁₂, h₁₃⟩ := h
  constructor <;> grind

/-- A dequeuer that leaves the ring may come back at the loading of `_front`. -/
theorem Spsc.dequeuer_rest (h : Spsc q e d f xs) (hd : d.reading = none) {d' : Pc w n D}
    (hd' : d' = .idle ∨ d' = .dequeue .load) : Spsc q e d' f xs := by
  have hr : d'.reading = none := by rcases hd' with rfl | rfl <;> rfl
  have hreads : d'.reads = d.reads := by simp [Pc.reads, hd, hr]
  have hat : ∀ p, d' = .dequeue p → p = .load := by
    intro p heq
    subst heq
    rcases hd' with h | h
    · cases h
    · cases h
      rfl
  obtain ⟨h₁, h₂, h₃, h₄, h₅, h₆, h₇, h₈, h₉, h₁₀, h₁₁, h₁₂, h₁₃⟩ := h
  constructor <;> grind

/-- A step inside `enqueue` keeps the values. -/
theorem Spsc.enqueue_goto {p p' : EnqueuePc w n D} (h : Spsc q (.enqueue p) d f xs)
    (hm : Move id q (.enqueue p) q' (.enqueue p')) : Spsc q' (.enqueue p') d f xs := by
  cases hm with
  | loadRear v r c =>
    obtain ⟨h₁, h₂, h₃, h₄, h₅, h₆, h₇, h₈, h₉, h₁₀, h₁₁, h₁₂, h₁₃⟩ := h
    constructor <;> grind [Pc.writes, Pc.writing]
  | free v r c i hi =>
    -- nobody else moves `_rear`, so the slot seen is the one at it
    have hrear := h.checkRear v r c i rfl
    subst hrear
    have hroom := h.room_of_null rfl hi
    obtain ⟨h₁, h₂, h₃, h₄, h₅, h₆, h₇, h₈, h₉, h₁₀, h₁₁, h₁₂, h₁₃⟩ := h
    constructor <;> grind [Pc.writes, Pc.writing]
  | retry v r c i =>
    exact h.enqueuer_rest rfl (Or.inr ⟨v, r, c + 1, rfl⟩)
  | lostRear v r c i hne =>
    exact absurd (h.exchangeRear v r c i rfl).1.symm hne
  | reserve v r c =>
    have hroom := (h.exchangeRear v r c q.rear rfl).2
    have hrear : q.rear = slot n (f + xs.length) := h.rear
    have hwrap : wrap q.rear = slot n (f + xs.length + 1) := by rw [hrear, wrap_slot]
    obtain ⟨h₁, h₂, h₃, h₄, h₅, h₆, h₇, h₈, h₉, h₁₀, h₁₁, h₁₂, h₁₃⟩ := h
    constructor <;> grind [Pc.writes, Pc.writing]
  | store v i =>
    have hi := h.writing i rfl
    have hroom : xs.length + 1 ≤ n := h.room
    -- the slot written is not that of a value
    have hne : ∀ k x, xs[k]? = some x → slot n (f + k) ≠ i := by
      intro k x hk heq
      have hlt : k < xs.length := (List.getElem?_eq_some_iff.mp hk).1
      have := slot_inj (heq.trans hi) (by omega) (by omega)
      omega
    obtain ⟨h₁, h₂, h₃, h₄, h₅, h₆, h₇, h₈, h₉, h₁₀, h₁₁, h₁₂, h₁₃⟩ := h
    constructor <;> grind [Pc.writes, Pc.writing]

/-- `enqueue` succeeds: its value comes after the others. -/
theorem Spsc.publish {v : D} {i : Fin n} (h : Spsc q (.enqueue (.publish v i)) d f xs) :
    Spsc { q with ptrs := Function.update q.ptrs i true } .idle d f (xs ++ [v]) := by
  have hi := h.writing i rfl
  have hroom : xs.length + 1 ≤ n := h.room
  have hv := h.stored v i rfl
  have hne : ∀ k, k < n → k ≠ xs.length → slot n (f + k) ≠ i := by
    intro k hk hkx heq
    have := slot_inj (heq.trans hi) (by omega) (by omega)
    omega
  have hnil : xs ++ [v] ≠ [] := by simp
  obtain ⟨h₁, h₂, h₃, h₄, h₅, h₆, h₇, h₈, h₉, h₁₀, h₁₁, h₁₂, h₁₃⟩ := h
  constructor
  case filled =>
    intro k x hk
    by_cases hkx : k = xs.length
    · subst hkx
      simp at hk
      subst hk hi
      simp [hv]
    · have hlt : k < xs.length := by grind
      rw [List.getElem?_append_left hlt] at hk
      obtain ⟨hset, hx⟩ := h₄ k x hk
      exact ⟨by simp [Function.update_apply, hset], hx⟩
  case hollow =>
    intro k hk hkn
    simp at hk
    have := hne k hkn (by omega)
    simp [Function.update_of_ne this, h₅ k (by omega) hkn]
  all_goals grind [Pc.writes, Pc.writing]

/-- A step inside `dequeue` keeps the values. -/
theorem Spsc.dequeue_goto {p p' : DequeuePc n D} (h : Spsc q e (.dequeue p) f xs)
    (hm : Move (w := w) id q (.dequeue p) q' (.dequeue p')) : Spsc q' e (.dequeue p') f xs := by
  cases hm with
  | loadFront =>
    obtain ⟨h₁, h₂, h₃, h₄, h₅, h₆, h₇, h₈, h₉, h₁₀, h₁₁, h₁₂, h₁₃⟩ := h
    constructor <;> grind [Pc.reads, Pc.reading]
  | seen i hi =>
    have hfront := h.checkFront i rfl
    subst hfront
    have hne := h.ne_nil_of_set rfl hi
    obtain ⟨h₁, h₂, h₃, h₄, h₅, h₆, h₇, h₈, h₉, h₁₀, h₁₁, h₁₂, h₁₃⟩ := h
    constructor <;> grind [Pc.reads, Pc.reading]
  | lostFront i hne =>
    exact absurd (h.exchangeFront i rfl).1.symm hne
  | claim =>
    have hne := (h.exchangeFront q.front rfl).2
    have hfront : q.front = slot n f := h.front
    have hwrap : wrap q.front = slot n (f + 1) := by rw [hfront, wrap_slot]
    obtain ⟨h₁, h₂, h₃, h₄, h₅, h₆, h₇, h₈, h₉, h₁₀, h₁₁, h₁₂, h₁₃⟩ := h
    constructor <;> grind [Pc.reads, Pc.reading]
  | take i =>
    have hi := h.reading i rfl
    have hcont : Function.update q.cont i (id (q.cont i)) = q.cont :=
      Function.update_eq_self i q.cont
    rw [hcont]
    have hhead : xs.head? = some (q.cont i) := by
      obtain ⟨rfl, hne⟩ := hi
      cases xs with
      | nil => exact absurd rfl hne
      | cons x xs => simpa using (h.filled 0 x rfl).2.symm
    obtain ⟨h₁, h₂, h₃, h₄, h₅, h₆, h₇, h₈, h₉, h₁₀, h₁₁, h₁₂, h₁₃⟩ := h
    constructor <;> grind [Pc.reads, Pc.reading]

/-- `dequeue` succeeds: it returns the first value, and the others move up. -/
theorem Spsc.clear {v : D} {i : Fin n} (h : Spsc q e (.dequeue (.clear i v)) f xs) :
    ∃ ys, xs = v :: ys ∧
      Spsc { q with ptrs := Function.update q.ptrs i false } e .idle (f + 1) ys := by
  obtain ⟨hi, -⟩ := h.reading i rfl
  have hhead := h.taken v i rfl
  cases xs with
  | nil => cases hhead
  | cons x ys =>
    obtain rfl : x = v := Option.some.inj hhead
    refine ⟨ys, rfl, ?_⟩
    have hn : 0 < n := Nat.pos_of_neZero n
    have hroom : ys.length + 1 + e.writes ≤ n := h.room
    have hne : ∀ k, k + 1 < n → slot n (f + 1 + k) ≠ i := by
      intro k hk heq
      have := slot_inj (heq.trans hi) (by omega) (by omega)
      omega
    have hshift : f + (x :: ys).length = f + 1 + ys.length := by
      simp only [List.length_cons]
      omega
    obtain ⟨h₁, h₂, h₃, h₄, h₅, h₆, h₇, h₈, h₉, h₁₀, h₁₁, h₁₂, h₁₃⟩ := h
    rw [hshift] at h₂ h₆
    constructor
    case filled =>
      intro k y hk
      have hlt : k < ys.length := (List.getElem?_eq_some_iff.mp hk).1
      obtain ⟨hset, hy⟩ := h₄ (k + 1) y (by simpa using hk)
      rw [show f + (k + 1) = f + 1 + k by omega] at hset hy
      have := hne k (by omega)
      exact ⟨by simp [Function.update_of_ne this, hset], hy⟩
    case hollow =>
      intro k hk hkn
      -- the slot cleared is a lap ahead of the new front
      by_cases hlast : k + 1 = n
      · have : slot n (f + 1 + k) = i := by
          rw [show f + 1 + k = f + n by omega, slot_lap, hi]
        simp [this]
      · have hnull := h₅ (k + 1) (by simpa using hk) (by omega)
        rw [show f + (k + 1) = f + 1 + k by omega] at hnull
        have := hne k (by omega)
        simp [Function.update_of_ne this, hnull]
    all_goals grind [Pc.reads, Pc.reading]

end Vee.Lockfree.AtQueue
