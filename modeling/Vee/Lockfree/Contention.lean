import Vee.Lockfree.BlockOwnership
import Vee.Lockfree.Tickets
import Vee.Lockfree.WaitFree

/- What a call on a `queue` costs with any number of producers and consumers, and what its
   two spin loops wait for.

   A call wins two exchanges, one on each ring; each makes every other call take three
   steps more at most. What is left are the passes of `while(!_out_queue.enqueue(..))` and
   `while(!_cont_queue.enqueue(..))` that find the slot at `_rear` taken
   (`EnqueuePc.awaits`): apart from them the calls end (`spins_aside`). In clean runs a call
   that spins has a block for which its ring has room, since there is a block for each
   slot and no more (`room_for_block`). So the slot at `_rear` is one that another call has
   claimed, whose block it has still to take or whose pointer to clear (`spins_for_reader`). -/
namespace Vee.Lockfree

namespace AtQueue
open Circular

variable {w n : Nat} {D T : Type*} {moved : D → D} {q q' : AtQueue n D}

/-- The slot that the next step of a call finds taken, its copy of `_rear` being right. -/
def EnqueuePc.awaits (q : AtQueue n D) : EnqueuePc w n D → Option (Fin n)
  | check _ _ _ i => if q.rear = i ∧ q.ptrs i = true then some i else none
  | _ => none

theorem EnqueuePc.awaits_some {pc : EnqueuePc w n D} {i : Fin n} (h : pc.awaits q = some i) :
    (Pc.enqueue pc).writing = none ∧ q.rear = i ∧ q.ptrs i = true := by
  unfold awaits at h
  split at h
  · split at h
    · rename_i hall
      obtain rfl := Option.some.inj h
      exact ⟨rfl, hall⟩
    · cases h
  · cases h

/-- The steps that a call takes at most if it finds its slot free. -/
def EnqueuePc.ahead : EnqueuePc w n D → Nat
  | load .. => 5
  | check .. => 4
  | exchange .. => 3
  | store .. => 2
  | publish .. => 1

/-- The same, with those it takes to find its copy of `_rear` out of date. -/
def EnqueuePc.left (q : AtQueue n D) (pc : EnqueuePc w n D) : Nat :=
  pc.ahead + (Pc.enqueue pc).behind q

/-- A pass that finds its slot taken is one with an old copy of `_rear`, or it waits. -/
theorem EnqueuePc.left_taken {v : D} {r c : BitVec w} {i : Fin n} (hset : q.ptrs i = true) :
    6 ≤ EnqueuePc.left q (check v r c i) +
      2 * if ((check v r c i).awaits q).isSome then 1 else 0 := by
  by_cases hrear : q.rear = i
  · have hawaits : (check v r c i).awaits q = some i := if_pos ⟨hrear, hset⟩
    simp [hawaits, EnqueuePc.left, EnqueuePc.ahead]
  · have hstale : q.index .rear ≠ i := hrear
    simp only [EnqueuePc.left, EnqueuePc.ahead, Pc.behind, Pc.copy, if_neg hstale]
    omega

/-- A step of the call brings it nearer to its end, but for two where it waits. -/
theorem Move.put_own {pc pc' : EnqueuePc w n D}
    (h : Move moved q (.enqueue pc) q' (.enqueue pc')) :
    pc'.left q' + 1 ≤ pc.left q + 2 * if (pc.awaits q).isSome then 1 else 0 := by
  cases h with
  | retry v r c i hset =>
    have htaken := EnqueuePc.left_taken (v := v) (r := r) (c := c) hset
    have hload : (EnqueuePc.load v r (c + 1)).left q = 5 := rfl
    omega
  | lostRear v r c i hne =>
    have hstale : q.index .rear ≠ i := hne
    simp only [EnqueuePc.left, EnqueuePc.ahead, Pc.behind, Pc.copy, if_neg hstale]
    omega
  | loadRear | free | reserve =>
    simp only [EnqueuePc.left, EnqueuePc.ahead, Pc.behind, Pc.copy, index_rear, if_true]
    omega
  | store =>
    simp only [EnqueuePc.left, EnqueuePc.ahead, Pc.behind, Pc.copy]
    omega

/-- A step moves no index, or it is the last of its call's race. -/
theorem Move.race {p p' : Pc w n D} (h : Move moved q p q' p') :
    (∀ k, q'.index k = q.index k) ∧ p'.racing ≤ p.racing ∨ p'.racing + 1 ≤ p.racing := by
  obtain ⟨hracing, hwon⟩ := h.racing
  by_cases hwins : p.wins q = none
  · refine .inl ⟨?_, hracing⟩
    intro k
    apply h.index_same
    simp [hwins]
  · obtain ⟨hone, hzero⟩ := hwon hwins
    exact .inr (by omega)

theorem Pc.behind_same (hindex : ∀ k, q'.index k = q.index k) (p : Pc w n D) :
    p.behind q' = p.behind q := by
  unfold Pc.behind
  simp only [hindex]

section
variable [NeZero n] {pcs : T → Pc w n D} {drawn : List D} {f : Nat} {t : T} {p : Pc w n D}

/-- A ring whose clients do other things too. -/
theorem Tickets.client [DecidableEq T] (h : Tickets q pcs drawn f) (hc : Clean q pcs t)
    (hm : ClientStep moved q (pcs t) q' p) :
    ∃ drawn' f', Tickets q' (Function.update pcs t p) drawn' f' := by
  cases hm with
  | move hm => exact ⟨_, _, h.move hc hm⟩
  | away hq ht hp =>
    subst hq
    exact ⟨drawn, f, h.rest ht hp⟩

/-- While the ring has room for a ticket, a slot that is found taken has a reader. -/
theorem Tickets.read_of_awaits (h : Tickets q pcs drawn f) (hroom : drawn.length < f + n)
    {pc : EnqueuePc w n D} {i : Fin n} (hi : pc.awaits q = some i) : Read pcs i := by
  obtain ⟨-, hrear, hset⟩ := EnqueuePc.awaits_some hi
  rw [← hrear, h.rear] at hset ⊢
  rcases (h.hollow drawn.length (Nat.le_refl _) hroom).2 with hread | hnull
  · exact hread
  · rw [hset] at hnull
    cases hnull

/-- The tickets of a new ring. -/
theorem tickets_new [Inhabited D] (hidle : ∀ t, pcs t = .idle) :
    Tickets (AtQueue.init : AtQueue n D) pcs [] 0 := by
  constructor
  case slots => exact .init hidle
  all_goals simp [AtQueue.init, Written, Read, hidle, Pc.writing, Pc.reading]

/-- The tickets of a ring whose slots hold their numbers. -/
theorem tickets_full {pcs : T → Pc w n Nat} (hidle : ∀ t, pcs t = .idle) :
    Tickets (AtQueue.full : AtQueue n Nat) pcs (List.range n) 0 := by
  constructor
  case slots => exact .init hidle
  case value =>
    intro k _ hk _
    have hkn : k < n := by simpa using hk
    simp [AtQueue.full, hkn, Nat.mod_eq_of_lt hkn]
  all_goals simp [AtQueue.full, Written, Read, hidle, Pc.writing, Pc.reading]

end

end AtQueue

namespace Queue
open AtQueue Transition Circular Ownership

variable {w n : Nat} {D T : Type*} {moved : D → D}

/-- The slot at which the next step of a call only looks again. -/
def Pc.awaits (cont out : AtQueue n Nat) : Pc w n D → Option (Fin n)
  | putOut _ _ pc => pc.awaits out
  | putFree _ pc => pc.awaits cont
  | _ => none

/-- The exchanges that a call has still to win. -/
def Pc.racing : Pc w n D → Nat
  | idle => 0
  | takeFree _ _ _ _ pc | takeOut pc => (AtQueue.Pc.dequeue (w := w) pc).racing + 1
  | fill .. | drain _ => 1
  | putOut _ _ pc | putFree _ pc => (AtQueue.Pc.enqueue pc).racing

/-- The steps a call takes at most if it does not wait and no index moves. -/
def Pc.toGo (cont out : AtQueue n Nat) : Pc w n D → Nat
  | idle => 0
  | takeFree _ _ r c pc =>
    (AtQueue.Pc.dequeue (w := w) pc).left cont + 6 + 2 * (r.toNat - c.toNat)
  | fill .. | drain _ => 6
  | putOut _ _ pc => pc.left out
  | takeOut pc => (AtQueue.Pc.dequeue (w := w) pc).left out + 6
  | putFree _ pc => pc.left cont

/-- 1 for a step of a call. -/
def running (_ : System w n D T) : Action w D T → Nat
  | .run _ => 1
  | _ => 0

/-- 1 for a step by which a call only looks again. -/
def waiting (s : System w n D T) : Action w D T → Nat
  | .run t => if ((s.pcs t).awaits s.contQueue s.outQueue).isSome then 1 else 0
  | _ => 0

/-- The steps granted to a call when it starts. -/
def granted (delay : Nat) (_ : System w n D T) (a : Action w D T) : Nat :=
  match a.starts with
  | some _ => a.budget + 2 * delay
  | none => 0

/-- The steps to come of all calls, each with the `delay` that the exchanges it has still to
win cause the others. -/
def System.toCome [Fintype T] (delay : Nat) (s : System w n D T) : Nat :=
  ∑ t, ((s.pcs t).toGo s.contQueue s.outQueue + delay * (s.pcs t).racing)

/-! ## One step -/

theorem Pc.toGo_le (cont cont' out out' : AtQueue n Nat) (p : Pc w n D) :
    p.toGo cont' out' ≤ p.toGo cont out + 3 := by
  cases p with
  | idle | fill | drain => simp [toGo]
  | takeFree v rvalue r c pc =>
    have hle := AtQueue.Pc.left_le cont cont' (.dequeue (w := w) pc)
    simp only [toGo]
    omega
  | takeOut pc =>
    have hle := AtQueue.Pc.left_le out out' (.dequeue (w := w) pc)
    simp only [toGo]
    omega
  | putOut v left pc =>
    have hle := AtQueue.Pc.behind_le out' (.enqueue pc)
    simp only [toGo, EnqueuePc.left]
    omega
  | putFree v pc =>
    have hle := AtQueue.Pc.behind_le cont' (.enqueue pc)
    simp only [toGo, EnqueuePc.left]
    omega

theorem Pc.toGo_same {cont cont' out out' : AtQueue n Nat}
    (hcont : ∀ k, cont'.index k = cont.index k) (hout : ∀ k, out'.index k = out.index k)
    (p : Pc w n D) : p.toGo cont' out' = p.toGo cont out := by
  cases p <;>
    simp only [toGo, AtQueue.Pc.left, EnqueuePc.left, AtQueue.Pc.behind_same hcont,
      AtQueue.Pc.behind_same hout]

section
variable [DecidableEq T] {s s' : System w n D T} {a : Action w D T} {t : T}

/-- A step of a call brings it nearer to its end, but for two where it waits. -/
theorem Stepped.toGo_own (h : Stepped moved s (.run t) s') (hc : (s.pcs t).Counting) :
    (s'.pcs t).Counting ∧ (s'.pcs t).toGo s'.contQueue s'.outQueue + 1 ≤
      (s.pcs t).toGo s.contQueue s.outQueue + 2 * waiting s (.run t) := by
  cases h with
  | takeFree t v rvalue retries counter pc pc' q ht hm =>
    obtain ⟨-, hleft⟩ := hm.left_own trivial
    rw [ht] at hc ⊢
    simp only [System.setPc, Function.update_self]
    refine ⟨hc, ?_⟩
    simp only [Pc.toGo]
    omega
  | noneFree t v rvalue retries counter i ht hnull hle =>
    rw [ht] at hc ⊢
    obtain ⟨hcr, hr⟩ := hc
    have hnext := counter_next hcr hr
    have hle' : (counter + 1).toNat ≤ retries.toNat := hle
    simp only [System.setPc, Function.update_self]
    refine ⟨⟨hle, hr⟩, ?_⟩
    simp only [Pc.toGo, AtQueue.Pc.left, AtQueue.Pc.ahead, AtQueue.Pc.behind, AtQueue.Pc.copy,
      hnext]
    omega
  | takeOut t pc pc' q ht hm =>
    obtain ⟨-, hleft⟩ := hm.left_own trivial
    rw [ht]
    simp only [System.setPc, Function.update_self]
    refine ⟨trivial, ?_⟩
    simp only [Pc.toGo]
    omega
  | putOut t v left pc pc' q ht hm | putFree t out pc pc' q ht hm =>
    have hput := hm.put_own
    simp only [waiting, ht]
    simp only [System.setPc, Function.update_self]
    exact ⟨trivial, hput⟩
  | outFull t v left b r c i ht hset | contFull t out b r c i ht hset =>
    have htaken := EnqueuePc.left_taken (v := b) (r := r) (c := c) hset
    simp only [waiting, ht]
    simp only [System.setPc, Function.update_self]
    exact ⟨trivial, htaken⟩
  | refused t v rvalue retries counter i ht | gotFree t v rvalue retries counter i b ht =>
    rw [ht]
    simp only [System.setPc, System.emit, Function.update_self]
    refine ⟨trivial, ?_⟩
    simp only [Pc.toGo, AtQueue.Pc.left, AtQueue.Pc.ahead]
    omega
  | fill t v rvalue b ht | enqueued t v left b i ht | noneOut t i ht | gotOut t i b ht
  | drain t b ht | dequeued t out b i ht =>
    rw [ht]
    simp only [System.setPc, System.emit, Function.update_self]
    refine ⟨trivial, ?_⟩
    simp only [Pc.toGo, AtQueue.Pc.left, AtQueue.Pc.ahead, EnqueuePc.left, EnqueuePc.ahead,
      EnqueuePc.start, AtQueue.Pc.behind, AtQueue.Pc.copy]
    omega

/-- A step moves no index, or its call has an exchange less to win. -/
theorem Stepped.race (h : Stepped moved s (.run t) s') :
    (∀ k, s'.contQueue.index k = s.contQueue.index k) ∧
        (∀ k, s'.outQueue.index k = s.outQueue.index k) ∧
        (s'.pcs t).racing ≤ (s.pcs t).racing ∨
      (s'.pcs t).racing + 1 ≤ (s.pcs t).racing := by
  cases h with
  | takeFree t v rvalue retries counter pc pc' q ht hm | takeOut t pc pc' q ht hm
  | putOut t v left pc pc' q ht hm | putFree t out pc pc' q ht hm =>
    have hrace := hm.race
    simp only [ht, System.setPc, Function.update_self, Pc.racing]
    rcases hrace with ⟨hindex, hle⟩ | hlt
    · exact .inl (by simp [hindex]; omega)
    · exact .inr (by omega)
  | _ =>
    refine .inl ⟨fun k => ?_, fun k => ?_, ?_⟩
    · cases k <;> rfl
    · cases k <;> rfl
    · simp_all [System.setPc, System.emit, Pc.racing, AtQueue.Pc.racing, EnqueuePc.start]

/-- What a step of a call costs is paid for, but for two where it waits: who wins an exchange
pays for the steps that costs the other calls. -/
theorem System.toCome_run [Fintype T] (hc : (s.pcs t).Counting)
    (h : Stepped moved s (.run t) s') :
    s'.toCome (3 * (Fintype.card T - 1)) + 1 ≤
      s.toCome (3 * (Fintype.card T - 1)) + 2 * waiting s (.run t) := by
  obtain ⟨p, hpcs⟩ := h.pcs
  have hother : ∀ u, u ≠ t → s'.pcs u = s.pcs u := by
    intro u hu
    rw [hpcs]
    exact Function.update_of_ne hu ..
  unfold toCome
  refine sum_race_le (t := t) ?_ (h.toGo_own hc).2 ?_
  · intro u hu
    rw [hother u hu]
  · rcases h.race with ⟨hcont, hout, hle⟩ | hlt
    · refine .inl ⟨?_, hle⟩
      intro u hu
      rw [hother u hu, Pc.toGo_same hcont hout]
    · refine .inr ⟨?_, hlt⟩
      intro u hu
      rw [hother u hu]
      exact Pc.toGo_le ..

/-- A call that starts has its steps granted. -/
theorem System.toCome_start [Fintype T] (delay : Nat) (ha : a.starts = some t) (hc : a.Counting)
    (h : Stepped moved s a s') :
    (s'.pcs t).Counting ∧ s'.toCome delay ≤ s.toCome delay + (a.budget + 2 * delay) := by
  have hstart : s.pcs t = .idle ∧ (s'.pcs t).Counting ∧
      (s'.pcs t).toGo s.contQueue s.outQueue = a.budget ∧ (s'.pcs t).racing = 2 ∧
      s'.contQueue = s.contQueue ∧ s'.outQueue = s.outQueue ∧ ∀ u, u ≠ t → s'.pcs u = s.pcs u := by
    cases h with
    | callEnqueue u v rvalue retries ht =>
      cases ha
      have hpc : (s.emit t (.takeFree v rvalue retries 0 .load) (.callEnqueue t v rvalue)).pcs t =
        .takeFree v rvalue retries 0 .load := Function.update_self ..
      rw [hpc]
      refine ⟨ht, ⟨Nat.zero_le _, hc⟩, ?_, rfl, rfl, rfl, fun u hu => Function.update_of_ne hu ..⟩
      simp [Pc.toGo, AtQueue.Pc.left, AtQueue.Pc.ahead, AtQueue.Pc.behind, AtQueue.Pc.copy,
        Action.budget]
    | callDequeue u ht =>
      cases ha
      have hpc : (s.emit t (.takeOut .load) (.callDequeue t)).pcs t = .takeOut .load :=
        Function.update_self ..
      rw [hpc]
      exact ⟨ht, trivial, rfl, rfl, rfl, rfl, fun u hu => Function.update_of_ne hu ..⟩
    | _ => cases ha
  obtain ⟨hidle, hcount, hgo, hracing, hcont, hout, hother⟩ := hstart
  refine ⟨hcount, ?_⟩
  have hsum := sum_update_le
    (f := fun u => (s.pcs u).toGo s.contQueue s.outQueue + delay * (s.pcs u).racing)
    (g := fun u => (s'.pcs u).toGo s'.contQueue s'.outQueue + delay * (s'.pcs u).racing)
    (t := t) (k := 0) ?_
  · simp only [hcont, hout, hidle, hgo, hracing] at hsum
    unfold toCome
    simp only [hcont, hout]
    omega
  · intro u hu
    simp only [hcont, hout, hother u hu]
    omega

theorem System.step_granted [Fintype T] (hI : ∀ u, (s.pcs u).Counting) (ha : a.Counting)
    (h : s.step moved a = some s') :
    (∀ u, (s'.pcs u).Counting) ∧
      s'.toCome (3 * (Fintype.card T - 1)) + running s a ≤ s.toCome (3 * (Fintype.card T - 1)) +
        (granted (3 * (Fintype.card T - 1)) s a + 2 * waiting s a) := by
  have hstep := System.step_cases h
  obtain ⟨p, hpcs⟩ := hstep.pcs
  have hall : (s'.pcs a.thread).Counting → ∀ u, (s'.pcs u).Counting := by
    intro hmine u
    by_cases hu : u = a.thread
    · exact hu ▸ hmine
    · rw [hpcs, Function.update_of_ne hu]
      exact hI u
  cases a with
  | enqueue t v rvalue retries =>
    obtain ⟨hcount, hle⟩ := toCome_start (3 * (Fintype.card T - 1)) rfl ha hstep
    exact ⟨hall hcount, hle⟩
  | dequeue t =>
    obtain ⟨hcount, hle⟩ := toCome_start (3 * (Fintype.card T - 1)) rfl ha hstep
    exact ⟨hall hcount, hle⟩
  | run t =>
    have hrun := toCome_run (hI t) hstep
    refine ⟨hall (hstep.toGo_own (hI t)).1, ?_⟩
    simp only [granted, Action.starts, running]
    omega

/-! ## Room for a block -/

/-- Who holds a slot's block: the slot itself, or the call that has reserved it. -/
def Holds (pcs : T → AtQueue.Pc w n Nat) (slotOf : Fin n → Owner n T) (i : Fin n)
    (x : Owner n T) : Prop :=
  x = slotOf i ∨ ∃ u, x = .call u ∧ (pcs u).writing = some i

section
variable {pcs : T → AtQueue.Pc w n Nat} {slotOf : Fin n → Owner n T}

omit [DecidableEq T] in
/-- Nobody holds the blocks of two slots. -/
theorem Holds.injective (hinj : Function.Injective slotOf) (hne : ∀ i u, slotOf i ≠ .call u)
    {x : Fin n → Owner n T} (hx : ∀ i, Holds pcs slotOf i (x i)) : Function.Injective x := by
  intro i j hij
  have hi := hx i
  rw [hij] at hi
  rcases hi with hi | ⟨u, hi, hui⟩
  · rcases hx j with hj | ⟨v, hj, -⟩
    · exact hinj (hi.symm.trans hj)
    · exact absurd (hi.symm.trans hj) (hne i v)
  · rcases hx j with hj | ⟨v, hj, hvj⟩
    · exact absurd (hj.symm.trans hi) (hne j u)
    · obtain rfl : u = v := Owner.call.inj (hi.symm.trans hj)
      exact Option.some.inj (hui.symm.trans hvj)

variable [NeZero n] {q : AtQueue n Nat} {drawn : List Nat} {f : Nat}

omit [DecidableEq T] in
/-- In a ring with no room each slot has a holder. -/
theorem holder_of_full (h : Tickets q pcs drawn f) (hlen : drawn.length = f + n)
    (hslot : ∀ i b, SlotHas q pcs i b → s.Owns (slotOf i) b)
    (hcall : ∀ u i, (pcs u).writing = some i → ∃ b, (s.pcs u).block = some b) (i : Fin n) :
    ∃ x, (∃ b, s.Owns x b) ∧ Holds pcs slotOf i x := by
  obtain ⟨k, hfk, hk, rfl⟩ := slot_window f i
  obtain ⟨hread, ⟨u, hu⟩ | hset⟩ := h.filled k hfk (by omega)
  · obtain ⟨c, hc⟩ := hcall u _ hu
    exact ⟨.call u, ⟨c, hc⟩, .inr ⟨u, rfl, hu⟩⟩
  · refine ⟨slotOf (slot n k), ⟨_, hslot _ _ ⟨hset, rfl, ?_⟩⟩, .inl rfl⟩
    intro u hu
    exact hread ⟨u, AtQueue.Pc.emptied_reading hu⟩

omit [DecidableEq T] in
/-- A call that has a block and no slot for it yet finds room in its ring: the tickets that
have not been taken are for other blocks. -/
theorem room_for_block (h : Tickets q pcs drawn f) (hown : OwnedOnce (· < n) s.Owns)
    (hinj : Function.Injective slotOf) (hne : ∀ i u, slotOf i ≠ .call u)
    (hslot : ∀ i b, SlotHas q pcs i b → s.Owns (slotOf i) b)
    (hcall : ∀ u i, (pcs u).writing = some i → ∃ b, (s.pcs u).block = some b) {b : Nat}
    (ht : (s.pcs t).block = some b) (hfree : (pcs t).writing = none) : drawn.length < f + n := by
  by_contra hfull
  have hahead := h.ahead
  -- with the call's own, there are more blocks than the ring has slots
  choose x hx hholds using holder_of_full h (by omega) hslot hcall
  have hmine : s.Owns (.call t) b := ht
  obtain ⟨i, hi⟩ := hown.all_held (Holds.injective hinj hne hholds) hx hmine
  rcases hholds i with hs | ⟨u, hu, hwriting⟩
  · exact hne i t (hs.symm.trans hi.symm)
  · obtain rfl : t = u := Owner.call.inj (hi.trans hu)
    rw [hfree] at hwriting
    cases hwriting

end

/-- The tickets of both rings are in order. -/
structure Ticketed [NeZero n] (s : System w n D T) : Prop where
  owned : Owned s
  cont : ∃ drawn f, Tickets s.contQueue s.onCont drawn f
  out : ∃ drawn f, Tickets s.outQueue s.onOut drawn f

theorem Ticketed.step [NeZero n] (h : Ticketed s) (hc : s.Clean a)
    (hs : s.step moved a = some s') : Ticketed s' := by
  have hstep := System.step_cases hs
  obtain ⟨hcleanCont, hcleanOut⟩ := hstep.clean hc
  obtain ⟨p, hp⟩ := hstep.pcs
  refine ⟨h.owned.step hc hs, ?_, ?_⟩
  · obtain ⟨drawn, f, htickets⟩ := h.cont
    rw [onCont_update hp]
    apply htickets.client hcleanCont
    simpa [onCont_update hp] using hstep.cont
  · obtain ⟨drawn, f, htickets⟩ := h.out
    rw [onOut_update hp]
    apply htickets.client hcleanOut
    simpa [onOut_update hp] using hstep.out

omit [DecidableEq T] in
theorem ticketed_init [NeZero n] [Inhabited D] : Ticketed (System.init : System w n D T) where
  owned := ⟨System.slots_init, owned_init⟩
  cont := ⟨List.range n, 0, tickets_full fun _ => rfl⟩
  out := ⟨[], 0, tickets_new fun _ => rfl⟩

omit [DecidableEq T] in
/-- A producer spins before a slot that another call has claimed. -/
theorem Ticketed.reader_out [NeZero n] (h : Ticketed s) {v left : D}
    {pc : EnqueuePc w n Nat} (ht : s.pcs t = .putOut v left pc) {i : Fin n}
    (hi : pc.awaits s.outQueue = some i) : Read s.onOut i := by
  obtain ⟨drawn, f, htickets⟩ := h.out
  have hblock : (s.pcs t).block = some pc.value := by rw [ht]; rfl
  have hfree : (s.onOut t).writing = none := by
    rw [System.onOut, ht]
    exact (EnqueuePc.awaits_some hi).1
  refine htickets.read_of_awaits ?_ hi
  exact room_for_block htickets h.owned.once (fun _ _ => Owner.outSlot.inj) (by simp)
    (fun _ _ => id) (fun _ _ hu => Pc.block_of_writing (.inr hu)) hblock hfree

omit [DecidableEq T] in
/-- A consumer that gives its block back does so too. -/
theorem Ticketed.reader_cont [NeZero n] (h : Ticketed s) {out : D} {pc : EnqueuePc w n Nat}
    (ht : s.pcs t = .putFree out pc) {i : Fin n} (hi : pc.awaits s.contQueue = some i) :
    Read s.onCont i := by
  obtain ⟨drawn, f, htickets⟩ := h.cont
  have hblock : (s.pcs t).block = some pc.value := by rw [ht]; rfl
  have hfree : (s.onCont t).writing = none := by
    rw [System.onCont, ht]
    exact (EnqueuePc.awaits_some hi).1
  refine htickets.read_of_awaits ?_ hi
  exact room_for_block htickets h.owned.once (fun _ _ => Owner.freeSlot.inj) (by simp)
    (fun _ _ => id) (fun _ _ hu => Pc.block_of_writing (.inl hu)) hblock hfree

/-! ## Runs -/

/-- **Apart from spinning, the calls end.** However the calls of producers and consumers
interleave, they take no more steps together than a bound for each call that was started
(eleven, two for each of its retries, and six for each other thread), and two for each step
at which one of them finds the slot at `_rear` taken. -/
theorem spins_aside [Fintype T] [NeZero n] [Inhabited D]
    {tr : List (System w n D T × Action w D T)} (h : Run (System.step moved) System.init tr s)
    (hc : Meets (fun _ => Action.Counting) tr) :
    total running tr ≤
      total (granted (3 * (Fintype.card T - 1))) tr + 2 * total waiting tr := by
  have hzero : (System.init : System w n D T).toCome (3 * (Fintype.card T - 1)) = 0 := by
    apply Finset.sum_eq_zero
    intro t _
    rfl
  have hcharge := Run.charge (C := fun _ a => a.Counting) (I := fun s => ∀ u, (s.pcs u).Counting)
    (System.toCome (3 * (Fintype.card T - 1))) running
    (fun s a => granted (3 * (Fintype.card T - 1)) s a + 2 * waiting s a) (fun _ => trivial)
    (fun _ _ _ hI ha hs => (System.step_granted hI ha hs).1)
    (fun _ _ _ hI ha hs => (System.step_granted hI ha hs).2) h hc
  rw [total_add, total_mul] at hcharge
  omega

/-- **Whom the spin loops wait for.** In every state of a clean run, a producer that spins does
so before a slot of `_out_queue` that a consumer has claimed and not yet cleared, a consumer
before a slot of `_cont_queue` that a producer has. -/
theorem spins_for_reader [NeZero n] [Inhabited D] {tr : List (System w n D T × Action w D T)}
    (h : Run (System.step moved) System.init tr s) (hc : Meets System.Clean tr) {i : Fin n}
    (ht : (s.pcs t).awaits s.contQueue s.outQueue = some i) :
    (s.pcs t).side = some .producer ∧
        (∃ u, (s.pcs u).side = some .consumer ∧ (s.onOut u).reading = some i) ∨
      (s.pcs t).side = some .consumer ∧
        ∃ u, (s.pcs u).side = some .producer ∧ (s.onCont u).reading = some i := by
  have hticketed : Ticketed s := h.invariant ticketed_init (fun _ _ _ hI ha hs => hI.step ha hs) hc
  cases hpc : s.pcs t with
  | putOut v left pc =>
    rw [hpc] at ht
    obtain ⟨u, hu⟩ := hticketed.reader_out hpc ht
    exact .inl ⟨rfl, u, Pc.side_of_reading_out hu, hu⟩
  | putFree out pc =>
    rw [hpc] at ht
    obtain ⟨u, hu⟩ := hticketed.reader_cont hpc ht
    exact .inr ⟨rfl, u, Pc.side_of_reading_cont hu, hu⟩
  | _ =>
    rw [hpc] at ht
    cases ht

/-- Capacity 2, both slots of `_out_queue` full: one consumer has claimed the first slot and
stops, another takes the second value and gives its block back, and a producer comes round with
that block to the first slot. -/
def comesRound : List (Action 64 Nat Bool) :=
  call (.enqueue false 7 false 0) false 11 ++ call (.enqueue false 8 false 0) false 11 ++
    call (.dequeue true) true 3 ++ call (.dequeue false) false 11 ++
    call (.enqueue false 9 false 0) false 7

theorem spins_for_reader_round : ∃ (tr : _) (s : System 64 2 Nat Bool),
    Run (System.step id) System.init tr s ∧ tr.map Prod.snd = comesRound ∧
      (s.pcs false).awaits s.contQueue s.outQueue = some 0 ∧
      ∃ u, (s.pcs u).side = some .consumer ∧ (s.onOut u).reading = some 0 := by
  have hrun : ∃ (tr : _) (s : System 64 2 Nat Bool), Run (System.step id) System.init tr s ∧
      Meets System.Clean tr ∧ tr.map Prod.snd = comesRound ∧
      (s.pcs false).awaits s.contQueue s.outQueue = some 0 ∧
      (s.pcs false).side = some .producer :=
    Run.of_execMeets_any _ (by decide)
  obtain ⟨tr, s, hr, hc, ha, hawaits, hside⟩ := hrun
  rcases spins_for_reader hr hc hawaits with ⟨-, hreader⟩ | ⟨hother, -⟩
  · exact ⟨tr, s, hr, ha, hawaits, hreader⟩
  · rw [hside] at hother
    cases hother

/-- The producer looks twice before the consumer goes on. -/
theorem spins_aside_round : ∃ (tr : _) (s : System 64 2 Nat Bool),
    Run (System.step id) System.init tr s ∧
      tr.map Prod.snd = comesRound ++ List.replicate 3 (.run false) ++
        List.replicate 8 (.run true) ++ List.replicate 5 (.run false) ∧ (∀ t, s.pcs t = .idle) ∧
      total running tr ≤ total (granted 3) tr + 2 * total waiting tr := by
  have hrun : ∃ (tr : _) (s : System 64 2 Nat Bool), Run (System.step id) System.init tr s ∧
      Meets (fun _ => Action.Counting) tr ∧
      tr.map Prod.snd = comesRound ++ List.replicate 3 (.run false) ++
        List.replicate 8 (.run true) ++ List.replicate 5 (.run false) ∧
      ∀ t, s.pcs t = .idle :=
    Run.of_execMeets_any _ (by decide)
  obtain ⟨tr, s, hr, hc, ha, hidle⟩ := hrun
  exact ⟨tr, s, hr, ha, hidle, spins_aside hr hc⟩

end

end Queue

end Vee.Lockfree
