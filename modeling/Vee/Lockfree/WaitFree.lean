import Vee.Lockfree.Progress
import Vee.Lockfree.SingleProducer

/- With one producer and one consumer no call on `queue` ever waits for the other side.

   Neither side's exchanges meet an index that has moved, since it alone moves it
   (`Spsc.behind_enqueuer`, `Spsc.behind_dequeuer`), and a side that holds a block finds
   the slot it puts it in null, since there are fewer than `capacity` blocks in the other
   ring (`Pipeline.out_null`, `Pipeline.cont_null`). So `while(!_out_queue.enqueue(..))`
   and `while(!_cont_queue.enqueue(..))` never come round, and a call takes a number of
   its own steps that depends on `retries` only, whatever the other side is doing and
   wherever it has stopped (`spsc_wait_free`). -/
namespace Vee.Lockfree

namespace AtQueue
open Circular

variable {w n : Nat} {D : Type*} [NeZero n] {q q' : AtQueue n D} {e d p p' : Pc w n D} {f : Nat}
  {xs : List D}

/-- The enqueuer's copy of `_rear` is right. -/
theorem Spsc.behind_enqueuer (h : Spsc q e d f xs) (he : e.index ≠ some .front) :
    e.behind q = 0 := by
  cases e with
  | idle => rfl
  | dequeue pc => exact absurd rfl he
  | enqueue pc =>
    cases pc with
    | load | store | publish => rfl
    | check v r c i =>
      obtain rfl := h.checkRear v r c i rfl
      simp [Pc.behind, Pc.copy]
    | exchange v r c i =>
      obtain ⟨rfl, -⟩ := h.exchangeRear v r c i rfl
      simp [Pc.behind, Pc.copy]

/-- The dequeuer's copy of `_front` is right. -/
theorem Spsc.behind_dequeuer (h : Spsc q e d f xs) (hd : d.index ≠ some .rear) :
    d.behind q = 0 := by
  cases d with
  | idle => rfl
  | enqueue pc => exact absurd rfl hd
  | dequeue pc =>
    cases pc with
    | load | take | clear => rfl
    | check i =>
      obtain rfl := h.checkFront i rfl
      simp [Pc.behind, Pc.copy]
    | exchange i =>
      obtain ⟨rfl, -⟩ := h.exchangeFront i rfl
      simp [Pc.behind, Pc.copy]

/-- While there are fewer values than slots the enqueuer's check finds its slot null. -/
theorem Spsc.null_of_room (h : Spsc q e d f xs) {v : D} {r c : BitVec w} {i : Fin n}
    (he : e = .enqueue (.check v r c i)) (hroom : xs.length < n) : q.ptrs i = false := by
  subst he
  have hrear : q.rear = slot n (f + xs.length) := h.rear
  obtain rfl := h.checkRear v r c i rfl
  rw [hrear]
  exact h.hollow xs.length (Nat.le_refl _) hroom

omit [NeZero n] in
/-- A step that finds its index where it was, and its slot null in `enqueue`, is a step ahead. -/
theorem Move.ahead_own (h : Move id q p q' p') (hbehind : p.behind q = 0)
    (hnull : ∀ v r c i, p = .enqueue (.check v r c i) → q.ptrs i = false) :
    p'.ahead + 1 ≤ p.ahead := by
  cases h with
  | retry v r c i hi | full v r c i hi =>
    rw [hnull v r c i rfl] at hi
    cases hi
  | lostRear v r c i hne => simp [Pc.behind, Pc.copy, hne] at hbehind
  | lostFront i hne => simp [Pc.behind, Pc.copy, hne] at hbehind
  | loadRear | free | reserve =>
    simp only [Pc.ahead]
    omega
  | _ => simp [Pc.ahead]

end AtQueue

namespace Queue
open AtQueue Transition Circular

variable {w n : Nat} {D : Type*}

/-- The steps a call takes at most from here on. -/
def Pc.left : Pc w n D → Nat
  | idle => 0
  | takeFree _ _ r c pc => (AtQueue.Pc.dequeue (w := w) pc).ahead + 6 + 2 * (r.toNat - c.toNat)
  | fill .. => 6
  | putOut _ _ pc => (AtQueue.Pc.enqueue pc).ahead
  | takeOut pc => (AtQueue.Pc.dequeue (w := w) pc).ahead + 6
  | drain _ => 6
  | putFree _ pc => (AtQueue.Pc.enqueue pc).ahead

/-- The loop of `enqueue` has a last pass. -/
def Pc.Counting : Pc w n D → Prop
  | takeFree _ _ r c _ => c ≤ r ∧ r.toNat + 1 < 2 ^ w
  | _ => True

variable [NeZero n] {moved : D → D} {s s' : System w n D Side} {f g : Nat} {free used : List Nat}

/-- The producer finds room in `_out_queue` for the block it holds. -/
theorem Pipeline.out_null (h : Pipeline s f g free used) {t : Side} {v left : D} {b : Nat}
    {r c : BitVec w} {i : Fin n} (ht : s.pcs t = .putOut v left (.check b r c i)) :
    s.outQueue.ptrs i = false := by
  obtain rfl := h.at_producer ht rfl
  have hcount := h.count
  simp only [ht, Pc.held, List.length_singleton] at hcount
  exact h.out.null_of_room (by rw [System.onOut, ht]; rfl) (by omega)

/-- The consumer finds room in `_cont_queue` for the block it gives back. -/
theorem Pipeline.cont_null (h : Pipeline s f g free used) {t : Side} {out : D} {b : Nat}
    {r c : BitVec w} {i : Fin n} (ht : s.pcs t = .putFree out (.check b r c i)) :
    s.contQueue.ptrs i = false := by
  obtain rfl := h.at_consumer ht rfl
  have hcount := h.count
  simp only [ht, Pc.held, List.length_singleton] at hcount
  exact h.cont.null_of_room (by rw [System.onCont, ht]; rfl) (by omega)

/-- Every step of a call brings it nearer to its end. -/
theorem Pipeline.left_own (h : Pipeline s f g free used) {t : Side} (hc : (s.pcs t).Counting)
    (hs : Stepped moved s (.run t) s') :
    (s'.pcs t).Counting ∧ (s'.pcs t).left + 1 ≤ (s.pcs t).left := by
  have hcont := h.cont
  have hout := h.out
  cases hs with
  | takeFree t v rvalue retries counter pc pc' q ht hm =>
    obtain rfl := h.at_producer ht rfl
    have hfresh := hcont.behind_dequeuer (by simp [System.onCont, ht, Pc.onCont, AtQueue.Pc.index])
    rw [System.onCont, ht] at hfresh
    have hahead := hm.ahead_own hfresh (by simp)
    rw [ht] at hc ⊢
    simp only [System.setPc, Function.update_self]
    refine ⟨hc, ?_⟩
    simp only [Pc.left]
    omega
  | noneFree t v rvalue retries counter i ht hnull hle =>
    rw [ht] at hc ⊢
    obtain ⟨hcr, hr⟩ := hc
    have hnext := counter_next hcr hr
    have hle' : (counter + 1).toNat ≤ retries.toNat := hle
    simp only [System.setPc, Function.update_self]
    refine ⟨⟨hle, hr⟩, ?_⟩
    simp only [Pc.left, AtQueue.Pc.ahead, hnext]
    omega
  | putOut t v left pc pc' q ht hm =>
    obtain rfl := h.at_producer ht rfl
    have hfresh := hout.behind_enqueuer (by simp [System.onOut, ht, Pc.onOut, AtQueue.Pc.index])
    rw [System.onOut, ht] at hfresh
    have hahead := hm.ahead_own hfresh (by
      intro b r c i heq
      cases heq
      exact h.out_null ht)
    rw [ht]
    simp only [System.setPc, Function.update_self]
    exact ⟨trivial, hahead⟩
  | outFull t v left b r c i ht hset =>
    rw [h.out_null ht] at hset
    cases hset
  | takeOut t pc pc' q ht hm =>
    obtain rfl := h.at_consumer ht rfl
    have hfresh := hout.behind_dequeuer (by simp [System.onOut, ht, Pc.onOut, AtQueue.Pc.index])
    rw [System.onOut, ht] at hfresh
    have hahead := hm.ahead_own hfresh (by simp)
    rw [ht]
    simp only [System.setPc, Function.update_self]
    refine ⟨trivial, ?_⟩
    simp only [Pc.left]
    omega
  | putFree t out pc pc' q ht hm =>
    obtain rfl := h.at_consumer ht rfl
    have hfresh := hcont.behind_enqueuer (by simp [System.onCont, ht, Pc.onCont, AtQueue.Pc.index])
    rw [System.onCont, ht] at hfresh
    have hahead := hm.ahead_own hfresh (by
      intro b r c i heq
      cases heq
      exact h.cont_null ht)
    rw [ht]
    simp only [System.setPc, Function.update_self]
    exact ⟨trivial, hahead⟩
  | contFull t out b r c i ht hset =>
    rw [h.cont_null ht] at hset
    cases hset
  | refused t v rvalue retries counter i ht | gotFree t v rvalue retries counter i b ht =>
    rw [ht]
    simp only [System.setPc, System.emit, Function.update_self]
    refine ⟨trivial, ?_⟩
    simp only [Pc.left, AtQueue.Pc.ahead]
    omega
  | fill t v rvalue b ht | enqueued t v left b i ht | noneOut t i ht | gotOut t i b ht
  | drain t b ht | dequeued t out b i ht =>
    rw [ht]
    simp [System.setPc, System.emit, Pc.Counting, Pc.left, AtQueue.Pc.ahead, EnqueuePc.start]

/-! ## The calls of a run -/

/-- The thread whose call the action starts. -/
def Action.starts {T : Type*} : Action w D T → Option T
  | .enqueue t _ _ _ | .dequeue t => some t
  | .run _ => none

/-- The steps of a call at most. -/
def Action.budget {T : Type*} : Action w D T → Nat
  | .enqueue _ _ _ retries => 11 + 2 * retries.toNat
  | .dequeue _ => 11
  | .run _ => 0

/-- The loop that the call enters has a last pass. -/
def Action.Counting {T : Type*} : Action w D T → Prop
  | .enqueue _ _ _ retries => retries.toNat + 1 < 2 ^ w
  | .dequeue _ | .run _ => True

instance {T : Type*} : ∀ a : Action w D T, Decidable a.Counting
  | .enqueue _ _ _ retries => inferInstanceAs (Decidable (retries.toNat + 1 < 2 ^ w))
  | .dequeue _ | .run _ => isTrue trivial

/-- 1 for a step of the thread's call. -/
def runningOf {T : Type*} [DecidableEq T] (t : T) (_ : System w n D T) : Action w D T → Nat
  | .run u => if u = t then 1 else 0
  | _ => 0

/-- Nobody finds a slot taken that it has a block for. -/
def System.Roomy {T : Type*} (s : System w n D T) : Prop :=
  (∀ t v left b r c i, s.pcs t = .putOut v left (.check b r c i) → s.outQueue.ptrs i = false) ∧
    ∀ t out b r c i, s.pcs t = .putFree out (.check b r c i) → s.contQueue.ptrs i = false

theorem Simulates.roomy {c : Linearizability.Config (List D) Side (Op D) (Result D)}
    (h : Simulates moved s c) : s.Roomy := by
  obtain ⟨f, g, free, used, hp, -⟩ := h
  exact ⟨fun _ _ _ _ _ _ _ ht => hp.out_null ht, fun _ _ _ _ _ _ ht => hp.cont_null ht⟩

omit [NeZero n] in
theorem step_start {s s' : System w n D Side} {a : Action w D Side} {t : Side}
    (ha : a.starts = some t) (hc : a.Counting) (h : Stepped moved s a s') :
    (s'.pcs t).Counting ∧ (s'.pcs t).left = a.budget := by
  cases h with
  | callEnqueue u v rvalue retries =>
    cases ha
    simp only [System.emit, Function.update_self]
    refine ⟨⟨Nat.zero_le _, hc⟩, ?_⟩
    simp [Pc.left, AtQueue.Pc.ahead, Action.budget]
  | callDequeue u =>
    cases ha
    simp [System.emit, Pc.Counting, Pc.left, AtQueue.Pc.ahead, Action.budget]
  | _ => cases ha

/-- The state is one of a FIFO's runs, and the call of the thread is getting on. -/
def System.InCall (moved : D → D) (s : System w n D Side) (t : Side) : Prop :=
  (∃ c, Simulates moved s c) ∧ (s.pcs t).Counting

theorem System.InCall.step {b : Action w D Side} {t : Side} (hI : s.InCall moved t)
    (hrole : b.InRole) (hown : b.starts ≠ some t) (h : s.step moved b = some s') :
    s'.InCall moved t ∧ (s'.pcs t).left + runningOf t s b ≤ (s.pcs t).left := by
  obtain ⟨⟨c, hsim⟩, hcount⟩ := hI
  obtain ⟨new, c', -, -, hsim'⟩ := hsim.step hrole h
  have hs := System.step_cases h
  by_cases hb : b = .run t
  · subst hb
    obtain ⟨f, g, free, used, hp, -⟩ := hsim
    obtain ⟨hcount', hleft⟩ := hp.left_own hcount hs
    refine ⟨⟨⟨c', hsim'⟩, hcount'⟩, ?_⟩
    simpa [runningOf] using hleft
  · have hthread : b.thread ≠ t := by
      cases b <;> simp_all [Action.thread, Action.starts]
    obtain ⟨p, hp⟩ := hs.pcs
    have hsame : s'.pcs t = s.pcs t := by rw [hp, Function.update_of_ne hthread.symm]
    have hcost : runningOf t s b = 0 := by
      cases b with
      | run u => simp_all [runningOf]
      | enqueue | dequeue => rfl
    rw [System.InCall, hsame, hcost]
    exact ⟨⟨⟨c', hsim'⟩, hcount⟩, Nat.le_refl _⟩

/-- **No waiting with one producer and one consumer.** In every run, at any interleaving,
a call takes at most eleven steps of its own thread, and two more for each retry; and no
inner `enqueue` is ever refused. -/
theorem spsc_wait_free [Inhabited D] {x : System w n D Side} {a : Action w D Side} {t : Side}
    {before during : List (System w n D Side × Action w D Side)}
    (h : Run (System.step moved) System.init (before ++ (x, a) :: during) s)
    (hrole : Meets (fun _ => Action.InRole) (before ++ (x, a) :: during))
    (ha : a.starts = some t) (hc : a.Counting)
    (hown : Meets (fun _ b => b.starts ≠ some t) during) :
    total (runningOf t) during ≤ a.budget ∧
      ∀ y ∈ visited (before ++ (x, a) :: during) s, y.Roomy := by
  have hkeep : ∀ (s : System w n D Side) a s', (∃ c, Simulates moved s c) → a.InRole →
      s.step moved a = some s' → ∃ c, Simulates moved s' c := by
    intro s a s' hsim hrole hs
    obtain ⟨c, hsim⟩ := hsim
    obtain ⟨_, c', -, -, hsim'⟩ := hsim.step hrole hs
    exact ⟨c', hsim'⟩
  refine ⟨?_, ?_⟩
  · obtain ⟨hbefore, hrest⟩ := meets_append.mp hrole
    obtain ⟨hrolea, hduring⟩ := meets_cons.mp hrest
    obtain ⟨m, hrun, hcall⟩ := Run.split h
    obtain ⟨rfl, x₁, hx₁, hafter⟩ := hcall.cons
    have hsim := Run.invariant (I := fun s => ∃ c, Simulates moved s c) ⟨_, simulates_init⟩ hkeep
      hrun hbefore
    obtain ⟨hcount, hbudget⟩ := step_start ha hc (System.step_cases hx₁)
    have hcharge := Run.charge (C := fun _ b => b.InRole ∧ b.starts ≠ some t)
      (I := fun s => s.InCall moved t) (fun s => (s.pcs t).left) (runningOf t) (fun _ _ => 0)
      ⟨hkeep _ _ _ hsim hrolea hx₁, hcount⟩
      (fun _ _ _ hI hb hs => (hI.step hb.1 hb.2 hs).1)
      (fun _ _ _ hI hb hs => (hI.step hb.1 hb.2 hs).2) hafter
      (fun p hp => ⟨hduring p hp, hown p hp⟩)
    rw [total_zero, hbudget] at hcharge
    omega
  · intro y hy
    obtain ⟨c, hsim⟩ := Run.invariant_visited (I := fun s => ∃ c, Simulates moved s c)
      ⟨_, simulates_init⟩ hkeep h hrole y hy
    exact hsim.roomy

/-- The consumer has stopped in the middle of a call, and the producer's call takes its
eleven steps. -/
theorem spsc_wait_free_stopped : ∃ (during : _) (s : System 64 1 Nat Side),
    Run (System.step id) System.init ((System.init, .enqueue .producer 7 false 0) :: during) s ∧
      s.log = [.callEnqueue .producer 7 false, .callDequeue .consumer,
        .enqueued .producer 7 true 7] ∧
      total (runningOf .producer) during ≤ 11 ∧
      ∀ y ∈ visited ((System.init, .enqueue .producer 7 false 0) :: during) s, y.Roomy := by
  have hrun : ∃ (tr : _) (s : System 64 1 Nat Side), Run (System.step id) System.init tr s ∧
      Meets (fun _ => Action.InRole) tr ∧
      tr.map Prod.snd = .enqueue .producer 7 false 0 :: (.dequeue .consumer ::
        .run .consumer :: List.replicate 11 (.run .producer)) ∧
      s.log = [.callEnqueue .producer 7 false, .callDequeue .consumer,
        .enqueued .producer 7 true 7] :=
    Run.of_execMeets_any _ (by decide)
  obtain ⟨tr, s, hr, hrole, ha, hlog⟩ := hrun
  obtain ⟨during, rfl, hd⟩ := hr.head ha
  refine ⟨during, s, hr, hlog, ?_⟩
  have hnow : Run (System.step id) System.init ([] ++ (System.init, _) :: during) s := hr
  refine spsc_wait_free hnow hrole rfl (by decide) ?_
  intro p hp
  have hmem : p.2 ∈ during.map Prod.snd := List.mem_map_of_mem hp
  rw [hd] at hmem
  have hb : p.2 = .dequeue .consumer ∨ p.2 = .run .consumer ∨ p.2 = .run .producer := by
    simp_all
  rcases hb with hb | hb | hb <;> simp [hb, Action.starts]

end Queue

end Vee.Lockfree
