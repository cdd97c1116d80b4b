import Vee.Lib.Charge
import Vee.Lockfree.AtQueueSystem
import Vee.Lockfree.Queue

/- How long a call on an `atqueue` can take.

   A call goes back to the loading of its index for two reasons: its exchange found the
   index moved on, or, in `enqueue`, the slot was taken and a retry is left. Only the
   winning exchange of another thread moves an index, so the steps of one call are
   bounded by those exchanges while it runs (`call_steps`), whoever holds which slot and
   however the indices have come round. Each call wins at most once, so the calls
   together are bounded by their number (`calls_end`): threads never keep each other
   busy for ever.

   The bounds need `retries` to be less than the largest `size_t`. For that one value
   `counter <= retries` is always true, and `enqueue` never returns false
   (`unlimited_retries`). -/
namespace Vee.Lockfree.AtQueue
open Transition

variable {w n : Nat} {D T : Type*} {moved : D → D}

/-- The two indices of the ring. -/
inductive Index where
  | front
  | rear
  deriving DecidableEq, Repr

/-- The value of the index. -/
def index (q : AtQueue n D) : Index → Fin n
  | .front => q.front
  | .rear => q.rear

@[simp] theorem index_front (q : AtQueue n D) : q.index .front = q.front := rfl

@[simp] theorem index_rear (q : AtQueue n D) : q.index .rear = q.rear := rfl

/-- The index that a call works on and its copy of it, from the loading to the exchange. -/
def Pc.copy : Pc w n D → Option (Index × Fin n)
  | enqueue (.check _ _ _ i) | enqueue (.exchange _ _ _ i) => some (.rear, i)
  | dequeue (.check i) | dequeue (.exchange i) => some (.front, i)
  | _ => none

/-- The index that the next step of the thread moves on. -/
def Pc.wins (q : AtQueue n D) : Pc w n D → Option Index
  | enqueue (.exchange _ _ _ i) => if q.rear = i then some .rear else none
  | dequeue (.exchange i) => if q.front = i then some .front else none
  | _ => none

/-- The index of the thread's call. -/
def Pc.index : Pc w n D → Option Index
  | idle => none
  | enqueue _ => some .rear
  | dequeue _ => some .front

/-- 1 until the call has won its exchange. -/
def Pc.racing : Pc w n D → Nat
  | enqueue (.load ..) | enqueue (.check ..) | enqueue (.exchange ..) => 1
  | dequeue .load | dequeue (.check _) | dequeue (.exchange _) => 1
  | _ => 0

/-- The steps a call takes at most from here on if its copy of the index is and stays right. -/
def Pc.ahead : Pc w n D → Nat
  | idle => 0
  | enqueue (.load _ r c) => 5 + 2 * (r.toNat - c.toNat)
  | enqueue (.check _ r c _) => 4 + 2 * (r.toNat - c.toNat)
  | enqueue (.exchange _ r c _) => 3 + 2 * (r.toNat - c.toNat)
  | dequeue .load => 5
  | dequeue (.check _) => 4
  | dequeue (.exchange _) => 3
  | enqueue (.store ..) | dequeue (.take _) => 2
  | enqueue (.publish ..) | dequeue (.clear ..) => 1

/-- The steps it takes to find the copy out of date and load the index again. -/
def Pc.behind (q : AtQueue n D) (p : Pc w n D) : Nat :=
  match p.copy with
  | some (k, i) => if q.index k = i then 0 else 3
  | none => 0

/-- The steps a call takes at most if no index moves. -/
def Pc.left (q : AtQueue n D) (p : Pc w n D) : Nat := p.ahead + p.behind q

/-- The loop of `enqueue` has a last pass: `counter` gets to `retries` and past it. -/
def Pc.Counting : Pc w n D → Prop
  | enqueue (.load _ r c) | enqueue (.check _ r c _) | enqueue (.exchange _ r c _) =>
    c ≤ r ∧ r.toNat + 1 < 2 ^ w
  | _ => True

/-! ## One step -/

theorem Pc.behind_le (q : AtQueue n D) (p : Pc w n D) : p.behind q ≤ 3 := by
  unfold Pc.behind
  split
  · split <;> omega
  · omega

/-- Another thread moves an index by winning its exchange only. -/
theorem Move.index_same {q q' : AtQueue n D} {p p' : Pc w n D} (h : Move moved q p q' p')
    (k : Index) (hk : p.wins q ≠ some k) : q'.index k = q.index k := by
  cases h with
  | reserve v r c =>
    cases k with
    | front => rfl
    | rear => simp [Pc.wins] at hk
  | claim =>
    cases k with
    | front => simp [Pc.wins] at hk
    | rear => rfl
  | _ => rfl

theorem Pc.copy_index {p : Pc w n D} {k : Index} {i : Fin n} (h : p.copy = some (k, i)) :
    p.index = some k := by
  unfold Pc.copy at h
  split at h
  · cases h
    rfl
  · cases h
    rfl
  · cases h
    rfl
  · cases h
    rfl
  · cases h

/-- So a call on another index is not put back, nor is any by an exchange that is lost. -/
theorem Move.left_same {q q' : AtQueue n D} {p p' : Pc w n D} (h : Move moved q p q' p')
    {o : Pc w n D} (ho : ∀ k, p.wins q = some k → o.index ≠ some k) : o.left q' = o.left q := by
  have hbehind : o.behind q' = o.behind q := by
    unfold Pc.behind
    cases hcopy : o.copy with
    | none => rfl
    | some c =>
      obtain ⟨k, i⟩ := c
      have hk : p.wins q ≠ some k := fun hw => ho k hw (Pc.copy_index hcopy)
      simp only [h.index_same k hk]
  simp only [Pc.left, hbehind]

/-- And no call by more than the steps of one pass. -/
theorem Pc.left_le (q q' : AtQueue n D) (o : Pc w n D) : o.left q' ≤ o.left q + 3 := by
  have hle := Pc.behind_le q' o
  simp only [Pc.left]
  omega

/-- The counter does not wrap below the largest number of retries. -/
theorem counter_next {r c : BitVec w} (hc : c ≤ r) (hr : r.toNat + 1 < 2 ^ w) :
    (c + 1).toNat = c.toNat + 1 := by
  have hle : c.toNat ≤ r.toNat := hc
  have hw : 0 < w := by
    apply Nat.pos_of_ne_zero
    intro hw
    subst hw
    omega
  have hone : (1 : BitVec w).toNat = 1 := BitVec.toNat_one hw
  rw [BitVec.toNat_add, hone, Nat.mod_eq_of_lt (by omega)]

/-- A step brings its call nearer to its end, or ends it. -/
theorem Move.left_own {q q' : AtQueue n D} {p p' : Pc w n D} (h : Move moved q p q' p')
    (hc : p.Counting) : p'.Counting ∧ p'.left q' + 1 ≤ p.left q := by
  cases h with
  | retry v r c i hi hle =>
    obtain ⟨hcr, hr⟩ := hc
    have hnext := counter_next hcr hr
    have hle' : (c + 1).toNat ≤ r.toNat := hle
    refine ⟨⟨hle, hr⟩, ?_⟩
    simp only [Pc.left, Pc.ahead, Pc.behind, Pc.copy, hnext]
    split <;> omega
  | lostRear v r c i hne =>
    have hstale : q.index .rear ≠ i := hne
    refine ⟨hc, ?_⟩
    simp only [Pc.left, Pc.ahead, Pc.behind, Pc.copy, if_neg hstale]
    omega
  | lostFront i hne =>
    have hstale : q.index .front ≠ i := hne
    refine ⟨trivial, ?_⟩
    simp only [Pc.left, Pc.ahead, Pc.behind, Pc.copy, if_neg hstale]
    omega
  | loadRear | free =>
    refine ⟨hc, ?_⟩
    simp only [Pc.left, Pc.ahead, Pc.behind, Pc.copy, index_rear, if_true]
    omega
  | full | reserve | seen | empty =>
    refine ⟨trivial, ?_⟩
    simp only [Pc.left, Pc.ahead, Pc.behind, Pc.copy]
    omega
  | _ =>
    refine ⟨trivial, ?_⟩
    simp [Pc.left, Pc.ahead, Pc.behind, Pc.copy]

/-- The step that wins its exchange is the last of the race. -/
theorem Move.racing {q q' : AtQueue n D} {p p' : Pc w n D} (h : Move moved q p q' p') :
    p'.racing ≤ p.racing ∧ (p.wins q ≠ none → p.racing = 1 ∧ p'.racing = 0) := by
  cases h <;> simp_all [Pc.racing, Pc.wins]

/-- The call stays the one it is until it returns. -/
theorem Move.call {q q' : AtQueue n D} {p p' : Pc w n D} (h : Move moved q p q' p') :
    p'.index = p.index ∨ p' = .idle := by
  cases h <;> simp [Pc.index]

/-! ## The calls of a run -/

/-- The thread whose call the action starts, and the index of the call. -/
def Action.starts : Action w D T → Option (T × Index)
  | .enqueue t _ _ => some (t, .rear)
  | .dequeue t => some (t, .front)
  | .run _ => none

/-- The steps of a call for whose thread no index moves. -/
def Action.budget : Action w D T → Nat
  | .enqueue _ _ retries => 5 + 2 * retries.toNat
  | .dequeue _ => 5
  | .run _ => 0

/-- The loop that the call enters has a last pass. -/
def Action.Counting : Action w D T → Prop
  | .enqueue _ _ retries => retries.toNat + 1 < 2 ^ w
  | .dequeue _ | .run _ => True

/-- Where the action's call starts. -/
def Action.entry : Action w D T → Pc w n D
  | .enqueue _ v retries => .enqueue (.start v retries)
  | .dequeue _ => .dequeue .load
  | .run _ => .idle

instance : ∀ a : Action w D T, Decidable a.Counting
  | .enqueue _ _ retries => inferInstanceAs (Decidable (retries.toNat + 1 < 2 ^ w))
  | .dequeue _ | .run _ => isTrue trivial

section
variable [DecidableEq T] {s s' : System w n D T}

/-- 1 for a step of a call. -/
def running (_ : System w n D T) : Action w D T → Nat
  | .run _ => 1
  | _ => 0

/-- 1 for a step of the thread's call. -/
def runningOf (t : T) (_ : System w n D T) : Action w D T → Nat
  | .run u => if u = t then 1 else 0
  | _ => 0

/-- 1 for a step by which another thread moves the index on. -/
def overtaking (t : T) (k : Index) (s : System w n D T) : Action w D T → Nat
  | .run u => if u ≠ t ∧ (s.pcs u).wins s.mem = some k then 1 else 0
  | _ => 0

theorem System.step_start {a : Action w D T} {t : T} {k : Index} (ha : a.starts = some (t, k))
    (h : s.step moved a = some s') :
    s.pcs t = .idle ∧ s' = { s with pcs := Function.update s.pcs t a.entry } := by
  cases a with
  | run u => cases ha
  | enqueue u v retries | dequeue u =>
    cases ha
    simp only [step] at h
    split at h
    · exact ⟨‹_›, (Option.some.inj h).symm⟩
    · cases h

theorem System.step_run {t : T} (h : s.step moved (.run t) = some s') :
    ∃ p, Move moved s.mem (s.pcs t) s'.mem p ∧ s'.pcs = Function.update s.pcs t p := by
  simp only [step] at h
  split at h
  · cases h
  · rename_i pc ht
    obtain rfl := Option.some.inj h
    exact ⟨_, ht ▸ enqueueStep_move moved s.mem pc, rfl⟩
  · rename_i pc ht
    obtain rfl := Option.some.inj h
    exact ⟨_, ht ▸ dequeueStep_move moved s.mem pc, rfl⟩

omit [DecidableEq T] in
theorem Action.entry_spec {a : Action w D T} {t : T} {k : Index} (ha : a.starts = some (t, k))
    (hc : a.Counting) (q : AtQueue n D) :
    (a.entry : Pc w n D).Counting ∧ (a.entry : Pc w n D).left q = a.budget ∧
      (a.entry : Pc w n D).index = some k ∧ (a.entry : Pc w n D).racing = 1 := by
  cases a with
  | run u => cases ha
  | dequeue u =>
    cases ha
    exact ⟨trivial, rfl, rfl, rfl⟩
  | enqueue u v retries =>
    cases ha
    refine ⟨⟨Nat.zero_le _, hc⟩, ?_, rfl, rfl⟩
    simp [Action.entry, EnqueuePc.start, Pc.left, Pc.ahead, Pc.behind, Pc.copy, Action.budget]

/-- A step that is none of the thread's call leaves it where it is, with three more steps
ahead of it if its index has been moved. -/
theorem System.step_other {t : T} {k : Index} {b : Action w D T} (h : s.step moved b = some s')
    (hown : ∀ j, b.starts ≠ some (t, j)) (hne : b ≠ .run t)
    (hk : (s.pcs t).index = some k ∨ s.pcs t = .idle) :
    s'.pcs t = s.pcs t ∧
      (s'.pcs t).left s'.mem ≤ (s.pcs t).left s.mem + 3 * overtaking t k s b := by
  cases hb : b.starts with
  | some c =>
    obtain ⟨u, j⟩ := c
    obtain ⟨-, rfl⟩ := step_start hb h
    have hu : t ≠ u := fun heq => hown j (heq ▸ hb)
    have hsame : Function.update s.pcs u b.entry t = s.pcs t := Function.update_of_ne hu _ _
    refine ⟨hsame, ?_⟩
    simp only [hsame]
    omega
  | none =>
    cases b with
    | enqueue u v retries | dequeue u => cases hb
    | run u =>
      obtain ⟨p, hm, hpcs⟩ := step_run h
      have hu : u ≠ t := fun heq => hne (heq ▸ rfl)
      have hsame : s'.pcs t = s.pcs t := by rw [hpcs, Function.update_of_ne hu.symm]
      refine ⟨hsame, ?_⟩
      rw [hsame]
      by_cases hwins : (s.pcs u).wins s.mem = some k
      · simp only [overtaking, if_pos (And.intro hu hwins)]
        exact Pc.left_le ..
      · have hleft := hm.left_same (o := s.pcs t) ?_
        · omega
        · intro j hj hindex
          rcases hk with hk | hidle
          · obtain rfl : j = k := Option.some.inj (hindex.symm.trans hk)
            exact hwins hj
          · rw [hidle] at hindex
            cases hindex

/-- The thread is in its call on the index, or the call has returned. -/
def System.InCall (s : System w n D T) (t : T) (k : Index) : Prop :=
  (s.pcs t).Counting ∧ ((s.pcs t).index = some k ∨ s.pcs t = .idle)

/-- What a step costs the call is paid for. -/
theorem System.InCall.step {t : T} {k : Index} {b : Action w D T} (hI : s.InCall t k)
    (hown : ∀ j, b.starts ≠ some (t, j)) (h : s.step moved b = some s') :
    s'.InCall t k ∧ (s'.pcs t).left s'.mem + runningOf t s b ≤
      (s.pcs t).left s.mem + 3 * overtaking t k s b := by
  obtain ⟨hcount, hk⟩ := hI
  by_cases hb : b = .run t
  · subst hb
    obtain ⟨p, hm, hpcs⟩ := step_run h
    obtain ⟨hcount', hleft⟩ := hm.left_own hcount
    have hp : s'.pcs t = p := by rw [hpcs, Function.update_self]
    have hindex : p.index = some k ∨ p = .idle := by
      rcases hm.call with hsame | hidle
      · rcases hk with hk | hidle
        · exact .inl (hsame.trans hk)
        · -- an idle thread takes no step
          rw [hidle] at hm
          cases hm
      · exact .inr hidle
    rw [InCall, hp]
    refine ⟨⟨hcount', hindex⟩, ?_⟩
    simp only [runningOf, if_true]
    omega
  · obtain ⟨hsame, hleft⟩ := step_other h hown hb hk
    have hcost : runningOf t s b = 0 := by
      cases b with
      | run u => simp_all [runningOf]
      | enqueue | dequeue => rfl
    refine ⟨by rw [InCall, hsame]; exact ⟨hcount, hk⟩, ?_⟩
    rw [hcost]
    exact hleft

/-- **A call is delayed only by calls that succeed.** From any state, a call takes at most
its own passes, and three steps for each exchange on its index that another thread wins
while it runs. -/
theorem call_steps {x : System w n D T} {a : Action w D T} {t : T} {k : Index}
    {during : List (System w n D T × Action w D T)}
    (h : Run (System.step moved) x ((x, a) :: during) s) (ha : a.starts = some (t, k))
    (hc : a.Counting) (hown : Meets (fun _ b => ∀ j, b.starts ≠ some (t, j)) during) :
    total (runningOf t) during ≤ a.budget + 3 * total (overtaking t k) during := by
  obtain ⟨-, x₁, hx₁, hrun⟩ := h.cons
  obtain ⟨-, hstart⟩ := System.step_start ha hx₁
  obtain ⟨hcount, hleft, hindex, -⟩ := Action.entry_spec (n := n) ha hc x₁.mem
  have hentry : x₁.pcs t = a.entry := by
    rw [hstart]
    exact Function.update_self ..
  have hin : x₁.InCall t k := by
    rw [System.InCall, hentry]
    exact ⟨hcount, .inl hindex⟩
  have hcharge := Run.charge (I := fun s => s.InCall t k) (fun s => (s.pcs t).left s.mem)
    (runningOf t) (fun s b => 3 * overtaking t k s b) hin
    (fun _ _ _ hI hb hs => (hI.step hb hs).1) (fun _ _ _ hI hb hs => (hI.step hb hs).2) hrun hown
  rw [total_mul, hentry, hleft] at hcharge
  omega

/-- Two threads enqueue to a ring of two slots. The first has checked its slot when the
second gets its value in there, so it takes the three steps of a lost pass and then five. -/
theorem call_steps_overtaken : ∃ (during : _) (s : System 64 2 Nat Bool),
    Run (System.step id) System.init ((System.init, .enqueue false 7 0) :: during) s ∧
      s.log = [.enqueued true 8 true, .enqueued false 7 true] ∧
      total (runningOf false) during ≤ 5 + 3 * total (overtaking false .rear) during := by
  have hrun : ∃ (tr : _) (s : System 64 2 Nat Bool), Run (System.step id) System.init tr s ∧
      tr.map Prod.snd = .enqueue false 7 0 :: (.enqueue true 8 0 ::
        ([.run false, .run false] ++ List.replicate 5 (.run true) ++
          List.replicate 6 (.run false))) ∧
      s.log = [.enqueued true 8 true, .enqueued false 7 true] :=
    Run.of_exec_any _ (by decide)
  obtain ⟨tr, s, hr, ha, hlog⟩ := hrun
  obtain ⟨during, rfl, hd⟩ := hr.head ha
  refine ⟨during, s, hr, hlog, call_steps hr rfl (by decide) ?_⟩
  intro p hp j
  have hmem : p.2 ∈ during.map Prod.snd := List.mem_map_of_mem hp
  rw [hd] at hmem
  have hb : p.2 = .enqueue true 8 0 ∨ p.2 = .run false ∨ p.2 = .run true := by
    simp_all
    tauto
  rcases hb with hb | hb | hb <;> simp [hb, Action.starts]

/-- The steps to come of the thread's call, and while it races for an exchange the `delay`
it causes the others by winning. -/
def System.share (delay : Nat) (s : System w n D T) (t : T) : Nat :=
  (s.pcs t).left s.mem + delay * (s.pcs t).racing

/-- The steps to come of all calls. -/
def System.toCome [Fintype T] (delay : Nat) (s : System w n D T) : Nat := ∑ t, s.share delay t

/-- The steps granted to a call when it starts. -/
def granted (delay : Nat) (_ : System w n D T) (a : Action w D T) : Nat :=
  match a.starts with
  | some _ => a.budget + delay
  | none => 0

/-- A winning exchange pays for the steps it makes the other calls take. -/
theorem System.toCome_run [Fintype T] {t : T} (hcount : (s.pcs t).Counting)
    (h : s.step moved (.run t) = some s') :
    s'.toCome (3 * (Fintype.card T - 1)) + 1 ≤ s.toCome (3 * (Fintype.card T - 1)) := by
  obtain ⟨p, hm, hpcs⟩ := step_run h
  obtain ⟨-, hleft⟩ := hm.left_own hcount
  obtain ⟨hracing, hwon⟩ := hm.racing
  have ht : s'.pcs t = p := by rw [hpcs, Function.update_self]
  have hother : ∀ u, u ≠ t → s'.pcs u = s.pcs u := by
    intro u hu
    rw [hpcs, Function.update_of_ne hu]
  rw [← Nat.add_zero (s.toCome _)]
  unfold toCome share
  refine sum_race_le (t := t) ?_ ?_ ?_
  · intro u hu
    rw [hother u hu]
  · rw [ht]
    exact hleft
  · by_cases hlost : (s.pcs t).wins s.mem = none
    · refine .inl ⟨?_, by rwa [ht]⟩
      intro u hu
      have hsame : (s.pcs u).left s'.mem = (s.pcs u).left s.mem := by
        apply hm.left_same
        intro k hk
        rw [hlost] at hk
        cases hk
      rw [hother u hu, hsame]
    · obtain ⟨hone, hzero⟩ := hwon hlost
      refine .inr ⟨?_, by rw [ht, hone, hzero]⟩
      intro u hu
      rw [hother u hu]
      exact Pc.left_le ..

/-- A call that starts has its steps granted. -/
theorem System.toCome_start [Fintype T] {a : Action w D T} {t : T} {k : Index} (delay : Nat)
    (ha : a.starts = some (t, k)) (hc : a.Counting) (h : s.step moved a = some s') :
    s'.toCome delay ≤ s.toCome delay + (a.budget + delay) := by
  obtain ⟨hidle, rfl⟩ := step_start ha h
  obtain ⟨-, hleft, -, hracing⟩ := Action.entry_spec (n := n) ha hc s.mem
  have hsum := sum_update_le (f := s.share delay)
    (g := System.share delay { s with pcs := Function.update s.pcs t a.entry }) (t := t) (k := 0) ?_
  · simp only [share, Function.update_self, hleft, hracing] at hsum
    simp only [toCome, share]
    omega
  · intro u hu
    simp only [share, Function.update_of_ne hu]
    omega

theorem System.step_granted [Fintype T] {a : Action w D T}
    (hI : ∀ t, (s.pcs t).Counting) (ha : a.Counting) (h : s.step moved a = some s') :
    (∀ t, (s'.pcs t).Counting) ∧
      s'.toCome (3 * (Fintype.card T - 1)) + running s a ≤
        s.toCome (3 * (Fintype.card T - 1)) + granted (3 * (Fintype.card T - 1)) s a := by
  cases hstarts : a.starts with
  | some c =>
    obtain ⟨t, k⟩ := c
    obtain ⟨hidle, hs'⟩ := step_start hstarts h
    obtain ⟨hcount, -⟩ := Action.entry_spec (n := n) hstarts ha s.mem
    have hsum := toCome_start (3 * (Fintype.card T - 1)) hstarts ha h
    have hrunning : running s a = 0 := by
      cases a with
      | run u => cases hstarts
      | enqueue | dequeue => rfl
    refine ⟨?_, ?_⟩
    · intro u
      subst hs'
      by_cases hu : u = t
      · simpa [hu] using hcount
      · simpa [Function.update_of_ne hu] using hI u
    · simp only [granted, hstarts, hrunning]
      omega
  | none =>
    cases a with
    | enqueue t v retries | dequeue t => cases hstarts
    | run t =>
      obtain ⟨p, hm, hpcs⟩ := step_run h
      obtain ⟨hcount, -⟩ := hm.left_own (hI t)
      have hsum := toCome_run (hI t) h
      refine ⟨?_, ?_⟩
      · intro u
        by_cases hu : u = t
        · simpa [hpcs, hu] using hcount
        · simpa [hpcs, Function.update_of_ne hu] using hI u
      · simp only [granted, hstarts, running]
        omega

/-- **No livelock.** However the calls interleave, they take no more steps together than a
bound for each call that was started: five, two for each of its retries, and three for each
other thread. -/
theorem calls_end [Fintype T] {s₀ : System w n D T} {tr : List (System w n D T × Action w D T)}
    (hidle : s₀.Quiescent) (h : Run (System.step moved) s₀ tr s)
    (hc : Meets (fun _ a => a.Counting) tr) :
    total running tr ≤ total (granted (3 * (Fintype.card T - 1))) tr := by
  have hzero : s₀.toCome (3 * (Fintype.card T - 1)) = 0 := by
    apply Finset.sum_eq_zero
    intro t _
    simp [System.share, hidle t, Pc.left, Pc.ahead, Pc.behind, Pc.copy, Pc.racing]
  have hcount : ∀ t, (s₀.pcs t).Counting := by
    intro t
    rw [hidle t]
    trivial
  have hcharge := Run.charge (I := fun s => ∀ t, (s.pcs t).Counting)
    (System.toCome (3 * (Fintype.card T - 1))) running (granted (3 * (Fintype.card T - 1))) hcount
    (fun _ _ _ hI ha hs => (System.step_granted hI ha hs).1)
    (fun _ _ _ hI ha hs => (System.step_granted hI ha hs).2) h hc
  omega

/-- The same two calls are granted eight steps each. -/
theorem calls_end_two : ∃ (tr : _) (s : System 64 2 Nat Bool),
    Run (System.step id) System.init tr s ∧
      s.log = [.enqueued true 8 true, .enqueued false 7 true] ∧
      total running tr ≤ total (granted 3) tr := by
  have hrun : ∃ (tr : _) (s : System 64 2 Nat Bool), Run (System.step id) System.init tr s ∧
      Meets (fun _ a => a.Counting) tr ∧ tr.map Prod.snd = _ ∧
      s.log = [.enqueued true 8 true, .enqueued false 7 true] :=
    Run.of_execMeets_any ([.enqueue false 7 0, .enqueue true 8 0, .run false, .run false] ++
      List.replicate 5 (.run true) ++ List.replicate 6 (.run false)) (by decide)
  obtain ⟨tr, s, hr, hc, -, hlog⟩ := hrun
  exact ⟨tr, s, hr, hlog, calls_end (fun _ => rfl) hr hc⟩

/-! ## The largest number of retries -/

/-- With the largest `size_t` for `retries`, a call alone on a full ring never returns. -/
theorem unlimited_retries (q : AtQueue n D) (hset : q.ptrs q.rear = true) (v : D) (k : Nat) :
    ∀ c : BitVec w, ∃ p, enqueueAlone k q (.load v (BitVec.allOnes w) c) = (q, .goto p) := by
  induction k using Nat.strongRecOn with
  | ind k ih =>
    intro c
    match k with
    | 0 => exact ⟨_, rfl⟩
    | 1 => exact ⟨_, rfl⟩
    | k + 2 =>
      have hnext : (c + 1).toNat ≤ (BitVec.allOnes w).toNat := by
        rw [BitVec.toNat_allOnes]
        exact Nat.le_sub_one_of_lt (c + 1).isLt
      have hnext : c + 1 ≤ BitVec.allOnes w := hnext
      obtain ⟨p, hp⟩ := ih k (by omega) (c + 1)
      refine ⟨p, ?_⟩
      simp only [enqueueAlone, enqueueStep, hset, Bool.true_eq_false, if_false, if_pos hnext]
      exact hp

end

end Vee.Lockfree.AtQueue
