import Vee.Lib.Charge
import Vee.Lockfree.StackShape

/- What the calls on a stack cost, and whom they wait for.

   The stack is not lock-free: a `push` turns in its loop while its position is occupied,
   and a `pop` while the position below `_top` is not filled (`Pc.waits`). The other passes
   are paid for by the call that has moved `_top`, as those on a ring are: apart from
   waiting, the calls end (`steps_but_waiting`). Where the winning exchanges are clean, who
   waits waits for another call that is at the position, a `pop` that has won its exchange
   waits for nobody, and so the calls in progress can always be brought to their ends
   (`no_deadlock`). -/
namespace Vee.Lockfree.Stack
open Transition

variable {n : Nat} {D T : Type*} {moved : D → D}

/-- The position at which the next step of the thread only looks again. -/
def Pc.waits (m : Memory (List Nat) D) : Pc D → Option Nat
  | push (.await _ i) => if m.outarr i ≠ none then some i else none
  | pop (.check top) =>
    if m.top = top ∧ m.outarr (top - 1) = none then some (top - 1) else none
  | _ => none

/-- 1 until the call has moved `_top`. -/
def Pc.racing : Pc D → Nat
  | push (.dequeue _) | push (.store ..) | push (.fetchAdd _) => 1
  | pop .load | pop (.check _) | pop (.exchange _) => 1
  | _ => 0

/-- The steps a call takes at most from here on if it does not wait and `_top` stays. -/
def Pc.ahead : Pc D → Nat
  | idle => 0
  | push (.dequeue _) => 5
  | push (.store ..) => 4
  | push (.fetchAdd _) => 3
  | push (.await ..) => 2
  | push (.publish ..) => 1
  | pop .load => 6
  | pop (.check _) => 5
  | pop (.exchange _) => 4
  | pop (.take _) => 3
  | pop (.clear ..) => 2
  | pop (.putBack ..) => 1

/-- The steps it takes `pop` to find its copy of `_top` out of date and load it again. -/
def Pc.behind (m : Memory (List Nat) D) : Pc D → Nat
  | pop (.check top) | pop (.exchange top) => if m.top = top then 0 else 3
  | _ => 0

/-- The steps a call takes at most if it does not wait and `_top` does not move. -/
def Pc.left (m : Memory (List Nat) D) (p : Pc D) : Nat := p.ahead + p.behind m

/-! ## One step -/

theorem Pc.behind_le (m : Memory (List Nat) D) (p : Pc D) : p.behind m ≤ 3 := by
  unfold Pc.behind
  split
  · split <;> omega
  · split <;> omega
  · omega

theorem Pc.left_le (m m' : Memory (List Nat) D) (p : Pc D) : p.left m' ≤ p.left m + 3 := by
  have hle := Pc.behind_le m' p
  unfold Pc.left
  omega

/-- Only `_top` counts for a call that does not move. -/
theorem Pc.left_same {m m' : Memory (List Nat) D} (htop : m'.top = m.top) (p : Pc D) :
    p.left m' = p.left m := by
  unfold Pc.left Pc.behind
  rw [htop]

/-- A step brings its call nearer to its end, but for two steps where it waits. -/
theorem Move.left_own {m m' : Memory (List Nat) D} {p p' : Pc D} (h : Move n moved m p m' p')
    (hroom : p.Carrying → m.contQueue.length < n) :
    p'.left m' + 1 ≤ p.left m + 2 * if (p.waits m).isSome then 1 else 0 := by
  cases h with
  | occupied b i hset =>
    have hwaits : (Pc.push (D := D) (.await b i)).waits m = some i := if_pos hset
    simp [hwaits, Pc.left, Pc.ahead, Pc.behind]
  | unseen top hnull =>
    by_cases htop : m.top = top
    · have hwaits : (Pc.pop (D := D) (.check top)).waits m = some (top - 1) :=
        if_pos ⟨htop, hnull⟩
      simp [hwaits, Pc.left, Pc.ahead, Pc.behind, htop]
    · simp only [Pc.left, Pc.ahead, Pc.behind, if_neg htop]
      omega
  | lost top hne =>
    simp only [Pc.left, Pc.ahead, Pc.behind, if_neg hne]
    omega
  | poolFull i out hfull =>
    have hlt := hroom trivial
    omega
  | load | seen =>
    simp only [Pc.left, Pc.ahead, Pc.behind, if_true]
    omega
  | _ =>
    simp only [Pc.left, Pc.ahead, Pc.behind]
    omega

/-- The step that moves `_top` is the last of its call's race. -/
theorem Move.racing {m m' : Memory (List Nat) D} {p p' : Pc D} (h : Move n moved m p m' p') :
    p'.racing ≤ p.racing ∧ (m'.top ≠ m.top → p.racing = 1 ∧ p'.racing = 0) := by
  cases h <;> simp [Pc.racing]

/-! ## The calls of a run -/

/-- 1 for a step of a call. -/
def running (_ : System D T) : Action D T → Nat
  | .run _ => 1
  | _ => 0

/-- 1 for a step by which a call only looks again. -/
def waiting (s : System D T) : Action D T → Nat
  | .run t => if ((s.pcs t).waits s.mem).isSome then 1 else 0
  | _ => 0

/-- The steps granted to a call when it starts. -/
def granted (delay : Nat) (_ : System D T) : Action D T → Nat
  | .push _ _ => 5 + delay
  | .pop _ => 6 + delay
  | .run _ => 0

/-- The steps to come of all calls, each with the `delay` it causes the others as long as it
races. -/
def System.toCome [Fintype T] (delay : Nat) (s : System D T) : Nat :=
  ∑ t, ((s.pcs t).left s.mem + delay * (s.pcs t).racing)

section
variable [DecidableEq T] {s s' : System D T} {a : Action D T} {t : T}

theorem System.step_run (h : s.step n moved (.run t) = some s') :
    ∃ p, Move n moved s.mem (s.pcs t) s'.mem p ∧ s'.pcs = Function.update s.pcs t p := by
  simp only [step] at h
  split at h
  · cases h
  · rename_i pc ht
    have hmove := pushStep_move (n := n) moved s.mem pc
    rw [ht]
    split at h
    all_goals
      rename_i heq
      rw [heq] at hmove
      obtain rfl := Option.some.inj h
      exact ⟨_, hmove, rfl⟩
  · rename_i pc ht
    have hmove := popStep_move (n := n) moved s.mem pc
    rw [ht]
    split at h
    all_goals
      rename_i heq
      rw [heq] at hmove
      obtain rfl := Option.some.inj h
      exact ⟨_, hmove, rfl⟩

/-- A thread in a call can take a step. -/
theorem System.run_enabled (n : Nat) (moved : D → D) (ht : s.pcs t ≠ .idle) :
    ∃ s', s.step n moved (.run t) = some s' := by
  simp only [step]
  split
  · exact absurd ‹_› ht
  · split <;> exact ⟨_, rfl⟩
  · split <;> exact ⟨_, rfl⟩

omit [DecidableEq T] in
/-- The pool has room for the block of a call that has one. -/
theorem Counted.room (h : Counted n s) (ht : (s.pcs t).Carrying) :
    s.mem.contQueue.length < n := by
  obtain ⟨U, hU, hcount⟩ := h.count
  have hcard := hU.card_pos ht
  omega

/-- A step of a call is paid for, but for two where it waits: who moves `_top` pays for the
steps that costs the other calls. -/
theorem System.toCome_run [Fintype T] (hcount : Counted n s)
    (h : s.step n moved (.run t) = some s') :
    s'.toCome (3 * (Fintype.card T - 1)) + 1 ≤
      s.toCome (3 * (Fintype.card T - 1)) + 2 * waiting s (.run t) := by
  obtain ⟨p, hm, hpcs⟩ := step_run h
  obtain ⟨hracing, hwon⟩ := hm.racing
  have ht : s'.pcs t = p := by rw [hpcs, Function.update_self]
  have hother : ∀ u, u ≠ t → s'.pcs u = s.pcs u := by
    intro u hu
    rw [hpcs, Function.update_of_ne hu]
  unfold toCome
  refine sum_race_le (t := t) ?_ ?_ ?_
  · intro u hu
    rw [hother u hu]
  · rw [ht]
    exact hm.left_own hcount.room
  · by_cases htop : s'.mem.top = s.mem.top
    · refine .inl ⟨?_, by rwa [ht]⟩
      intro u hu
      rw [hother u hu, Pc.left_same htop]
    · obtain ⟨hone, hzero⟩ := hwon htop
      refine .inr ⟨?_, by rw [ht, hone, hzero]⟩
      intro u hu
      rw [hother u hu]
      exact Pc.left_le ..

/-- A call that starts has its steps granted. -/
theorem System.toCome_start [Fintype T] (delay : Nat) (ht : s.pcs t = .idle) {p : Pc D}
    (hracing : p.racing = 1) (hmem : s'.mem = s.mem) (hpcs : s'.pcs = Function.update s.pcs t p) :
    s'.toCome delay ≤ s.toCome delay + (p.left s.mem + delay) := by
  have hsum := sum_update_le (f := fun u => (s.pcs u).left s.mem + delay * (s.pcs u).racing)
    (g := fun u => (s'.pcs u).left s'.mem + delay * (s'.pcs u).racing) (t := t) (k := 0) ?_
  · simp only [hmem, hpcs, Function.update_self, ht, hracing] at hsum
    unfold toCome
    simp only [hmem, hpcs]
    omega
  · intro u hu
    simp only [hmem, hpcs, Function.update_of_ne hu]
    omega

/-- What a step costs is granted, or it is waited. -/
theorem System.step_granted [Fintype T] (hcount : Counted n s)
    (h : s.step n moved a = some s') :
    s'.toCome (3 * (Fintype.card T - 1)) + running s a ≤ s.toCome (3 * (Fintype.card T - 1)) +
      (granted (3 * (Fintype.card T - 1)) s a + 2 * waiting s a) := by
  cases a with
  | push t data =>
    simp only [step] at h
    split at h
    · obtain rfl := Option.some.inj h
      exact toCome_start _ ‹_› (p := .push (.dequeue data)) rfl rfl rfl
    · cases h
  | pop t =>
    simp only [step] at h
    split at h
    · obtain rfl := Option.some.inj h
      exact toCome_start _ ‹_› (p := .pop .load) rfl rfl rfl
    · cases h
  | run t =>
    have hrun := toCome_run hcount h
    simp only [running, granted]
    omega

/-- **Apart from waiting, the calls end.** However pushes and pops interleave, they take no
more steps together than six for each call that was started and three for each other thread,
and two for each step at which one of them waits. -/
theorem steps_but_waiting [Fintype T] {tr : List (System D T × Action D T)} {cont : Nat → D}
    (h : Run (System.step n moved) (System.init n cont) tr s) :
    total running tr ≤
      total (granted (3 * (Fintype.card T - 1))) tr + 2 * total waiting tr := by
  have hzero : (System.init n cont : System D T).toCome (3 * (Fintype.card T - 1)) = 0 := by
    apply Finset.sum_eq_zero
    intro t _
    rfl
  have hcharge := Run.charge (C := fun _ _ => True) (I := Counted n)
    (System.toCome (3 * (Fintype.card T - 1))) running
    (fun s a => granted (3 * (Fintype.card T - 1)) s a + 2 * waiting s a) (counted_init cont)
    (fun _ _ _ hI _ hs => hI.step hs) (fun _ _ _ hI _ hs => System.step_granted hI hs) h
    (fun _ _ => trivial)
  rw [total_add, total_mul] at hcharge
  omega

/-- Capacity 1: the `pop` loads `_top` when the `push` has raised it, and finds the position
null twice before the `push` has filled it. -/
theorem steps_but_waiting_unfilled : ∃ (tr : _) (s : System Nat Bool),
    Run (System.step 1 id) (System.init 1 fun _ => 0) tr s ∧
      s.log = [.pushed false true, .popped true (some 7)] ∧
      total running tr ≤ total (granted 3) tr + 2 * total waiting tr := by
  have hrun : ∃ (tr : _) (s : System Nat Bool),
      Run (System.step 1 id) (System.init 1 fun _ => 0) tr s ∧ tr.map Prod.snd = _ ∧
        s.log = [.pushed false true, .popped true (some 7)] :=
    Run.of_exec_any (call (.push false 7) false 3 ++ call (.pop true) true 5 ++
      List.replicate 2 (.run false) ++ List.replicate 5 (.run true)) (by decide)
  obtain ⟨tr, s, hr, -, hlog⟩ := hrun
  exact ⟨tr, s, hr, hlog, steps_but_waiting hr⟩

/-! ## Who waits for whom -/

omit [DecidableEq T] in
/-- A `push` waits for a `pop` that has not cleared its position, a `pop` for a `push` that
has not filled the position below `_top`. -/
theorem Shape.waits (h : Shape s) (hcount : Counted n s) {i : Nat}
    (ht : (s.pcs t).waits s.mem = some i) :
    ∃ u, (s.pcs t).pushing = some i ∧ (s.pcs u).popping = some i ∨
      (s.pcs t).pushing = none ∧ (s.pcs u).pushing = some i := by
  have hnonzero := hcount.nonzero t
  have hocc := h.occupied i
  generalize hpc : s.pcs t = pc at ht hnonzero
  unfold Pc.waits at ht
  split at ht
  · split at ht
    · rename_i b j hset
      obtain rfl := Option.some.inj ht
      have hpush : (s.pcs t).pushing = some j := by rw [hpc, Pc.pushing]
      rcases hocc.mp hset with ⟨u, hu⟩ | ⟨-, hfree⟩
      · exact ⟨u, .inl ⟨rfl, hu⟩⟩
      · exact absurd hpush (hfree t)
    · cases ht
  · split at ht
    · rename_i top hnull
      obtain ⟨htop, hnull⟩ := hnull
      obtain rfl := Option.some.inj ht
      have hpos := hnonzero top (.inl rfl)
      -- below `_top` a position is null only while a `push` is at it
      have hnot : ¬ ∀ u, (s.pcs u).pushing ≠ some (top - 1) := by
        intro hfree
        exact hocc.mpr (.inr ⟨by omega, hfree⟩) hnull
      push Not at hnot
      obtain ⟨u, hu⟩ := hnot
      exact ⟨u, .inr ⟨rfl, hu⟩⟩
    · cases ht
  · cases ht

/-- A `pop` past its exchange waits for nobody and exchanges nothing. -/
theorem Pc.popping_goes {p : Pc D} {i : Nat} (h : p.popping = some i) (m : Memory (List Nat) D) :
    p ≠ .idle ∧ p.waits m = none ∧ ∀ top, p ≠ .pop (.exchange top) := by
  unfold Pc.popping at h
  split at h
  · exact ⟨by simp, rfl, by simp⟩
  · exact ⟨by simp, rfl, by simp⟩
  · cases h

omit [DecidableEq T] in
/-- While no `pop` is past its exchange, no `push` waits. -/
theorem Shape.push_goes (h : Shape s) (hcount : Counted n s)
    (hpop : ∀ u i, (s.pcs u).popping ≠ some i) {pc : PushPc D} (ht : s.pcs t = .push pc) :
    (s.pcs t).waits s.mem = none := by
  by_contra hwaits
  obtain ⟨i, hi⟩ := Option.ne_none_iff_exists'.mp hwaits
  obtain ⟨u, ⟨-, hu⟩ | ⟨hnone, -⟩⟩ := h.waits hcount hi
  · exact hpop u i hu
  · rw [ht] at hi hnone
    cases pc with
    | await b j => cases hnone
    | _ => cases hi

omit [DecidableEq T] in
/-- While no other call is at a position, a `pop` does not wait and its exchange is clean. -/
theorem Shape.pop_goes (h : Shape s) (hcount : Counted n s)
    (hpop : ∀ u i, (s.pcs u).popping ≠ some i) (hpush : ∀ u i, (s.pcs u).pushing ≠ some i) (t : T) :
    (s.pcs t).waits s.mem = none ∧ s.Clean (.run t) := by
  constructor
  · by_contra hwaits
    obtain ⟨i, hi⟩ := Option.ne_none_iff_exists'.mp hwaits
    obtain ⟨u, ⟨-, hu⟩ | ⟨-, hu⟩⟩ := h.waits hcount hi
    · exact hpop u i hu
    · exact hpush u i hu
  · intro hx
    have hpos := hcount.nonzero t s.mem.top (.inr hx)
    refine ⟨(h.occupied _).mpr (.inr ⟨by omega, fun u => hpush u _⟩), ?_⟩
    exact fun u => ⟨hpush u _, hpop u _⟩

omit [DecidableEq T] in
/-- While a call is in progress, there is one that does not wait and whose step is clean: a
`pop` past its exchange, else any `push`, else any `pop`. -/
theorem Shape.next (h : Shape s) (hcount : Counted n s) (hbusy : ¬ s.Quiescent) :
    ∃ t, s.pcs t ≠ .idle ∧ (s.pcs t).waits s.mem = none ∧ s.Clean (.run t) := by
  by_cases hpop : ∃ t i, (s.pcs t).popping = some i
  · obtain ⟨t, i, ht⟩ := hpop
    obtain ⟨hbusy, hwaits, hno⟩ := Pc.popping_goes ht s.mem
    exact ⟨t, hbusy, hwaits, fun hx => absurd hx (hno _)⟩
  · push Not at hpop
    by_cases hpush : ∃ t pc, s.pcs t = .push pc
    · obtain ⟨t, pc, ht⟩ := hpush
      exact ⟨t, by simp [ht], h.push_goes hcount hpop ht, by simp [System.Clean, ht]⟩
    · push Not at hpush
      have hfree : ∀ u i, (s.pcs u).pushing ≠ some i := by
        intro u i hu
        unfold Pc.pushing at hu
        split at hu
        · exact hpush u _ ‹_›
        · exact hpush u _ ‹_›
        · cases hu
      obtain ⟨t, ht⟩ := not_forall.mp hbusy
      exact ⟨t, ht, h.pop_goes hcount hpop hfree t⟩

/-- **No deadlock.** In every state of a run whose winning exchanges are clean, a `push`
that waits does so for a `pop` that is past its exchange, a `pop` that waits for a `push` at
the position below `_top`; and the calls in progress can be brought to their ends, again by
clean steps. -/
theorem no_deadlock [Fintype T] {tr : List (System D T × Action D T)} {cont : Nat → D}
    (h : Run (System.step n moved) (System.init n cont) tr s) (hclean : Meets System.Clean tr) :
    (∀ t i, (s.pcs t).waits s.mem = some i →
      ∃ u, (s.pcs t).pushing = some i ∧ (s.pcs u).popping = some i ∨
        (s.pcs t).pushing = none ∧ (s.pcs u).pushing = some i) ∧
      ∃ rest s', Run (System.step n moved) s rest s' ∧
        Meets (fun x a => (∃ t, a = .run t) ∧ x.Clean a) rest ∧ s'.Quiescent := by
  have hall : Counted n s ∧ Shape s := by
    refine Run.invariant (C := System.Clean) (I := fun x => Counted n x ∧ Shape x)
      ⟨counted_init cont, shape_init cont⟩ ?_ h hclean
    intro x b y hI hb hs
    exact ⟨hI.1.step hs, hI.2.step hI.1 hs hb⟩
  refine ⟨fun t i ht => hall.2.waits hall.1 ht, ?_⟩
  have hkeep : ∀ (x : System D T) (a : Action D T) (y : System D T), Counted n x ∧ Shape x →
      (∃ t, a = .run t) ∧ x.Clean a → x.step n moved a = some y → Counted n y ∧ Shape y := by
    intro x a y hI ha hs
    exact ⟨hI.1.step hs, hI.2.step hI.1 hs ha.2⟩
  have hnext : ∀ x : System D T, Counted n x ∧ Shape x → ¬ x.Quiescent →
      ∃ a y, ((∃ t, a = .run t) ∧ x.Clean a) ∧ x.step n moved a = some y ∧
        y.toCome (3 * (Fintype.card T - 1)) < x.toCome (3 * (Fintype.card T - 1)) := by
    intro x hI hbusy
    obtain ⟨t, ht, hwaits, ha⟩ := hI.2.next hI.1 hbusy
    obtain ⟨y, hs⟩ := System.run_enabled n moved ht
    refine ⟨.run t, y, ⟨⟨t, rfl⟩, ha⟩, hs, ?_⟩
    have hpaid := System.toCome_run hI.1 hs
    have hzero : waiting x (.run t) = 0 := by simp [waiting, hwaits]
    omega
  obtain ⟨rest, s', hrun, hmeets, hrest, -⟩ := reaches_goal _ hkeep hnext hall
  exact ⟨rest, s', hrun, hmeets, hrest⟩

/-- Capacity 2: a `pop` has won its exchange for position 0 and has not cleared it, and a
`push` has raised `_top` over it again. -/
theorem no_deadlock_uncleared : ∃ (tr : _) (s : System Nat Bool),
    Run (System.step 2 id) (System.init 2 fun _ => 0) tr s ∧
      (∃ u, (s.pcs u).popping = some 0) ∧
      ∃ rest s', Run (System.step 2 id) s rest s' ∧ s'.Quiescent := by
  have hrun : ∃ (tr : _) (s : System Nat Bool),
      Run (System.step 2 id) (System.init 2 fun _ => 0) tr s ∧ Meets System.Clean tr ∧
        tr.map Prod.snd = _ ∧ (s.pcs false).waits s.mem = some 0 ∧
        (s.pcs false).pushing = some 0 :=
    Run.of_execMeets_any (call (.push true 7) true 5 ++ call (.pop true) true 3 ++
      call (.push false 8) false 3) (by decide)
  obtain ⟨tr, s, hr, hclean, -, hwaits, hpush⟩ := hrun
  obtain ⟨hserved, rest, s', hrest, -, hidle⟩ := no_deadlock hr hclean
  obtain ⟨u, ⟨-, hu⟩ | ⟨hnone, -⟩⟩ := hserved false 0 hwaits
  · exact ⟨tr, s, hr, ⟨u, hu⟩, rest, s', hrest, hidle⟩
  · rw [hpush] at hnone
    cases hnone

end

end Vee.Lockfree.Stack
