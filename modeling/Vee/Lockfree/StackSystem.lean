import Vee.Lib.Transition
import Vee.Lockfree.Stack

/- Any number of threads calling `push` and `pop` on one stack, whose block pool is a
   bounded FIFO.

   An action starts a call in an idle thread or lets a thread in a call take its next
   step; the results are logged in the order they are returned. -/
namespace Vee.Lockfree.Stack

variable {n : Nat} {D T : Type*}

/-- What a thread is doing with the stack. -/
inductive Pc (D : Type*) where
  | idle
  | push (pc : PushPc D)
  | pop (pc : PopPc D)
  deriving DecidableEq, Repr

/-- What a call returned to its thread. -/
inductive Event (T D : Type*) where
  | pushed (t : T) (result : Bool)
  | popped (t : T) (out : Option D)
  deriving DecidableEq, Repr

/-- The stack, the threads and what the calls returned so far. -/
structure System (D T : Type*) where
  mem : Memory (List Nat) D
  pcs : T → Pc D
  log : List (Event T D)

/-- Start a call in an idle thread, or let a thread take the next step of its call. -/
inductive Action (D T : Type*) where
  | push (t : T) (data : D)
  | pop (t : T)
  | run (t : T)
  deriving DecidableEq, Repr

/-- A new stack of the given capacity and no call in progress. -/
def System.init (n : Nat) (cont : Nat → D) : System D T :=
  { mem := Memory.init (List.range n) cont, pcs := fun _ => .idle, log := [] }

section
variable [DecidableEq T] (n) (moved : D → D) (s : System D T)

/-- The state with the memory `mem`, thread `t` at `p` and the events `new` logged. -/
def System.goto (mem : Memory (List Nat) D) (t : T) (p : Pc D) (new : List (Event T D)) :
    System D T :=
  { mem := mem, pcs := Function.update s.pcs t p, log := s.log ++ new }

/-- The step of the system. -/
def System.step : Action D T → Option (System D T)
  | .push t data =>
    match s.pcs t with
    | .idle => some (s.goto s.mem t (.push (.dequeue data)) [])
    | _ => none
  | .pop t =>
    match s.pcs t with
    | .idle => some (s.goto s.mem t (.pop .load) [])
    | _ => none
  | .run t =>
    match s.pcs t with
    | .idle => none
    | .push pc =>
      match pushStep (fifoPool n) s.mem pc with
      | (mem, .goto pc) => some (s.goto mem t (.push pc) [])
      | (mem, .returned result) => some (s.goto mem t .idle [.pushed t result])
    | .pop pc =>
      match popStep (fifoPool n) moved s.mem pc with
      | (mem, .goto pc) => some (s.goto mem t (.pop pc) [])
      | (mem, .returned out) => some (s.goto mem t .idle [.popped t out])

end

/-! ## What a step can do -/

/-- Every step of a call, with the memory and the point it leaves. -/
inductive Move (n : Nat) (moved : D → D) (m : Memory (List Nat) D) :
    Pc D → Memory (List Nat) D → Pc D → Prop where
  | full (data : D) : m.contQueue = [] → Move n moved m (.push (.dequeue data)) m .idle
  | block (data : D) (b : Nat) (free : List Nat) : m.contQueue = b :: free →
      Move n moved m (.push (.dequeue data)) { m with contQueue := free } (.push (.store data b))
  | store (data : D) (b : Nat) :
      Move n moved m (.push (.store data b)) { m with cont := Function.update m.cont b data }
        (.push (.fetchAdd b))
  | fetchAdd (b : Nat) :
      Move n moved m (.push (.fetchAdd b)) { m with top := m.top + 1 } (.push (.await b m.top))
  | occupied (b i : Nat) : m.outarr i ≠ none →
      Move n moved m (.push (.await b i)) m (.push (.await b i))
  | vacant (b i : Nat) : m.outarr i = none →
      Move n moved m (.push (.await b i)) m (.push (.publish b i))
  | publish (b i : Nat) :
      Move n moved m (.push (.publish b i)) { m with outarr := Function.update m.outarr i (some b) }
        .idle
  | empty : m.top = 0 → Move n moved m (.pop .load) m .idle
  | load : m.top ≠ 0 → Move n moved m (.pop .load) m (.pop (.check m.top))
  | seen (top : Nat) : m.outarr (top - 1) ≠ none →
      Move n moved m (.pop (.check top)) m (.pop (.exchange top))
  | unseen (top : Nat) : m.outarr (top - 1) = none →
      Move n moved m (.pop (.check top)) m (.pop .load)
  | lost (top : Nat) : m.top ≠ top → Move n moved m (.pop (.exchange top)) m (.pop .load)
  | win : Move n moved m (.pop (.exchange m.top)) { m with top := m.top - 1 }
      (.pop (.take (m.top - 1)))
  | take (i : Nat) :
      Move n moved m (.pop (.take i))
        { m with cont := Function.update m.cont i (moved (m.cont i)) }
        (.pop (.clear i (m.cont i)))
  | clear (i : Nat) (out : D) :
      Move n moved m (.pop (.clear i out)) { m with outarr := Function.update m.outarr i none }
        (.pop (.putBack i out))
  | putBack (i : Nat) (out : D) : m.contQueue.length < n →
      Move n moved m (.pop (.putBack i out)) { m with contQueue := m.contQueue ++ [i] } .idle
  | poolFull (i : Nat) (out : D) : n ≤ m.contQueue.length →
      Move n moved m (.pop (.putBack i out)) m (.pop (.putBack i out))

/-- The points a call starts at. -/
def Pc.Entry (p : Pc D) : Prop := (∃ data, p = .push (.dequeue data)) ∨ p = .pop .load

/-- The point a step of `push` leaves its thread at. -/
def afterPush : Next (PushPc D) Bool → Pc D
  | .goto pc => .push pc
  | .returned _ => .idle

/-- The point a step of `pop` leaves its thread at. -/
def afterPop : Next (PopPc D) (Option D) → Pc D
  | .goto pc => .pop pc
  | .returned _ => .idle

theorem pushStep_move (moved : D → D) (m : Memory (List Nat) D) (pc : PushPc D) :
    Move n moved m (.push pc) (pushStep (fifoPool n) m pc).1
      (afterPush (pushStep (fifoPool n) m pc).2) := by
  cases pc with
  | dequeue data =>
    cases hq : m.contQueue with
    | nil =>
      have hmove : Move n moved m (.push (.dequeue data)) { m with contQueue := [] } .idle := by
        rw [← hq]
        exact .full data hq
      simp only [pushStep, fifoPool, hq, Fifo.dequeue_nil]
      exact hmove
    | cons b free =>
      simp only [pushStep, fifoPool, hq, Fifo.dequeue_cons]
      exact .block data b free hq
  | store data b => exact .store data b
  | fetchAdd b => exact .fetchAdd b
  | await b i =>
    by_cases hi : m.outarr i = none
    · simp only [pushStep, hi, ne_eq, not_true_eq_false, if_false]
      exact .vacant b i hi
    · simp only [pushStep, ne_eq, hi, not_false_eq_true, if_true]
      exact .occupied b i hi
  | publish b i => exact .publish b i

theorem popStep_move (moved : D → D) (m : Memory (List Nat) D) (pc : PopPc D) :
    Move n moved m (.pop pc) (popStep (fifoPool n) moved m pc).1
      (afterPop (popStep (fifoPool n) moved m pc).2) := by
  cases pc with
  | load =>
    by_cases htop : m.top = 0
    · simp only [popStep, htop, if_true]
      exact .empty htop
    · simp only [popStep, htop, if_false]
      exact .load htop
  | check top =>
    by_cases hi : m.outarr (top - 1) = none
    · simp only [popStep, hi, ne_eq, not_true_eq_false, if_false]
      exact .unseen top hi
    · simp only [popStep, ne_eq, hi, not_false_eq_true, if_true]
      exact .seen top hi
  | exchange top =>
    by_cases htop : m.top = top
    · subst htop
      simp only [popStep, if_true]
      exact .win
    · simp only [popStep, htop, if_false]
      exact .lost top htop
  | take i => exact .take i
  | clear i out => exact .clear i out
  | putBack i out =>
    by_cases hroom : m.contQueue.length < n
    · simp only [popStep, fifoPool, Fifo.enqueue_room i hroom]
      exact .putBack i out hroom
    · have hfull : n ≤ m.contQueue.length := by omega
      simp only [popStep, fifoPool, Fifo.enqueue_full i hfull]
      exact .poolFull i out hfull

/-- A step starts a call in an idle thread, or it is a step of a call. -/
theorem System.step_cases [DecidableEq T] {moved : D → D} {s s' : System D T} {a : Action D T}
    (h : s.step n moved a = some s') :
    (∃ t p, s.pcs t = .idle ∧ p.Entry ∧ s'.mem = s.mem ∧ s'.pcs = Function.update s.pcs t p) ∨
    (∃ t p, a = .run t ∧ Move n moved s.mem (s.pcs t) s'.mem p ∧
      s'.pcs = Function.update s.pcs t p) := by
  cases a with
  | push t data =>
    simp only [step] at h
    split at h
    · obtain rfl := Option.some.inj h
      exact .inl ⟨t, _, ‹_›, .inl ⟨data, rfl⟩, rfl, rfl⟩
    · cases h
  | pop t =>
    simp only [step] at h
    split at h
    · obtain rfl := Option.some.inj h
      exact .inl ⟨t, _, ‹_›, .inr rfl, rfl, rfl⟩
    · cases h
  | run t =>
    refine .inr ⟨t, ?_⟩
    simp only [step] at h
    split at h
    · cases h
    · rename_i pc ht
      have hmove := pushStep_move (n := n) moved s.mem pc
      rw [ht]
      split at h
      all_goals
        rename_i heq
        rw [heq] at hmove
        obtain rfl := Option.some.inj h
        exact ⟨_, rfl, hmove, rfl⟩
    · rename_i pc ht
      have hmove := popStep_move (n := n) moved s.mem pc
      rw [ht]
      split at h
      all_goals
        rename_i heq
        rw [heq] at hmove
        obtain rfl := Option.some.inj h
        exact ⟨_, rfl, hmove, rfl⟩

end Vee.Lockfree.Stack
