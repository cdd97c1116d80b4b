import Mathlib.Algebra.Order.Group.Multiset
import Mathlib.Data.Fintype.Basic
import Vee.Lib.Transition
import Vee.Lockfree.Slots

/- Any number of threads calling `enqueue` and `dequeue` on one `atqueue`.

   An action starts a call in an idle thread or lets a thread in a call take its
   next step, so a run is an interleaving of the steps of the calls. The results
   of the calls are logged in the order they are returned. -/
namespace Vee.Lockfree.AtQueue

variable {w n : Nat} {D T : Type*}

/-- What a call returned to its thread. -/
inductive Event (T D : Type*) where
  | enqueued (t : T) (value : D) (result : Bool)
  | dequeued (t : T) (result : Option D)
  deriving DecidableEq, Repr

/-- The value a successful `enqueue` put in. -/
def Event.put : Event T D → Option D
  | .enqueued _ v true => some v
  | _ => none

/-- The value a successful `dequeue` took out. -/
def Event.got : Event T D → Option D
  | .dequeued _ r => r
  | _ => none

/-- The values put in by the `enqueue` calls that returned true. -/
def puts (log : List (Event T D)) : Multiset D := ↑(log.filterMap Event.put)

/-- The values taken out by the `dequeue` calls that returned true. -/
def gots (log : List (Event T D)) : Multiset D := ↑(log.filterMap Event.got)

/-- The queue, the threads and what the calls returned so far. -/
structure System (w n : Nat) (D T : Type*) where
  mem : AtQueue n D
  pcs : T → Pc w n D
  log : List (Event T D)

/-- Start a call in an idle thread, or let a thread take the next step of its call. -/
inductive Action (w : Nat) (D T : Type*) where
  | enqueue (t : T) (value : D) (retries : BitVec w)
  | dequeue (t : T)
  | run (t : T)
  deriving DecidableEq, Repr

/-- A new queue and no call in progress. -/
def System.init [NeZero n] [Inhabited D] : System w n D T :=
  { mem := AtQueue.init, pcs := fun _ => .idle, log := [] }

/-- The result a step of `enqueue` logs. -/
def enqueueEvents (t : T) (v : D) : Next (EnqueuePc w n D) Bool → List (Event T D)
  | .goto _ => []
  | .returned result => [.enqueued t v result]

/-- The result a step of `dequeue` logs. -/
def dequeueEvents (t : T) : Next (DequeuePc n D) (Option D) → List (Event T D)
  | .goto _ => []
  | .returned result => [.dequeued t result]

variable [DecidableEq T]

/-- The step of the system. -/
def System.step (moved : D → D) (s : System w n D T) : Action w D T → Option (System w n D T)
  | .enqueue t v retries =>
    match s.pcs t with
    | .idle => some { s with pcs := Function.update s.pcs t (.enqueue (.start v retries)) }
    | _ => none
  | .dequeue t =>
    match s.pcs t with
    | .idle => some { s with pcs := Function.update s.pcs t (.dequeue .load) }
    | _ => none
  | .run t =>
    match s.pcs t with
    | .idle => none
    | .enqueue pc =>
      let (mem, next) := s.mem.enqueueStep pc
      some
        { mem := mem
          pcs := Function.update s.pcs t (afterEnqueue next)
          log := s.log ++ enqueueEvents t pc.value next }
    | .dequeue pc =>
      let (mem, next) := s.mem.dequeueStep moved pc
      some
        { mem := mem
          pcs := Function.update s.pcs t (afterDequeue next)
          log := s.log ++ dequeueEvents t next }

/-- The values that `val` gives to the slots that are set in `ptrs`. -/
def holding (ptrs : Fin n → Bool) (val : Fin n → D) : Multiset D :=
  (Finset.univ.filter fun i => ptrs i = true).val.map val

/-- The values in the slots whose `_ptrs` entry is non-null. -/
def stored (q : AtQueue n D) : Multiset D := holding q.ptrs q.cont

/-- No call is in progress. -/
def System.Quiescent (s : System w n D T) : Prop := ∀ t, s.pcs t = .idle

/-- Every value is delivered at most once and only after it was put in, and with
no call in progress the values put in are those taken out and those stored. -/
def System.NoLossNoDup (s : System w n D T) : Prop :=
  gots s.log ≤ puts s.log ∧ (s.Quiescent → puts s.log = gots s.log + stored s.mem)

/-- The winning exchange of the step, if it is one, is clean. -/
def System.Clean (s : System w n D T) : Action w D T → Prop
  | .run t => AtQueue.Clean s.mem s.pcs t
  | _ => True

instance [Fintype T] [DecidableEq D] (s : System w n D T) : Decidable s.Quiescent :=
  inferInstanceAs (Decidable (∀ t, s.pcs t = .idle))

instance [Fintype T] [DecidableEq D] (s : System w n D T) : Decidable s.NoLossNoDup :=
  inferInstanceAs (Decidable (_ ∧ (_ → _)))

instance [Fintype T] (s : System w n D T) : ∀ a, Decidable (s.Clean a)
  | .run t => inferInstanceAs (Decidable (AtQueue.Clean s.mem s.pcs t))
  | .enqueue .. | .dequeue .. => isTrue trivial

/-! ## What a step can do -/

/-- The value the next step of a thread makes available to `dequeue`. -/
def Pc.adds : Pc w n D → Multiset D
  | enqueue (.publish v _) => {v}
  | _ => 0

/-- The value the next step of a thread gives to its caller. -/
def Pc.removes : Pc w n D → Multiset D
  | dequeue (.clear _ out) => {out}
  | _ => 0

omit [DecidableEq T] in
theorem puts_append (log new : List (Event T D)) : puts (log ++ new) = puts log + puts new := by
  simp [puts]

omit [DecidableEq T] in
theorem gots_append (log new : List (Event T D)) : gots (log ++ new) = gots log + gots new := by
  simp [gots]

omit [DecidableEq T] in
theorem enqueueEvents_values (q : AtQueue n D) (t : T) (pc : EnqueuePc w n D) :
    puts (enqueueEvents t pc.value (q.enqueueStep pc).2) = (Pc.enqueue pc).adds ∧
      gots (enqueueEvents t pc.value (q.enqueueStep pc).2) = (Pc.enqueue pc).removes := by
  cases pc with
  | load | store => exact ⟨rfl, rfl⟩
  | check v r c i =>
    simp only [enqueueStep]
    split
    · exact ⟨rfl, rfl⟩
    · split <;> exact ⟨rfl, rfl⟩
  | exchange v r c i =>
    simp only [enqueueStep]
    split <;> exact ⟨rfl, rfl⟩
  | publish v i => exact ⟨rfl, rfl⟩

omit [DecidableEq T] in
theorem dequeueEvents_values (moved : D → D) (q : AtQueue n D) (t : T) (pc : DequeuePc n D) :
    puts (dequeueEvents t (q.dequeueStep moved pc).2) = (Pc.dequeue (w := w) pc).adds ∧
      gots (dequeueEvents t (q.dequeueStep moved pc).2) = (Pc.dequeue (w := w) pc).removes := by
  cases pc with
  | load | take | clear => exact ⟨rfl, rfl⟩
  | check i =>
    simp only [dequeueStep]
    split <;> exact ⟨rfl, rfl⟩
  | exchange i =>
    simp only [dequeueStep]
    split <;> exact ⟨rfl, rfl⟩

/-- The points a call starts at. -/
def Pc.Entry (p : Pc w n D) : Prop :=
  (∃ v retries, p = .enqueue (.start v retries)) ∨ p = .dequeue .load

/-- A step starts a call in an idle thread and changes nothing else, or it is a
step of a call, after which the log has gained what the call made available or
delivered. -/
theorem System.step_cases {moved : D → D} {s s' : System w n D T} {a : Action w D T}
    (h : s.step moved a = some s') :
    (∃ t p, s.pcs t = .idle ∧ p.Entry ∧ s' = { s with pcs := Function.update s.pcs t p }) ∨
    (∃ t p, a = .run t ∧ Move moved s.mem (s.pcs t) s'.mem p ∧
      s'.pcs = Function.update s.pcs t p ∧ puts s'.log = puts s.log + (s.pcs t).adds ∧
      gots s'.log = gots s.log + (s.pcs t).removes) := by
  cases a with
  | enqueue t v retries =>
    simp only [step] at h
    split at h
    · rename_i ht
      exact Or.inl ⟨t, _, ht, Or.inl ⟨v, retries, rfl⟩, (Option.some.inj h).symm⟩
    · cases h
  | dequeue t =>
    simp only [step] at h
    split at h
    · rename_i ht
      exact Or.inl ⟨t, _, ht, Or.inr rfl, (Option.some.inj h).symm⟩
    · cases h
  | run t =>
    refine Or.inr ⟨t, s'.pcs t, rfl, ?_⟩
    simp only [step] at h
    split at h
    · cases h
    · rename_i pc ht
      obtain rfl := Option.some.inj h
      simp only [ht, Function.update_self, puts_append, gots_append]
      obtain ⟨hp, hg⟩ := enqueueEvents_values s.mem t pc
      exact ⟨enqueueStep_move moved s.mem pc, trivial, by rw [hp], by rw [hg]⟩
    · rename_i pc ht
      obtain rfl := Option.some.inj h
      simp only [ht, Function.update_self, puts_append, gots_append]
      obtain ⟨hp, hg⟩ := dequeueEvents_values (w := w) moved s.mem t pc
      exact ⟨dequeueStep_move moved s.mem pc, trivial, by rw [hp], by rw [hg]⟩

end Vee.Lockfree.AtQueue
