import Vee.Lib.Section
import Vee.Locked.QueueAlone

/- The index sections of `vee::queue`, access by access.

   `enqueue` and `dequeue` take `_idxlck`, read and write `_front`, `_rear` and `_size` one
   access at a time, and give the lock back. Here each access is a step, `++_rear %= capacity`
   being two, and a thread that waits for the lock turns in its loop. The section of each is
   `enqueueIndex` or `dequeueIndex` as a whole, so every run is one of the queue whose index
   sections are single steps, taken when the lock is given back (`index_sections_atomic`), and
   no index leaves the blocks. -/
namespace Vee.Locked.Queue
open Transition Circular Section

variable {n : Nat} {D T : Type*}

/-- What `_idxlck` guards. -/
structure Indices where
  front : Nat
  rear : Nat
  size : Nat
  deriving DecidableEq, Repr

/-- What it does not guard; `wild` is set by an access past the blocks. -/
structure Blocks (n : Nat) (D : Type*) where
  blocks : Fin n → D
  blocklcks : Fin n → SpinLock
  wild : Bool

/-- The points outside the index sections, of which `enqueue` and `dequeue` wait for the lock. -/
inductive OutPc (D : Type*) where
  | idle
  | enqueue (val : D)
  | write (rear : Nat) (val : D)
  | written (rear : Nat)
  | dequeue
  | read (front : Nat)
  | taken (front : Nat) (out : D)
  deriving DecidableEq

/-- The points of the index sections. -/
inductive InPc (D : Type*) where
  /-- `rear = _rear` -/
  | loadRear (val : D)
  /-- `is_full()` -/
  | testFull (val : D) (rear : Nat)
  /-- `++_rear`, and whether the queue is full -/
  | incRear (val : D) (rear : Nat) (full : Bool)
  /-- `_rear %= capacity` -/
  | modRear (val : D) (rear : Nat) (full : Bool)
  /-- `++_front` where the queue is full -/
  | pushFront (val : D) (rear : Nat)
  | wrapFront (val : D) (rear : Nat)
  /-- `++_size` where it is not -/
  | incSize (val : D) (rear : Nat)
  /-- the lock is given back, with the block assigned -/
  | unlockRear (val : D) (rear : Nat)
  | unlockFull
  /-- `if (!_size)` -/
  | testSize
  | decSize
  /-- `front = _front` -/
  | loadFront
  | incFront (front : Nat)
  | modFront (front : Nat)
  | unlockFront (front : Nat)
  | unlockEmpty
  deriving DecidableEq

/-- The section at whose lock a thread waits. -/
def OutPc.enter : OutPc D → Option (InPc D)
  | enqueue val => some (.loadRear val)
  | dequeue => some .testSize
  | _ => none

def OutPc.start : Call D → OutPc D → Option (OutPc D)
  | .enqueue val, idle => some (enqueue val)
  | .dequeue, idle => some dequeue
  | _, _ => none

/-- A step outside the sections: an access to a block, or the release of its lock. -/
def Blocks.step (b : Blocks n D) : OutPc D → Option (Blocks n D × OutPc D × List (Answer D))
  | .write rear val =>
    some (if h : rear < n then { b with blocks := Function.update b.blocks ⟨rear, h⟩ val }
      else { b with wild := true }, .written rear, [])
  | .written rear =>
    some (if h : rear < n then
        { b with
          blocklcks := Function.update b.blocklcks ⟨rear, h⟩ (b.blocklcks ⟨rear, h⟩).unlock }
      else { b with wild := true }, .idle, [.enqueued true])
  | .read front =>
    if h : front < n then some (b, .taken front (b.blocks ⟨front, h⟩), [])
    else some ({ b with wild := true }, .idle, [])
  | .taken front out =>
    some (if h : front < n then
        { b with
          blocklcks := Function.update b.blocklcks ⟨front, h⟩ (b.blocklcks ⟨front, h⟩).unlock }
      else { b with wild := true }, .idle, [.dequeued (some out)])
  | .idle | .enqueue _ | .dequeue => none

/-- A step of a section; `capacity` is `n`. -/
def Indices.step (n : Nat) (overwrite : Bool) (i : Indices) :
    InPc D → (Indices × InPc D) ⊕ (OutPc D × List (Answer D))
  | .loadRear val => .inl (i, .testFull val i.rear)
  | .testFull val rear =>
    .inl (i, if i.size = n then if overwrite then .incRear val rear true else .unlockFull
      else .incRear val rear false)
  | .incRear val rear full => .inl ({ i with rear := i.rear + 1 }, .modRear val rear full)
  | .modRear val rear full =>
    .inl ({ i with rear := i.rear % n }, if full then .pushFront val rear else .incSize val rear)
  | .pushFront val rear => .inl ({ i with front := i.front + 1 }, .wrapFront val rear)
  | .wrapFront val rear => .inl ({ i with front := i.front % n }, .unlockRear val rear)
  | .incSize val rear => .inl ({ i with size := i.size + 1 }, .unlockRear val rear)
  | .unlockRear val rear => .inr (.write rear val, [])
  | .unlockFull => .inr (.idle, [.enqueued false])
  | .testSize => .inl (i, if i.size = 0 then .unlockEmpty else .decSize)
  | .decSize => .inl ({ i with size := i.size - 1 }, .loadFront)
  | .loadFront => .inl (i, .incFront i.front)
  | .incFront front => .inl ({ i with front := i.front + 1 }, .modFront front)
  | .modFront front => .inl ({ i with front := i.front % n }, .unlockFront front)
  | .unlockFront front => .inr (.read front, [])
  | .unlockEmpty => .inr (.idle, [.dequeued none])

/-- The code of `enqueue` and `dequeue`. -/
def code (n : Nat) (D : Type*) (overwrite : Bool) :
    Code (Call D) Indices (Blocks n D) (OutPc D) (InPc D) (Answer D) where
  start := OutPc.start
  enter := OutPc.enter
  outer := Blocks.step
  inner := Indices.step n overwrite

/-! ## What a section does as a whole -/

/-- The section from its first point to its last. -/
def Indices.whole (n : Nat) (overwrite : Bool) (i : Indices) :
    InPc D → Indices × OutPc D × List (Answer D)
  | .loadRear val =>
    if i.size = n then
      if overwrite then
        ({ i with rear := (i.rear + 1) % n, front := (i.front + 1) % n }, .write i.rear val, [])
      else (i, .idle, [.enqueued false])
    else ({ i with rear := (i.rear + 1) % n, size := i.size + 1 }, .write i.rear val, [])
  | .testSize =>
    if i.size = 0 then (i, .idle, [.dequeued none])
    else ({ i with size := i.size - 1, front := (i.front + 1) % n }, .read i.front, [])
  | _ => (i, .idle, [])

theorem whole_completes (overwrite : Bool) (i : Indices) {o : OutPc D} {p : InPc D}
    (henter : o.enter = some p) :
    (code n D overwrite).Completes i p (i.whole n overwrite p) := by
  have hstep : ∀ {x y : Indices × InPc D} {z : Indices × InPc D},
      x.1.step n overwrite x.2 = .inl y →
      Relation.ReflTransGen (code n D overwrite).Inner y z →
      Relation.ReflTransGen (code n D overwrite).Inner x z :=
    fun hxy hyz => Relation.ReflTransGen.head hxy hyz
  cases o with
  | enqueue val =>
    obtain rfl := Option.some.inj henter
    by_cases hfull : i.size = n
    · cases overwrite with
      | true =>
        have htest : i.step n true (.testFull val i.rear) =
            .inl (i, .incRear val i.rear true) := by
          simp only [Indices.step, if_pos hfull, if_true]
        simp only [Indices.whole, if_pos hfull, if_true]
        exact ⟨.unlockRear val i.rear,
          hstep rfl (hstep htest (hstep rfl (hstep rfl (hstep rfl (hstep rfl .refl))))), rfl⟩
      | false =>
        have htest : i.step n false (.testFull val i.rear) = .inl (i, .unlockFull) := by
          simp only [Indices.step, if_pos hfull, Bool.false_eq_true, if_false]
        simp only [Indices.whole, if_pos hfull, Bool.false_eq_true, if_false]
        exact ⟨.unlockFull, hstep rfl (hstep htest .refl), rfl⟩
    · have htest : i.step n overwrite (.testFull val i.rear) =
          .inl (i, .incRear val i.rear false) := by
        simp only [Indices.step, if_neg hfull]
      simp only [Indices.whole, if_neg hfull]
      exact ⟨.unlockRear val i.rear,
        hstep rfl (hstep htest (hstep rfl (hstep rfl (hstep rfl .refl)))), rfl⟩
  | dequeue =>
    obtain rfl := Option.some.inj henter
    by_cases hempty : i.size = 0
    · have htest : i.step n overwrite (.testSize : InPc D) = .inl (i, .unlockEmpty) := by
        simp only [Indices.step, if_pos hempty]
      simp only [Indices.whole, if_pos hempty]
      exact ⟨.unlockEmpty, hstep htest .refl, rfl⟩
    · have htest : i.step n overwrite (.testSize : InPc D) = .inl (i, .decSize) := by
        simp only [Indices.step, if_neg hempty]
      simp only [Indices.whole, if_neg hempty]
      exact ⟨.unlockFront i.front,
        hstep htest (hstep rfl (hstep rfl (hstep rfl (hstep rfl .refl)))), rfl⟩
  | idle | write | written | read | taken => cases henter

/-! ## The queue with its index sections as single steps -/

/-- What a step of the queue reports. -/
def Event.seen : Event T D → T × Answer D
  | enqueued t result => (t, .enqueued result)
  | dequeued t _ out => (t, .dequeued (some out))
  | empty t => (t, .dequeued none)

/-- Where a thread is, without what the queue owed it. -/
def Pc.point : Pc n D → OutPc D
  | idle => .idle
  | enqueue val => .enqueue val
  | write rear val => .write rear val
  | written rear => .written rear
  | dequeue => .dequeue
  | read front _ => .read front
  | taken front _ out => .taken front out

def indices (q : Queue n D) : Indices := { front := q.front, rear := q.rear, size := q.size }

/-- The state of the queue as one with its sections whole. -/
def System.view (y : System n D T) : Coarse Indices (Blocks n D) (OutPc D) (Answer D) T :=
  { guarded := y.queue.indices
    rest := { blocks := y.queue.blocks, blocklcks := y.queue.blocklcks, wild := false }
    pcs := fun t => (y.pcs t).point
    log := y.log.map Event.seen }

/-- The same action. -/
def act : Section.Action (Call D) T → Action D T
  | .start t (.enqueue val) => .enqueue t val
  | .start t .dequeue => .dequeue t
  | .run t => .run t

theorem view_goto [DecidableEq T] (y : System n D T) (q : Queue n D) (order : List D) (t : T)
    (p : Pc n D) (new : List (Event T D)) :
    (y.goto q order t p new).view =
      { guarded := q.indices
        rest := { blocks := q.blocks, blocklcks := q.blocklcks, wild := false }
        pcs := Function.update y.view.pcs t p.point
        log := y.view.log ++ new.map Event.seen } := by
  unfold System.view System.goto
  simp only [List.map_append, Coarse.mk.injEq, true_and, and_true]
  funext u
  by_cases hu : u = t
  · rw [hu, Function.update_self, Function.update_self]
  · rw [Function.update_of_ne hu, Function.update_of_ne hu]

/-- A step of the queue is the step of its view. -/
theorem view_step [NeZero n] [DecidableEq T] (overwrite : Bool) (y : System n D T)
    (a : Section.Action (Call D) T) :
    Coarse.step (code n D overwrite) (Indices.whole n overwrite) y.view a =
      (y.step overwrite (act a)).map System.view := by
  have hpoint : ∀ t, y.view.pcs t = (y.pcs t).point := fun _ => rfl
  cases a with
  | start t call =>
    cases call with
    | enqueue val =>
      simp only [Coarse.step, act, System.step, hpoint, code]
      cases y.pcs t with
      | idle =>
        simp only [Pc.point, OutPc.start, Option.map_some, view_goto, List.map_nil, List.append_nil]
        rfl
      | _ => rfl
    | dequeue =>
      simp only [Coarse.step, act, System.step, hpoint, code]
      cases y.pcs t with
      | idle =>
        simp only [Pc.point, OutPc.start, Option.map_some, view_goto, List.map_nil, List.append_nil]
        rfl
      | _ => rfl
  | run t =>
    simp only [Coarse.step, act, System.step, hpoint, code]
    cases y.pcs t with
    | idle => rfl
    | enqueue val =>
      by_cases hfull : y.queue.size = n
      · cases overwrite with
        | true =>
          rw [enqueueIndex_overwrite hfull]
          simp only [Pc.point, OutPc.enter, Option.map_some, view_goto]
          simp [Indices.whole, System.view, indices, hfull, next]
        | false =>
          rw [enqueueIndex_full hfull]
          simp only [Pc.point, OutPc.enter, Option.map_some, view_goto]
          simp [Indices.whole, System.view, indices, hfull, Event.seen]
      · rw [enqueueIndex_room overwrite hfull]
        simp only [Pc.point, OutPc.enter, Option.map_some, view_goto]
        simp [Indices.whole, System.view, indices, hfull, next]
    | write rear val =>
      simp only [Pc.point, OutPc.enter, Option.map_some, view_goto]
      simp [Blocks.step, System.view, Queue.write, indices]
    | written rear =>
      simp only [Pc.point, OutPc.enter, Option.map_some, view_goto]
      simp [Blocks.step, System.view, Queue.release, indices, Event.seen]
    | dequeue =>
      by_cases hempty : y.queue.size = 0
      · rw [dequeueIndex_empty hempty]
        simp only [Pc.point, OutPc.enter, Option.map_some, view_goto]
        simp [Indices.whole, System.view, indices, hempty, Event.seen]
      · rw [dequeueIndex_some hempty]
        simp only [Pc.point, OutPc.enter, Option.map_some, view_goto]
        simp [Indices.whole, System.view, indices, hempty, next]
    | read front due =>
      simp only [Pc.point, OutPc.enter, Option.map_some, view_goto]
      simp [Blocks.step, System.view, indices]
    | taken front due out =>
      simp only [Pc.point, OutPc.enter, Option.map_some, view_goto]
      simp [Blocks.step, System.view, Queue.release, indices, Event.seen]

/-- A new queue, its lock free. -/
def newQueue (blocks : Fin n → D) : Fine Indices (Blocks n D) (OutPc D) (InPc D) (Answer D) T :=
  Fine.init { front := 0, rear := 0, size := 0 }
    { blocks := blocks, blocklcks := fun _ => .new, wild := false } .idle

theorem view_init [NeZero n] (blocks : Fin n → D) :
    (System.init blocks : System n D T).view =
      Coarse.init { front := 0, rear := 0, size := 0 }
        { blocks := blocks, blocklcks := fun _ => .new, wild := false } .idle := by
  simp [System.view, System.init, Queue.init, indices, Coarse.init, Pc.point]

/-- **The index sections are atomic.** Every run of the queue access by access, with any
interleaving, is one in which an index section is a single step: it reports the same, leaves
the same in the blocks and in their locks, and in the indices once the lock is free. At most
one thread is in a section, and no access goes past the blocks. -/
theorem index_sections_atomic [NeZero n] [DecidableEq T] {overwrite : Bool} {blocks : Fin n → D}
    {tr : List (Fine Indices (Blocks n D) (OutPc D) (InPc D) (Answer D) T ×
      Section.Action (Call D) T)}
    {x : Fine Indices (Blocks n D) (OutPc D) (InPc D) (Answer D) T}
    (h : Run (Fine.step (code n D overwrite)) (newQueue blocks) tr x) :
    ∃ (tr' : _) (y : System n D T), Run (System.step overwrite) (System.init blocks) tr' y ∧
      x.log = y.log.map Event.seen ∧
      x.rest = { blocks := y.queue.blocks, blocklcks := y.queue.blocklcks, wild := false } ∧
      (x.lock = false → x.guarded = y.queue.indices) ∧
      (∀ t p, x.pcs t = .outside p → (y.pcs t).point = p) ∧
      ∀ t u p q, x.pcs t = .inside p → x.pcs u = .inside q → t = u := by
  have hwhole : ∀ i (o : OutPc D) p, True → (code n D overwrite).enter o = some p →
      (code n D overwrite).Completes i p (i.whole n overwrite p) ∧ True :=
    fun i _ _ _ henter => ⟨whole_completes overwrite i henter, trivial⟩
  obtain ⟨tr', m, hrun, hmatches⟩ := atomic (I := fun _ => True) trivial hwhole h
  rw [← view_init] at hrun
  obtain ⟨tr'', y, hy, rfl⟩ := hrun.lift (fun y a => view_step overwrite y a)
  exact ⟨tr'', y, hy, hmatches.log, hmatches.rest, hmatches.free, hmatches.outside, hmatches.one⟩

/-- A thread waits for the lock while another goes through its section, and dequeues the value
that the other has not written yet. -/
def interleaved : List (Section.Action (Call Nat) Bool) :=
  [.start true (.enqueue 7), .start false .dequeue, .run true, .run false, .run true, .run true] ++
    List.replicate 4 (.run true) ++ List.replicate 9 (.run false) ++ List.replicate 2 (.run true)

theorem index_sections_atomic_interleaved :
    ∃ (tr : _) (x : Fine Indices (Blocks 2 Nat) (OutPc Nat) (InPc Nat) (Answer Nat) Bool),
      Run (Fine.step (code 2 Nat false)) (newQueue fun _ => 0) tr x ∧
      tr.map Prod.snd = interleaved ∧
      x.log = [(false, .dequeued (some 0)), (true, .enqueued true)] ∧
      ∃ (tr' : _) (y : System 2 Nat Bool),
        Run (System.step false) (System.init fun _ => 0) tr' y ∧ x.log = y.log.map Event.seen := by
  have hrun : ∃ (tr : _) (x : Fine Indices (Blocks 2 Nat) (OutPc Nat) (InPc Nat) (Answer Nat) Bool),
      Run (Fine.step (code 2 Nat false)) (newQueue fun _ => 0) tr x ∧
      tr.map Prod.snd = interleaved ∧
      x.log = [(false, .dequeued (some 0)), (true, .enqueued true)] :=
    Run.of_exec_any _ (by decide)
  obtain ⟨tr, x, hr, ha, hlog⟩ := hrun
  obtain ⟨tr', y, hy, hsame, -⟩ := index_sections_atomic hr
  exact ⟨tr, x, hr, ha, hlog, tr', y, hy, hsame⟩

end Vee.Locked.Queue
