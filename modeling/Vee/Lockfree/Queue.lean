import Vee.Lib.Transition
import Vee.Lockfree.Slots

/- `vee::lockfree::queue` (vee/lockfree/queue.h): two `atqueue<size_t>` that
   circulate the ids of `capacity` blocks, `_cont_queue` with the free ones and
   `_out_queue` with those that hold a value, over the array `_cont`.

   The program points of a call are those of the inner `atqueue` call it is in,
   and the accesses to `_cont[block_id]` between them. The argument object of
   `enqueue` is modelled too: forwarding it leaves `moved value` of an rvalue and
   the value of an lvalue, and the call reports what it leaves (`left`). Calls
   and results are logged in order. -/
namespace Vee.Lockfree

namespace AtQueue

variable {w n : Nat} {D : Type*}

/-- A call of `enqueue` taking its steps with no other thread running. -/
def enqueueAlone : Nat → AtQueue n D → EnqueuePc w n D → AtQueue n D × Next (EnqueuePc w n D) Bool
  | 0, q, pc => (q, .goto pc)
  | k + 1, q, pc =>
    match q.enqueueStep pc with
    | (q', .goto pc') => enqueueAlone k q' pc'
    | (q', .returned result) => (q', .returned result)

/-- On a free slot the call takes five steps and succeeds. -/
theorem enqueueAlone_free (q : AtQueue n D) (v : D) (retries : BitVec w)
    (h : q.ptrs q.rear = false) :
    enqueueAlone 5 q (.start v retries) =
      ({ front := q.front
         rear := wrap q.rear
         cont := Function.update q.cont q.rear v
         ptrs := Function.update q.ptrs q.rear true }, .returned true) := by
  simp [enqueueAlone, EnqueuePc.start, enqueueStep, h]

/-- A ring whose slot `i` holds `i`, none of them taken out. -/
def full [NeZero n] : AtQueue n Nat :=
  { front := 0, rear := 0, cont := fun i => i, ptrs := fun _ => true }

end AtQueue

namespace Queue
open AtQueue

/-- The loop of `queue::queue` over the block ids; `none` is the `runtime_error`. -/
def fillFree (w : Nat) {n : Nat} : List Nat → AtQueue n Nat → Option (AtQueue n Nat)
  | [], q => some q
  | i :: is, q =>
    match enqueueAlone 5 q (.start i (0 : BitVec w)) with
    | (q', .returned true) => fillFree w is q'
    | _ => none

/-- `_cont_queue` as the constructor leaves it. -/
def construct (w n : Nat) [NeZero n] : Option (AtQueue n Nat) :=
  fillFree w (List.range n) AtQueue.init

/-- `_cont_queue` while the constructor has put in the ids below `k`. -/
def filled (n k : Nat) [NeZero n] : AtQueue n Nat :=
  { front := 0
    rear := ⟨k % n, Nat.mod_lt k (Nat.pos_of_neZero n)⟩
    cont := fun i => if i < k then i else 0
    ptrs := fun i => decide (i < k) }

/-- Putting in the next id. -/
theorem filled_succ (n k : Nat) [NeZero n] (h : k < n) :
    { front := (filled n k).front
      rear := wrap (filled n k).rear
      cont := Function.update (filled n k).cont (filled n k).rear k
      ptrs := Function.update (filled n k).ptrs (filled n k).rear true } = filled n (k + 1) := by
  have hk : k % n = k := Nat.mod_eq_of_lt h
  have hrear : ∀ i : Fin n, i = (filled n k).rear ↔ i.val = k := by
    intro i
    simp [filled, Fin.ext_iff, hk]
  have hcont : Function.update (filled n k).cont (filled n k).rear k =
      (filled n (k + 1)).cont := by
    funext i
    simp only [Function.update_apply, filled]
    grind
  have hptrs : Function.update (filled n k).ptrs (filled n k).rear true =
      (filled n (k + 1)).ptrs := by
    funext i
    simp only [Function.update_apply, filled]
    grind
  rw [hcont, hptrs]
  simp [filled, wrap, hk]

theorem fillFree_filled (w n : Nat) [NeZero n] (m k : Nat) (h : k + m ≤ n) :
    fillFree w (List.range' k m) (filled n k) = some (filled n (k + m)) := by
  induction m generalizing k with
  | zero => rfl
  | succ m ih =>
    have hfree : (filled n k).ptrs (filled n k).rear = false := by
      simp [filled, Nat.mod_eq_of_lt (show k < n by omega)]
    rw [List.range'_succ, fillFree, enqueueAlone_free _ _ _ hfree, filled_succ n k (by omega)]
    simp only
    rw [ih (k + 1) (by omega), show k + 1 + m = k + (m + 1) by omega]

/-- The constructor does not throw, and leaves every block free. -/
theorem construct_full (w n : Nat) [NeZero n] : construct w n = some AtQueue.full := by
  have h := fillFree_filled w n n 0 (by omega)
  rw [← List.range_eq_range', Nat.zero_add] at h
  have hinit : (AtQueue.init : AtQueue n Nat) = filled n 0 := by
    simp [AtQueue.init, filled]
  have hfull : filled n n = AtQueue.full := by
    simp [AtQueue.full, filled]
  rw [construct, hinit, h, hfull]

/-- The program points of `queue::enqueue` and `queue::dequeue`. -/
inductive Pc (w n : Nat) (D : Type*) where
  | idle
  /-- in `_cont_queue.dequeue(block_id)` -/
  | takeFree (value : D) (rvalue : Bool) (retries counter : BitVec w) (pc : DequeuePc n Nat)
  /-- `_cont[block_id] = std::forward<DataRef>(data)` -/
  | fill (value : D) (rvalue : Bool) (block : Nat)
  /-- in `_out_queue.enqueue(block_id)`; the argument object holds `left` -/
  | putOut (value left : D) (pc : EnqueuePc w n Nat)
  /-- in `_out_queue.dequeue(block_id)` -/
  | takeOut (pc : DequeuePc n Nat)
  /-- `out = _cont[block_id]` -/
  | drain (block : Nat)
  /-- in `_cont_queue.enqueue(block_id)` -/
  | putFree (out : D) (pc : EnqueuePc w n Nat)
  deriving DecidableEq, Repr

/-- Calls and what they returned; `left` is what the argument object holds then. -/
inductive Event (T D : Type*) where
  | callEnqueue (t : T) (value : D) (rvalue : Bool)
  | enqueued (t : T) (value : D) (result : Bool) (left : D)
  | callDequeue (t : T)
  | dequeued (t : T) (result : Option D)
  deriving DecidableEq, Repr

/-- Start a call in an idle thread, or let a thread take the next step of its call. -/
inductive Action (w : Nat) (D T : Type*) where
  | enqueue (t : T) (value : D) (rvalue : Bool) (retries : BitVec w)
  | dequeue (t : T)
  | run (t : T)
  deriving DecidableEq, Repr

/-- The thread that moves. -/
def Action.thread {w : Nat} {D T : Type*} : Action w D T → T
  | enqueue t _ _ _ | dequeue t | run t => t

/-- Thread `t` starts a call and takes the next `k` steps of it. -/
def call {w : Nat} {D T : Type*} (start : Action w D T) (t : T) (k : Nat) :
    List (Action w D T) :=
  start :: List.replicate k (.run t)

structure System (w n : Nat) (D T : Type*) where
  cont : Nat → D
  contQueue : AtQueue n Nat
  outQueue : AtQueue n Nat
  pcs : T → Pc w n D
  log : List (Event T D)

variable {w n : Nat} {D T : Type*}

/-- A constructed queue and no call in progress. -/
def System.init [NeZero n] [Inhabited D] : System w n D T :=
  { cont := fun _ => default
    contQueue := AtQueue.full
    outQueue := AtQueue.init
    pcs := fun _ => .idle
    log := [] }

section
variable [DecidableEq T] (moved : D → D) (s : System w n D T) (t : T)

/-- The state with thread `t` at `pc`. -/
def System.setPc (pc : Pc w n D) : System w n D T := { s with pcs := Function.update s.pcs t pc }

/-- The state with thread `t` at `pc` and `e` logged: `t` has called or returned. -/
def System.emit (pc : Pc w n D) (e : Event T D) : System w n D T :=
  { s with pcs := Function.update s.pcs t pc, log := s.log ++ [e] }

/-- `if (_cont_queue.dequeue(block_id)) … else ++counter;` and the loop test. -/
def System.afterTakeFree (value : D) (rvalue : Bool) (retries counter : BitVec w) :
    AtQueue n Nat × Next (DequeuePc n Nat) (Option Nat) → System w n D T
  | (q, .goto pc) =>
    { s with contQueue := q }.setPc t (.takeFree value rvalue retries counter pc)
  | (q, .returned (some block)) => { s with contQueue := q }.setPc t (.fill value rvalue block)
  | (q, .returned none) =>
    if counter + 1 ≤ retries then
      { s with contQueue := q }.setPc t (.takeFree value rvalue retries (counter + 1) .load)
    else { s with contQueue := q }.emit t .idle (.enqueued t value false value)

/-- `while(!_out_queue.enqueue(block_id)) {} return true;` -/
def System.afterPutOut (value left : D) (block : Nat) :
    AtQueue n Nat × Next (EnqueuePc w n Nat) Bool → System w n D T
  | (q, .goto pc) => { s with outQueue := q }.setPc t (.putOut value left pc)
  | (q, .returned false) => { s with outQueue := q }.setPc t (.putOut value left (.start block 0))
  | (q, .returned true) => { s with outQueue := q }.emit t .idle (.enqueued t value true left)

/-- `if (!_out_queue.dequeue(block_id)) return false;` -/
def System.afterTakeOut :
    AtQueue n Nat × Next (DequeuePc n Nat) (Option Nat) → System w n D T
  | (q, .goto pc) => { s with outQueue := q }.setPc t (.takeOut pc)
  | (q, .returned (some block)) => { s with outQueue := q }.setPc t (.drain block)
  | (q, .returned none) => { s with outQueue := q }.emit t .idle (.dequeued t none)

/-- `while (!_cont_queue.enqueue(block_id)) {} return true;` -/
def System.afterPutFree (out : D) (block : Nat) :
    AtQueue n Nat × Next (EnqueuePc w n Nat) Bool → System w n D T
  | (q, .goto pc) => { s with contQueue := q }.setPc t (.putFree out pc)
  | (q, .returned false) => { s with contQueue := q }.setPc t (.putFree out (.start block 0))
  | (q, .returned true) => { s with contQueue := q }.emit t .idle (.dequeued t (some out))

/-- The step of the system. -/
def System.step : Action w D T → Option (System w n D T)
  | .enqueue t value rvalue retries =>
    match s.pcs t with
    | .idle =>
      some (s.emit t (.takeFree value rvalue retries 0 .load) (.callEnqueue t value rvalue))
    | _ => none
  | .dequeue t =>
    match s.pcs t with
    | .idle => some (s.emit t (.takeOut .load) (.callDequeue t))
    | _ => none
  | .run t =>
    match s.pcs t with
    | .idle => none
    | .takeFree value rvalue retries counter pc =>
      some (s.afterTakeFree t value rvalue retries counter (s.contQueue.dequeueStep id pc))
    | .fill value rvalue block =>
      some ({ s with cont := Function.update s.cont block value }.setPc t
        (.putOut value (if rvalue then moved value else value) (.start block 0)))
    | .putOut value left pc =>
      some (s.afterPutOut t value left pc.value (s.outQueue.enqueueStep pc))
    | .takeOut pc => some (s.afterTakeOut t (s.outQueue.dequeueStep id pc))
    | .drain block =>
      some ({ s with cont := Function.update s.cont block (moved (s.cont block)) }.setPc t
        (.putFree (s.cont block) (.start block 0)))
    | .putFree out pc => some (s.afterPutFree t out pc.value (s.contQueue.enqueueStep pc))

end

/-! ## The two rings as the threads use them -/

/-- What a thread is doing with `_cont_queue`. -/
def Pc.onCont : Pc w n D → AtQueue.Pc w n Nat
  | takeFree _ _ _ _ pc => .dequeue pc
  | putFree _ pc => .enqueue pc
  | _ => .idle

/-- What a thread is doing with `_out_queue`. -/
def Pc.onOut : Pc w n D → AtQueue.Pc w n Nat
  | putOut _ _ pc => .enqueue pc
  | takeOut pc => .dequeue pc
  | _ => .idle

def System.onCont (s : System w n D T) (t : T) : AtQueue.Pc w n Nat := (s.pcs t).onCont

def System.onOut (s : System w n D T) (t : T) : AtQueue.Pc w n Nat := (s.pcs t).onOut

/-- The id in the local `block_id` of the call, once the inner `dequeue` has
assigned it and until the inner `enqueue` publishes it. -/
def Pc.block : Pc w n D → Option Nat
  | takeFree _ _ _ _ (.clear _ b) | takeOut (.clear _ b) | fill _ _ b | drain b => some b
  | putOut _ _ pc | putFree _ pc => some pc.value
  | _ => none

/-- The two kinds of call. -/
inductive Side where
  | producer
  | consumer
  deriving DecidableEq, Repr

/-- Whose call a program point belongs to. -/
def Pc.side : Pc w n D → Option Side
  | idle => none
  | takeFree .. | fill .. | putOut .. => some .producer
  | takeOut .. | drain .. | putFree .. => some .consumer

/-- The id a call holds between the two rings. -/
def Pc.held : Pc w n D → List Nat
  | fill _ _ b | drain b => [b]
  | putOut _ _ pc | putFree _ pc => [pc.value]
  | _ => []

/-- The value a `dequeue` is taking out. -/
def Pc.taking (cont : Nat → D) : Pc w n D → List D
  | drain b => [cont b]
  | putFree out _ => [out]
  | _ => []

/-- The winning exchange of the step on either ring, if it is one, is clean. -/
def System.Clean (s : System w n D T) : Action w D T → Prop
  | .run t =>
    AtQueue.Clean s.contQueue s.onCont t ∧ AtQueue.Clean s.outQueue s.onOut t
  | _ => True

instance [Fintype T] (s : System w n D T) : ∀ a, Decidable (s.Clean a)
  | .run _ => inferInstanceAs (Decidable (_ ∧ _))
  | .enqueue .. | .dequeue .. => isTrue trivial

/-! ## What a step can do -/

section
variable [DecidableEq T]

/-- Every step of the system. A step inside a call of an inner `atqueue` is a
`Move` of that ring; the others are the calls and returns of the inner calls,
the accesses to `_cont`, and the calls and returns of the queue itself. -/
inductive Stepped (moved : D → D) (s : System w n D T) : Action w D T → System w n D T → Prop where
  | callEnqueue (t v rvalue retries) : s.pcs t = .idle →
      Stepped moved s (.enqueue t v rvalue retries)
        (s.emit t (.takeFree v rvalue retries 0 .load) (.callEnqueue t v rvalue))
  | callDequeue (t) : s.pcs t = .idle →
      Stepped moved s (.dequeue t) (s.emit t (.takeOut .load) (.callDequeue t))
  | takeFree (t v rvalue retries counter pc pc' q) :
      s.pcs t = .takeFree v rvalue retries counter pc →
      Move (w := w) id s.contQueue (.dequeue pc) q (.dequeue pc') →
      Stepped moved s (.run t)
        ({ s with contQueue := q }.setPc t (.takeFree v rvalue retries counter pc'))
  | noneFree (t v rvalue retries counter i) :
      s.pcs t = .takeFree v rvalue retries counter (.check i) → s.contQueue.ptrs i = false →
      counter + 1 ≤ retries →
      Stepped moved s (.run t) (s.setPc t (.takeFree v rvalue retries (counter + 1) .load))
  | refused (t v rvalue retries counter i) :
      s.pcs t = .takeFree v rvalue retries counter (.check i) → s.contQueue.ptrs i = false →
      ¬ counter + 1 ≤ retries →
      Stepped moved s (.run t) (s.emit t .idle (.enqueued t v false v))
  | gotFree (t v rvalue retries counter i b) :
      s.pcs t = .takeFree v rvalue retries counter (.clear i b) →
      Stepped moved s (.run t)
        ({ s with contQueue := { s.contQueue with
            ptrs := Function.update s.contQueue.ptrs i false } }.setPc t (.fill v rvalue b))
  | fill (t v rvalue b) : s.pcs t = .fill v rvalue b →
      Stepped moved s (.run t)
        ({ s with cont := Function.update s.cont b v }.setPc t
          (.putOut v (if rvalue then moved v else v) (.start b 0)))
  | putOut (t v left pc pc' q) : s.pcs t = .putOut v left pc →
      Move id s.outQueue (.enqueue pc) q (.enqueue pc') →
      Stepped moved s (.run t) ({ s with outQueue := q }.setPc t (.putOut v left pc'))
  | outFull (t v left b r c i) : s.pcs t = .putOut v left (.check b r c i) →
      s.outQueue.ptrs i = true →
      Stepped moved s (.run t) (s.setPc t (.putOut v left (.start b 0)))
  | enqueued (t v left b i) : s.pcs t = .putOut v left (.publish b i) →
      Stepped moved s (.run t)
        ({ s with outQueue := { s.outQueue with
            ptrs := Function.update s.outQueue.ptrs i true } }.emit t .idle
          (.enqueued t v true left))
  | takeOut (t pc pc' q) : s.pcs t = .takeOut pc →
      Move (w := w) id s.outQueue (.dequeue pc) q (.dequeue pc') →
      Stepped moved s (.run t) ({ s with outQueue := q }.setPc t (.takeOut pc'))
  | noneOut (t i) : s.pcs t = .takeOut (.check i) → s.outQueue.ptrs i = false →
      Stepped moved s (.run t) (s.emit t .idle (.dequeued t none))
  | gotOut (t i b) : s.pcs t = .takeOut (.clear i b) →
      Stepped moved s (.run t)
        ({ s with outQueue := { s.outQueue with
            ptrs := Function.update s.outQueue.ptrs i false } }.setPc t (.drain b))
  | drain (t b) : s.pcs t = .drain b →
      Stepped moved s (.run t)
        ({ s with cont := Function.update s.cont b (moved (s.cont b)) }.setPc t
          (.putFree (s.cont b) (.start b 0)))
  | putFree (t out pc pc' q) : s.pcs t = .putFree out pc →
      Move id s.contQueue (.enqueue pc) q (.enqueue pc') →
      Stepped moved s (.run t) ({ s with contQueue := q }.setPc t (.putFree out pc'))
  | contFull (t out b r c i) : s.pcs t = .putFree out (.check b r c i) →
      s.contQueue.ptrs i = true →
      Stepped moved s (.run t) (s.setPc t (.putFree out (.start b 0)))
  | dequeued (t out b i) : s.pcs t = .putFree out (.publish b i) →
      Stepped moved s (.run t)
        ({ s with contQueue := { s.contQueue with
            ptrs := Function.update s.contQueue.ptrs i true } }.emit t .idle
          (.dequeued t (some out)))

theorem System.step_cases {moved : D → D} {s s' : System w n D T} {a : Action w D T}
    (h : s.step moved a = some s') : Stepped moved s a s' := by
  cases a with
  | enqueue t v rvalue retries =>
    simp only [step] at h
    split at h
    · obtain rfl := Option.some.inj h
      exact .callEnqueue t v rvalue retries ‹_›
    · cases h
  | dequeue t =>
    simp only [step] at h
    split at h
    · obtain rfl := Option.some.inj h
      exact .callDequeue t ‹_›
    · cases h
  | run t =>
    simp only [step] at h
    split at h
    · cases h
    · rename_i v rvalue retries counter pc ht
      obtain rfl := Option.some.inj h
      generalize hq : s.contQueue.dequeueStep id pc = r
      obtain ⟨q, next⟩ := r
      cases next with
      | goto pc' => exact .takeFree t v rvalue retries counter pc pc' q ht (dequeueStep_goto hq)
      | returned result =>
        cases result with
        | none =>
          obtain ⟨rfl, i, rfl, hi⟩ := dequeueStep_none hq
          simp only [afterTakeFree]
          split
          · exact .noneFree t v rvalue retries counter i ht hi ‹_›
          · exact .refused t v rvalue retries counter i ht hi ‹_›
        | some b =>
          obtain ⟨i, rfl, rfl⟩ := dequeueStep_some hq
          exact .gotFree t v rvalue retries counter i b ht
    · rename_i v rvalue b ht
      obtain rfl := Option.some.inj h
      exact .fill t v rvalue b ht
    · rename_i v left pc ht
      obtain rfl := Option.some.inj h
      generalize hq : s.outQueue.enqueueStep pc = r
      obtain ⟨q, next⟩ := r
      cases next with
      | goto pc' => exact .putOut t v left pc pc' q ht (enqueueStep_goto hq)
      | returned result =>
        cases result with
        | false =>
          obtain ⟨rfl, b, r, c, i, rfl, hi⟩ := enqueueStep_false hq
          exact .outFull t v left b r c i ht hi
        | true =>
          obtain ⟨b, i, rfl, rfl⟩ := enqueueStep_true hq
          exact .enqueued t v left b i ht
    · rename_i pc ht
      obtain rfl := Option.some.inj h
      generalize hq : s.outQueue.dequeueStep id pc = r
      obtain ⟨q, next⟩ := r
      cases next with
      | goto pc' => exact .takeOut t pc pc' q ht (dequeueStep_goto hq)
      | returned result =>
        cases result with
        | none =>
          obtain ⟨rfl, i, rfl, hi⟩ := dequeueStep_none hq
          exact .noneOut t i ht hi
        | some b =>
          obtain ⟨i, rfl, rfl⟩ := dequeueStep_some hq
          exact .gotOut t i b ht
    · rename_i b ht
      obtain rfl := Option.some.inj h
      exact .drain t b ht
    · rename_i out pc ht
      obtain rfl := Option.some.inj h
      generalize hq : s.contQueue.enqueueStep pc = r
      obtain ⟨q, next⟩ := r
      cases next with
      | goto pc' => exact .putFree t out pc pc' q ht (enqueueStep_goto hq)
      | returned result =>
        cases result with
        | false =>
          obtain ⟨rfl, b, r, c, i, rfl, hi⟩ := enqueueStep_false hq
          exact .contFull t out b r c i ht hi
        | true =>
          obtain ⟨b, i, rfl, rfl⟩ := enqueueStep_true hq
          exact .dequeued t out b i ht

/-- Only the thread that moves changes its point. -/
theorem Stepped.pcs {moved : D → D} {s s' : System w n D T} {a : Action w D T}
    (h : Stepped moved s a s') : ∃ p, s'.pcs = Function.update s.pcs a.thread p := by
  cases h <;> exact ⟨_, rfl⟩

/-- What the step leaves alone in its own thread it leaves alone in all. -/
theorem Stepped.pcs_same {moved : D → D} {s s' : System w n D T} {a : Action w D T} {β : Type*}
    (h : Stepped moved s a s') (f : Pc w n D → β)
    (hf : f (s'.pcs a.thread) = f (s.pcs a.thread)) (t : T) : f (s'.pcs t) = f (s.pcs t) := by
  obtain ⟨p, hp⟩ := h.pcs
  by_cases ht : t = a.thread
  · rw [ht, hf]
  · rw [hp, Function.update_of_ne ht]

theorem onCont_update {s s' : System w n D T} {t : T} {p : Pc w n D}
    (h : s'.pcs = Function.update s.pcs t p) :
    s'.onCont = Function.update s.onCont t p.onCont := by
  funext u
  by_cases hu : u = t
  · simp [System.onCont, h, hu]
  · simp [System.onCont, h, hu]

theorem onOut_update {s s' : System w n D T} {t : T} {p : Pc w n D}
    (h : s'.pcs = Function.update s.pcs t p) :
    s'.onOut = Function.update s.onOut t p.onOut := by
  funext u
  by_cases hu : u = t
  · simp [System.onOut, h, hu]
  · simp [System.onOut, h, hu]

@[simp] theorem onCont_setPc (s : System w n D T) (t : T) (p : Pc w n D) :
    (s.setPc t p).onCont = Function.update s.onCont t p.onCont := onCont_update rfl

@[simp] theorem onCont_emit (s : System w n D T) (t : T) (p : Pc w n D) (e : Event T D) :
    (s.emit t p e).onCont = Function.update s.onCont t p.onCont := onCont_update rfl

@[simp] theorem onOut_setPc (s : System w n D T) (t : T) (p : Pc w n D) :
    (s.setPc t p).onOut = Function.update s.onOut t p.onOut := onOut_update rfl

@[simp] theorem onOut_emit (s : System w n D T) (t : T) (p : Pc w n D) (e : Event T D) :
    (s.emit t p e).onOut = Function.update s.onOut t p.onOut := onOut_update rfl

/-- The call has a block for the slot that it has reserved. -/
theorem Pc.block_of_writing {p : Pc w n D} {i : Fin n}
    (h : p.onCont.writing = some i ∨ p.onOut.writing = some i) : ∃ b, p.block = some b := by
  cases p with
  | putOut v left pc | putFree out pc => exact ⟨_, rfl⟩
  | _ => rcases h with h | h <;> cases h

/-- Producers take blocks out of `_cont_queue`. -/
theorem Pc.side_of_reading_cont {p : Pc w n D} {i : Fin n} (h : p.onCont.reading = some i) :
    p.side = some .producer := by
  cases p with
  | takeFree v rvalue r c pc => rfl
  | _ => cases h

/-- Consumers take blocks out of `_out_queue`. -/
theorem Pc.side_of_reading_out {p : Pc w n D} {i : Fin n} (h : p.onOut.reading = some i) :
    p.side = some .consumer := by
  cases p with
  | takeOut pc => rfl
  | _ => cases h

/-- What a step does to `_cont_queue`. -/
theorem Stepped.cont {moved : D → D} {s s' : System w n D T} {a : Action w D T}
    (h : Stepped moved s a s') :
    ClientStep id s.contQueue (s.onCont a.thread) s'.contQueue (s'.onCont a.thread) := by
  cases h with
  | takeFree t v rvalue retries counter pc pc' q ht hm | putFree t out pc pc' q ht hm =>
    apply ClientStep.move
    simpa [Action.thread, System.onCont, System.setPc, ht, Pc.onCont] using hm
  | gotFree t v rvalue retries counter i b ht =>
    apply ClientStep.move
    simpa [Action.thread, System.onCont, System.setPc, ht, Pc.onCont] using Move.clear i b
  | dequeued t out b i ht =>
    apply ClientStep.move
    simpa [Action.thread, System.onCont, System.emit, ht, Pc.onCont] using Move.publish b i
  | _ =>
    apply ClientStep.away
    · rfl
    all_goals simp_all [Action.thread, System.onCont, System.emit, System.setPc, Pc.onCont,
      AtQueue.Pc.Quiet, AtQueue.Pc.writing, AtQueue.Pc.reading, EnqueuePc.start]

/-- What a step does to `_out_queue`. -/
theorem Stepped.out {moved : D → D} {s s' : System w n D T} {a : Action w D T}
    (h : Stepped moved s a s') :
    ClientStep id s.outQueue (s.onOut a.thread) s'.outQueue (s'.onOut a.thread) := by
  cases h with
  | takeOut t pc pc' q ht hm | putOut t v left pc pc' q ht hm =>
    apply ClientStep.move
    simpa [Action.thread, System.onOut, System.setPc, ht, Pc.onOut] using hm
  | gotOut t i b ht =>
    apply ClientStep.move
    simpa [Action.thread, System.onOut, System.setPc, ht, Pc.onOut] using Move.clear i b
  | enqueued t v left b i ht =>
    apply ClientStep.move
    simpa [Action.thread, System.onOut, System.emit, ht, Pc.onOut] using Move.publish b i
  | _ =>
    apply ClientStep.away
    · rfl
    all_goals simp_all [Action.thread, System.onOut, System.emit, System.setPc, Pc.onOut,
      AtQueue.Pc.Quiet, AtQueue.Pc.writing, AtQueue.Pc.reading, EnqueuePc.start]

/-- The holders of slots in both rings are alone in them. -/
structure System.Slots (s : System w n D T) : Prop where
  cont : AtQueue.Slots s.contQueue s.onCont
  out : AtQueue.Slots s.outQueue s.onOut

omit [DecidableEq T] in
theorem System.slots_init [NeZero n] [Inhabited D] : (System.init : System w n D T).Slots where
  cont := .init fun _ => rfl
  out := .init fun _ => rfl

/-- A clean step is clean in both rings; a step that starts a call is no exchange. -/
theorem Stepped.clean {moved : D → D} {s s' : System w n D T} {a : Action w D T}
    (h : Stepped moved s a s') (hc : s.Clean a) :
    AtQueue.Clean s.contQueue s.onCont a.thread ∧ AtQueue.Clean s.outQueue s.onOut a.thread := by
  cases h with
  | callEnqueue t v rvalue retries ht | callDequeue t ht =>
    simp [AtQueue.Clean, Action.thread, System.onCont, System.onOut, ht, Pc.onCont, Pc.onOut]
  | _ => exact hc

theorem System.Slots.step {moved : D → D} {s s' : System w n D T} {a : Action w D T}
    (hs : s.Slots) (hc : s.Clean a) (h : Stepped moved s a s') : s'.Slots := by
  obtain ⟨hcont, hout⟩ := h.clean hc
  obtain ⟨p, hp⟩ := h.pcs
  refine ⟨?_, ?_⟩
  · rw [onCont_update hp]
    apply hs.cont.client hcont
    simpa [onCont_update hp] using h.cont
  · rw [onOut_update hp]
    apply hs.out.client hout
    simpa [onOut_update hp] using h.out

end

end Queue

end Vee.Lockfree
