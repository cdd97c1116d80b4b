import Vee.Lockfree.AtQueueAlone

/- `vee::lockfree::stack` (vee/lockfree/stack.h), step by step.

   The blocks of `_cont` are handed out by a pool of their ids, `_cont_queue`; a stored
   block is known to the stack by the pointer to it in `_outarr`, which is modelled by the
   block's id. What is used of the pool is its two operations (`Pool`): they are those of
   `atqueue` where calls do not overlap, and those of a bounded FIFO where the pool is
   taken to be one. Each program point stands before one access to the memory. `_top` is a
   number: it does not exceed the capacity (`Counted.top_le`), so `fetch_add` does not wrap. -/
namespace Vee.Lockfree.Stack
open AtQueue

/-- The operations of the block pool on its state. -/
structure Pool (P : Type*) where
  enqueue : P → Nat → P × Bool
  dequeue : P → P × Option Nat

/-- The pool as the code has it, each call running alone. -/
def ringPool (n : Nat) : Pool (AtQueue n Nat) := ⟨enqueueCall, dequeueCall⟩

/-- The pool as a bounded FIFO. -/
def fifoPool (n : Nat) : Pool (List Nat) := ⟨Fifo.enqueue n, Fifo.dequeue⟩

/-- The members of a stack: `_outarr[i]` is null or `&_cont[b]`. -/
structure Memory (P D : Type*) where
  contQueue : P
  cont : Nat → D
  outarr : Nat → Option Nat
  top : Nat

/-- A stack without values, its blocks in the pool; `cont` is what `new data_t[capacity]`
leaves in them. -/
def Memory.init {P D : Type*} (contQueue : P) (cont : Nat → D) : Memory P D :=
  { contQueue := contQueue, cont := cont, outarr := fun _ => none, top := 0 }

/-- `stack::stack`: the loop over the block ids is that of `queue::queue`; `none` is the
`runtime_error`. -/
def construct (w n : Nat) [NeZero n] {D : Type*} (cont : Nat → D) :
    Option (Memory (AtQueue n Nat) D) :=
  (Queue.construct w n).map fun contQueue => Memory.init contQueue cont

theorem construct_full (w n : Nat) [NeZero n] {D : Type*} (cont : Nat → D) :
    construct w n cont = some (Memory.init AtQueue.full cont) := by
  rw [construct, Queue.construct_full, Option.map_some]

/-- The program points of `push`. -/
inductive PushPc (D : Type*) where
  /-- `_cont_queue.dequeue(block_id)` -/
  | dequeue (data : D)
  /-- `_cont[block_id] = data` -/
  | store (data : D) (block : Nat)
  /-- `outidx = _top.fetch_add(1)` -/
  | fetchAdd (block : Nat)
  /-- `while (_outarr[outidx] != nullptr)` -/
  | await (block outidx : Nat)
  /-- `_outarr[outidx] = &_cont[block_id]` -/
  | publish (block outidx : Nat)
  deriving DecidableEq, Repr

/-- The program points of `pop`; `dst` is `top - 1`. -/
inductive PopPc (D : Type*) where
  /-- `top = _top.load()` -/
  | load
  /-- `_outarr[dst] != nullptr` -/
  | check (top : Nat)
  /-- the compare-exchange on `_top` -/
  | exchange (top : Nat)
  /-- `out = _cont[dst]` -/
  | take (dst : Nat)
  /-- `_outarr[dst] = nullptr` -/
  | clear (dst : Nat) (out : D)
  /-- `while (!_cont_queue.enqueue(dst))` -/
  | putBack (dst : Nat) (out : D)
  deriving DecidableEq, Repr

variable {P D : Type*}

/-- One step of `push`. -/
def pushStep (pool : Pool P) (m : Memory P D) :
    PushPc D → Memory P D × Next (PushPc D) Bool
  | .dequeue data =>
    match pool.dequeue m.contQueue with
    | (contQueue, some block) => ({ m with contQueue := contQueue }, .goto (.store data block))
    | (contQueue, none) => ({ m with contQueue := contQueue }, .returned false)
  | .store data block =>
    ({ m with cont := Function.update m.cont block data }, .goto (.fetchAdd block))
  | .fetchAdd block => ({ m with top := m.top + 1 }, .goto (.await block m.top))
  | .await block outidx =>
    (m, .goto (if m.outarr outidx ≠ none then .await block outidx else .publish block outidx))
  | .publish block outidx =>
    ({ m with outarr := Function.update m.outarr outidx (some block) }, .returned true)

/-- One step of `pop`; it returns `none` for `false`. -/
def popStep (pool : Pool P) (moved : D → D) (m : Memory P D) :
    PopPc D → Memory P D × Next (PopPc D) (Option D)
  | .load => if m.top = 0 then (m, .returned none) else (m, .goto (.check m.top))
  | .check top => (m, .goto (if m.outarr (top - 1) ≠ none then .exchange top else .load))
  | .exchange top =>
    if m.top = top then ({ m with top := top - 1 }, .goto (.take (top - 1)))
    else (m, .goto .load)
  -- the block taken is the one with the number of the position, not the one stored there
  | .take dst =>
    ({ m with cont := Function.update m.cont dst (moved (m.cont dst)) },
      .goto (.clear dst (m.cont dst)))
  | .clear dst out =>
    ({ m with outarr := Function.update m.outarr dst none }, .goto (.putBack dst out))
  | .putBack dst out =>
    match pool.enqueue m.contQueue dst with
    | (contQueue, true) => ({ m with contQueue := contQueue }, .returned (some out))
    | (contQueue, false) => ({ m with contQueue := contQueue }, .goto (.putBack dst out))

end Vee.Lockfree.Stack
