import Mathlib.Data.List.Nodup
import Vee.Lib.Fifo
import Vee.Lockfree.Stack

/- Calls of `push` and `pop` one after another.

   A `push` gets the free block that has been free the longest, and its pointer goes to
   the position on top. A `pop` clears that position, but takes the value out of the block
   with the position's number, and gives that block back. So the stack is a bounded LIFO
   for the calls in which each block popped stands at the position of its number
   (`InPlace`), and for no others (`lifo_iff`). -/
namespace Vee.Lockfree.Stack
open AtQueue

variable {P D : Type*} {n : Nat}

/-- A call of `push` taking its steps with no other thread running. -/
def pushAlone (pool : Pool P) : Nat → Memory P D → PushPc D → Option (Memory P D × Bool)
  | 0, _, _ => none
  | k + 1, m, pc =>
    match pushStep pool m pc with
    | (m', .goto pc') => pushAlone pool k m' pc'
    | (m', .returned result) => some (m', result)

/-- A call of `pop` taking its steps with no other thread running. -/
def popAlone (pool : Pool P) (moved : D → D) :
    Nat → Memory P D → PopPc D → Option (Memory P D × Option D)
  | 0, _, _ => none
  | k + 1, m, pc =>
    match popStep pool moved m pc with
    | (m', .goto pc') => popAlone pool moved k m' pc'
    | (m', .returned result) => some (m', result)

inductive Call (D : Type*) where
  | push (data : D)
  | pop
  deriving DecidableEq, Repr

inductive Result (D : Type*) where
  | pushed (result : Bool)
  | popped (out : Option D)
  deriving DecidableEq, Repr

/-- The call without its argument. -/
def Call.shape : Call D → Call Unit
  | push _ => .push ()
  | pop => .pop

/-- One call, run alone; `none` when it has not returned in the steps a call takes that
meets no loop, after which it spins for ever. -/
def Memory.call (moved : D → D) (m : Memory (AtQueue n Nat) D) :
    Call D → Option (Memory (AtQueue n Nat) D × Result D)
  | .push data =>
    (pushAlone (ringPool n) 5 m (.dequeue data)).map fun (m', result) => (m', .pushed result)
  | .pop => (popAlone (ringPool n) moved 6 m .load).map fun (m', out) => (m', .popped out)

/-- The results of calls one after another. -/
def Memory.run (moved : D → D) :
    Memory (AtQueue n Nat) D → List (Call D) → Option (List (Result D))
  | _, [] => some []
  | m, c :: cs =>
    (m.call moved c).bind fun (m', r) => (Memory.run moved m' cs).map fun rs => r :: rs

/-- The results of the calls on the bounded LIFO that holds `st`. -/
def lifoRun (n : Nat) : List D → List (Call D) → List (Result D)
  | _, [] => []
  | st, .push data :: cs => .pushed (Lifo.push n st data).2 :: lifoRun n (Lifo.push n st data).1 cs
  | st, .pop :: cs => .popped (Lifo.pop st).2 :: lifoRun n (Lifo.pop st).1 cs

/-! ## Where the blocks are -/

/-- The free blocks, the longest free first, and those behind the positions, from the top
down. -/
structure Blocks where
  free : List Nat
  held : List Nat
  deriving DecidableEq, Repr

/-- All blocks free, as the constructor leaves them. -/
def Blocks.init (n : Nat) : Blocks := ⟨List.range n, []⟩

/-- A `push` moves a block on top, if one is free. -/
def Blocks.push : Blocks → Blocks
  | ⟨[], held⟩ => ⟨[], held⟩
  | ⟨b :: free, held⟩ => ⟨free, b :: held⟩

/-- A `pop` of a block that stands at its number gives it back. -/
def Blocks.pop : Blocks → Blocks
  | ⟨free, []⟩ => ⟨free, []⟩
  | ⟨free, b :: held⟩ => ⟨free ++ [b], held⟩

/-- The block on top, if any, is the one with the number of its position. -/
def Blocks.TopInPlace : Blocks → Prop
  | ⟨_, []⟩ => True
  | ⟨_, b :: held⟩ => b = held.length

theorem Blocks.topInPlace_nil {s : Blocks} (h : s.held = []) : s.TopInPlace := by
  obtain ⟨free, held⟩ := s
  subst h
  trivial

theorem Blocks.topInPlace_cons {s : Blocks} {b : Nat} {held : List Nat} (h : s.held = b :: held) :
    s.TopInPlace ↔ b = held.length := by
  obtain ⟨free, held'⟩ := s
  subst h
  exact Iff.rfl

/-- Each `pop` finds the block on top in its place. -/
def InPlace : Blocks → List (Call D) → Prop
  | _, [] => True
  | s, .push _ :: cs => InPlace s.push cs
  | s, .pop :: cs => s.TopInPlace ∧ InPlace s.pop cs

theorem inPlace_shape (s : Blocks) (cs : List (Call D)) :
    InPlace s (cs.map Call.shape) ↔ InPlace s cs := by
  induction cs generalizing s with
  | nil => exact Iff.rfl
  | cons c cs ih =>
    cases c with
    | push data => exact ih s.push
    | pop => exact and_congr_right fun _ => ih s.pop

/-- The memory of a stack whose blocks are `s` and whose values are `st`. -/
structure Stacked [NeZero n] (m : Memory (AtQueue n Nat) D) (s : Blocks) (st : List D) :
    Prop where
  pool : Contents m.contQueue s.free
  top : m.top = s.held.length
  outarr : ∀ i, m.outarr i = s.held.reverse[i]?
  values : s.held.map m.cont = st
  nodup : (s.held ++ s.free).Nodup
  count : s.held.length + s.free.length = n

section
variable [NeZero n] {m : Memory (AtQueue n Nat) D} {s : Blocks} {st : List D} {moved : D → D}

theorem stacked_init (cont : Nat → D) :
    Stacked (Memory.init (AtQueue.full : AtQueue n Nat) cont) (Blocks.init n) [] where
  pool := ⟨0, spsc_full⟩
  top := rfl
  outarr _ := rfl
  values := rfl
  nodup := by simpa [Blocks.init] using List.nodup_range
  count := by simp [Blocks.init]

theorem Stacked.length (h : Stacked m s st) : st.length = s.held.length := by
  rw [← h.values, List.length_map]

omit [NeZero n] in
theorem call_push_full {q : AtQueue n Nat} (hq : m.contQueue.dequeueCall = (q, none)) (v : D) :
    m.call moved (.push v) = some ({ m with contQueue := q }, .pushed false) := by
  simp [Memory.call, pushAlone, pushStep, ringPool, hq]

omit [NeZero n] in
theorem call_push {q : AtQueue n Nat} {b : Nat} (hq : m.contQueue.dequeueCall = (q, some b))
    (hnull : m.outarr m.top = none) (v : D) :
    m.call moved (.push v) = some
      ({ contQueue := q
         cont := Function.update m.cont b v
         outarr := Function.update m.outarr m.top (some b)
         top := m.top + 1 }, .pushed true) := by
  simp [Memory.call, pushAlone, pushStep, ringPool, hq, hnull]

omit [NeZero n] in
theorem call_pop_empty (htop : m.top = 0) : m.call moved .pop = some (m, .popped none) := by
  simp [Memory.call, popAlone, popStep, htop]

omit [NeZero n] in
theorem call_pop {q : AtQueue n Nat} {k : Nat} (htop : m.top = k + 1)
    (hset : m.outarr k ≠ none) (hq : m.contQueue.enqueueCall k = (q, true)) :
    m.call moved .pop = some
      ({ contQueue := q
         cont := Function.update m.cont k (moved (m.cont k))
         outarr := Function.update m.outarr k none
         top := k }, .popped (some (m.cont k))) := by
  simp [Memory.call, popAlone, popStep, ringPool, htop, hset, hq]

variable (moved) in
/-- A `push` does what the LIFO does. -/
theorem Stacked.push (h : Stacked m s st) (v : D) :
    ∃ m', m.call moved (.push v) = some (m', .pushed (Lifo.push n st v).2) ∧
      Stacked m' s.push (Lifo.push n st v).1 ∧
      (s.free = [] → m'.cont = m.cont) ∧
      (∀ b free, s.free = b :: free → m'.cont = Function.update m.cont b v) := by
  have hlen := h.length
  have hcount := h.count
  obtain ⟨hpool, htaken⟩ := h.pool.dequeue
  obtain ⟨free, held⟩ := s
  cases free with
  | nil =>
    have hfull : n ≤ st.length := by
      simp only [List.length_nil] at hcount hlen
      omega
    rw [Lifo.push_full v hfull]
    exact ⟨_, call_push_full (Prod.ext rfl htaken) v,
      ⟨hpool, h.top, h.outarr, h.values, h.nodup, h.count⟩, fun _ => rfl, by simp⟩
  | cons b free =>
    have hroom : st.length < n := by
      simp only [List.length_cons] at hcount hlen
      omega
    have hnull : m.outarr m.top = none := by
      rw [h.outarr, h.top]
      simp
    have hnodup : (b :: (held ++ free)).Nodup := List.perm_middle.nodup_iff.mp h.nodup
    have hb : b ∉ held := fun hmem => (List.nodup_cons.mp hnodup).1 (List.mem_append_left _ hmem)
    rw [Lifo.push_room v hroom]
    refine ⟨_, call_push (Prod.ext rfl htaken) hnull v, ?_, by simp, by simp⟩
    constructor
    case pool => exact hpool
    case top => simp [Blocks.push, h.top]
    case outarr =>
      intro i
      have hi : m.outarr i = held.reverse[i]? := h.outarr i
      have htop : m.top = held.reverse.length := by rw [h.top, List.length_reverse]
      show Function.update m.outarr m.top (some b) i = (b :: held).reverse[i]?
      rw [List.reverse_cons, htop]
      by_cases hit : i = held.reverse.length
      · rw [hit, Function.update_self, List.getElem?_concat_length]
      · rw [Function.update_of_ne hit, hi]
        grind
    case values =>
      have hsame : held.map (Function.update m.cont b v) = held.map m.cont :=
        List.map_congr_left fun x hx => Function.update_of_ne (ne_of_mem_of_not_mem hx hb) _ _
      simp [Blocks.push, hsame, h.values]
    case nodup => exact hnodup
    case count =>
      simp only [Blocks.push, List.length_cons] at hcount ⊢
      omega

variable (moved) in
/-- A `pop` of the empty stack does what the LIFO does. -/
theorem Stacked.pop_empty (h : Stacked m s st) (hheld : s.held = []) :
    st = [] ∧ m.call moved .pop = some (m, .popped none) ∧ Stacked m s.pop [] := by
  have hst : st = [] := by
    rw [← h.values, hheld]
    rfl
  have htop : m.top = 0 := by
    rw [h.top, hheld]
    rfl
  have hpop : s.pop = s := by
    obtain ⟨free, held⟩ := s
    subst hheld
    rfl
  refine ⟨hst, call_pop_empty htop, ?_⟩
  rw [hpop, ← hst]
  exact h

variable (moved) in
/-- A `pop` takes the value of the block with the number of the top position; if that is
the block on top it does what the LIFO does. -/
theorem Stacked.pop {b : Nat} {held : List Nat} (h : Stacked m s st) (hheld : s.held = b :: held) :
    st = m.cont b :: held.map m.cont ∧
    ∃ m', m.call moved .pop = some (m', .popped (some (m.cont held.length))) ∧
      m'.cont = Function.update m.cont held.length (moved (m.cont held.length)) ∧
      (b = held.length → Stacked m' s.pop (held.map m.cont)) := by
  have hcount := h.count
  have hnodup := h.nodup
  obtain ⟨free, held'⟩ := s
  subst hheld
  obtain ⟨hpool, hput⟩ := h.pool.enqueue held.length
  have hroom : free.length < n := by
    simp only [List.length_cons] at hcount
    omega
  rw [Fifo.enqueue_room _ hroom] at hpool hput
  have hset : m.outarr held.length = some b := by
    rw [h.outarr]
    simp
  have htop : m.top = held.length + 1 := h.top
  refine ⟨by rw [← h.values]; rfl, _, call_pop htop (by simp [hset]) (Prod.ext rfl hput), rfl, ?_⟩
  intro hb
  constructor
  case pool =>
    rw [← hb] at hpool ⊢
    exact hpool
  case top => rfl
  case outarr =>
    intro i
    have hi : m.outarr i = (b :: held).reverse[i]? := h.outarr i
    show Function.update m.outarr held.length none i = held.reverse[i]?
    rw [List.reverse_cons] at hi
    by_cases hit : i = held.length
    · simp [hit]
    · rw [Function.update_of_ne hit, hi]
      grind
  case values =>
    have hnot : held.length ∉ held := by
      rw [← hb]
      exact (List.nodup_cons.mp (List.nodup_append.mp hnodup).1).1
    exact List.map_congr_left fun x hx => Function.update_of_ne (ne_of_mem_of_not_mem hx hnot) _ _
  case nodup =>
    have hperm : (b :: (held ++ free)).Perm (held ++ (free ++ [b])) := by
      rw [← List.append_assoc]
      exact (List.perm_append_singleton b (held ++ free)).symm
    exact hperm.nodup_iff.mp hnodup
  case count =>
    simp only [Blocks.pop, List.length_append, List.length_cons, List.length_nil] at hcount ⊢
    omega

omit [NeZero n] in
theorem run_cons {m' : Memory (AtQueue n Nat) D} {c : Call D} {cs : List (Call D)} {r : Result D}
    (hcall : m.call moved c = some (m', r)) :
    m.run moved (c :: cs) = (m'.run moved cs).map fun rs => r :: rs := by
  rw [Memory.run, hcall, Option.bind_some]

omit [NeZero n] in
/-- The first result and the others. -/
theorem run_cons_some {m' : Memory (AtQueue n Nat) D} {c : Call D} {cs : List (Call D)}
    {r r' : Result D} {rs : List (Result D)} (hcall : m.call moved c = some (m', r))
    (hrun : m.run moved (c :: cs) = some (r' :: rs)) : r = r' ∧ m'.run moved cs = some rs := by
  rw [run_cons hcall] at hrun
  obtain ⟨rs', hrs, heq⟩ := Option.map_eq_some_iff.mp hrun
  obtain ⟨hr, hrest⟩ := List.cons.inj heq
  exact ⟨hr, by rw [hrs, hrest]⟩

/-- The calls that find each block in its place do what the LIFO does. -/
theorem Stacked.run {calls : List (Call D)} (h : Stacked m s st) (hplace : InPlace s calls) :
    m.run moved calls = some (lifoRun n st calls) := by
  induction calls generalizing m s st with
  | nil => rfl
  | cons c cs ih =>
    cases c with
    | push v =>
      obtain ⟨m', hcall, h', -⟩ := h.push moved v
      rw [run_cons hcall, ih h' hplace]
      rfl
    | pop =>
      obtain ⟨htop, hplace⟩ := hplace
      cases hheld : s.held with
      | nil =>
        obtain ⟨rfl, hcall, h'⟩ := h.pop_empty moved hheld
        rw [run_cons hcall, ih h' hplace]
        rfl
      | cons b held =>
        have hb := (Blocks.topInPlace_cons hheld).mp htop
        obtain ⟨rfl, m', hcall, -, h'⟩ := h.pop moved hheld
        subst hb
        rw [run_cons hcall, ih (h' rfl) hplace]
        rfl

/-! ## Values that tell the blocks apart -/

/-- The calls with the values `k`, `k + 1`, and so on, for the pushes. -/
def label : Nat → List (Call Unit) → List (Call Nat)
  | _, [] => []
  | k, .push _ :: cs => .push k :: label (k + 1) cs
  | k, .pop :: cs => .pop :: label k cs

theorem label_shape (k : Nat) (shape : List (Call Unit)) :
    (label k shape).map Call.shape = shape := by
  induction shape generalizing k with
  | nil => rfl
  | cons c cs ih =>
    cases c with
    | push => exact congrArg _ (ih (k + 1))
    | pop => exact congrArg _ (ih k)

/-- The blocks hold values below `k`, and no value but 0 twice, and those behind the positions
hold none that is 0. -/
structure Told (k : Nat) (m : Memory (AtQueue n Nat) Nat) (s : Blocks) : Prop where
  pos : 0 < k
  lt : ∀ i, m.cont i < k
  inj : ∀ i j, m.cont i = m.cont j → i = j ∨ m.cont i = 0
  held : ∀ b ∈ s.held, m.cont b ≠ 0

theorem told_init : Told 1 (Memory.init (AtQueue.full : AtQueue n Nat) (fun _ => 0))
    (Blocks.init n) where
  pos := Nat.one_pos
  lt _ := Nat.one_pos
  inj _ _ _ := .inr rfl
  held b hb := by simp [Blocks.init] at hb

omit [NeZero n] in
/-- A `push` of the next value. -/
theorem Told.push {k : Nat} {m m' : Memory (AtQueue n Nat) Nat} (h : Told k m s)
    (hfull : s.free = [] → m'.cont = m.cont)
    (hroom : ∀ b free, s.free = b :: free → m'.cont = Function.update m.cont b k) :
    Told (k + 1) m' s.push := by
  obtain ⟨free, held⟩ := s
  have hpos := h.pos
  cases free with
  | nil =>
    have hcont := hfull rfl
    refine ⟨Nat.succ_pos k, fun i => ?_, fun i j => ?_, fun b hb => ?_⟩
    · rw [hcont]
      exact Nat.lt_succ_of_lt (h.lt i)
    · rw [hcont]
      exact h.inj i j
    · rw [hcont]
      exact h.held b hb
  | cons b free =>
    have hcont := hroom b free rfl
    refine ⟨Nat.succ_pos k, fun i => ?_, fun i j hij => ?_, fun x hx => ?_⟩
    · have hlt := h.lt i
      rw [hcont, Function.update_apply]
      split <;> omega
    · have hi := h.lt i
      have hj := h.lt j
      rw [hcont] at hij ⊢
      rw [Function.update_apply, Function.update_apply] at hij
      rw [Function.update_apply]
      split at hij <;> split at hij
      · exact .inl (by simp_all)
      · omega
      · omega
      · have hinj := h.inj i j hij
        simp_all
    · rw [hcont, Function.update_apply]
      split
      · omega
      · rcases List.mem_cons.mp hx with rfl | hx
        · contradiction
        · exact h.held x hx

omit [NeZero n] in
/-- A `pop` whose block stands in its place. -/
theorem Told.pop {k : Nat} {m m' : Memory (AtQueue n Nat) Nat} (h : Told k m s)
    (hcont : m'.cont = m.cont) : Told k m' s.pop := by
  refine ⟨h.pos, fun i => ?_, fun i j => ?_, fun b hb => ?_⟩
  · rw [hcont]
    exact h.lt i
  · rw [hcont]
    exact h.inj i j
  · rw [hcont]
    obtain ⟨free, held⟩ := s
    cases held with
    | nil => exact h.held b hb
    | cons c held => exact h.held b (List.mem_cons_of_mem c hb)

/-- With such values, calls that do what the LIFO does find each block in its place. -/
theorem Told.inPlace {k : Nat} {m : Memory (AtQueue n Nat) Nat} {st : List Nat}
    (h : Told k m s) (hstack : Stacked m s st) {shape : List (Call Unit)}
    (hrun : m.run id (label k shape) = some (lifoRun n st (label k shape))) :
    InPlace s shape := by
  induction shape generalizing k m s st with
  | nil => trivial
  | cons c cs ih =>
    cases c with
    | push =>
      obtain ⟨m', hcall, h', hfull, hroom⟩ := hstack.push id k
      exact ih (h.push hfull hroom) h' (run_cons_some hcall hrun).2
    | pop =>
      cases hheld : s.held with
      | nil =>
        obtain ⟨rfl, hcall, h'⟩ := hstack.pop_empty id hheld
        exact ⟨Blocks.topInPlace_nil hheld, ih (h.pop rfl) h' (run_cons_some hcall hrun).2⟩
      | cons b held =>
        obtain ⟨rfl, m', hcall, hcont, h'⟩ := hstack.pop id hheld
        obtain ⟨hr, hrest⟩ := run_cons_some hcall hrun
        -- the value taken is the one on top, and no other block holds that
        have hvalue : m.cont b = m.cont held.length := by
          simpa using hr.symm
        have hb : b = held.length := by
          rcases h.inj b held.length hvalue with heq | hzero
          · exact heq
          · exact absurd hzero (h.held b (by rw [hheld]; exact List.mem_cons_self))
        have hsame : m'.cont = m.cont := by
          rw [hcont]
          exact Function.update_eq_self held.length m.cont
        exact ⟨(Blocks.topInPlace_cons hheld).mpr hb, ih (h.pop hsame) (h' hb) hrest⟩

/-- **The stack as a bounded LIFO.** For calls of a given shape, one after another, every
result is that of the LIFO whatever the values are, exactly if each `pop` finds the block on
top in its place. -/
theorem lifo_iff (w n : Nat) [NeZero n] (shape : List (Call Unit)) :
    (∀ (D : Type) (moved : D → D) (cont : Nat → D) (calls : List (Call D)),
        calls.map Call.shape = shape →
        ((construct w n cont).bind fun m => m.run moved calls) = some (lifoRun n [] calls)) ↔
      InPlace (Blocks.init n) shape := by
  refine ⟨?_, ?_⟩
  · intro h
    have hrun := h Nat id (fun _ => 0) (label 1 shape) (label_shape 1 shape)
    rw [construct_full, Option.bind_some] at hrun
    exact told_init.inPlace (stacked_init _) hrun
  · intro hplace D moved cont calls heq
    subst heq
    rw [construct_full, Option.bind_some]
    exact (stacked_init cont).run ((inPlace_shape _ calls).mp hplace)

end

/-! ## Concrete calls -/

instance : DecidablePred Blocks.TopInPlace
  | ⟨_, []⟩ => isTrue trivial
  | ⟨_, b :: held⟩ => inferInstanceAs (Decidable (b = held.length))

instance decidableInPlace : ∀ (s : Blocks) (cs : List (Call D)), Decidable (InPlace s cs)
  | _, [] => isTrue trivial
  | s, .push _ :: cs => decidableInPlace s.push cs
  | s, .pop :: cs => @instDecidableAnd _ _ _ (decidableInPlace s.pop cs)

/-- Filled and emptied. -/
def filledUp : List (Call Nat) := [.push 7, .push 8, .push 9, .pop, .pop, .pop]

theorem lifo_iff_filled :
    ((construct 64 2 (fun _ => 0)).bind fun m => m.run id filledUp) =
      some [.pushed true, .pushed true, .pushed false, .popped (some 8), .popped (some 7),
        .popped none] :=
  (lifo_iff 64 2 (filledUp.map Call.shape)).mpr (by decide) Nat id (fun _ => 0) filledUp rfl

/-- The second value is in block 1, at position 0. -/
def reused : List (Call Nat) := [.push 7, .pop, .push 8, .pop]

theorem stale_block :
    ((construct 64 2 (fun _ => 0)).bind fun m => m.run id reused) =
        some [.pushed true, .popped (some 7), .pushed true, .popped (some 7)] ∧
      ((construct 64 2 (fun _ => 0)).bind fun m => m.run id reused) ≠
        some (lifoRun 2 [] reused) := by
  rw [construct_full]
  decide

end Vee.Lockfree.Stack
