import Vee.Lib.Transition
import Vee.Locked.Delivery

/- Calls of one `vee::queue` one after another.

   With no other call in progress an operation takes its steps in a row (`exec_enqueue`,
   `exec_dequeue`), and it does to the values in the ring what the bounded queue does to a
   list (`Contents.enqueue`, `Contents.dequeue`). So a sequence of calls is answered as by
   that queue: it refuses the values that it has no room for, or it keeps the most recent
   ones (`queue_window`). -/
namespace Vee.Locked.Queue
open Transition Circular

variable {n : Nat} [NeZero n] {D T : Type*}

/-- `enqueue(val)` -/
def enqueue (overwrite : Bool) (q : Queue n D) (val : D) : Queue n D × Bool :=
  match q.enqueueIndex overwrite with
  | some (rear, q') => ((q'.write rear val).release rear, true)
  | none => (q, false)

/-- `dequeue(out)`, which assigns to `out` where it returns true. -/
def dequeue (q : Queue n D) : Queue n D × Option D :=
  match q.dequeueIndex with
  | some (front, q') => (q'.release front, some (q'.blocks front))
  | none => (q, none)

inductive Call (D : Type*) where
  | enqueue (val : D)
  | dequeue
  deriving DecidableEq, Repr

inductive Answer (D : Type*) where
  | enqueued (result : Bool)
  | dequeued (out : Option D)
  deriving DecidableEq, Repr

/-- A call of the queue. -/
def serve (overwrite : Bool) (q : Queue n D) : Call D → Queue n D × Answer D
  | .enqueue val => ((q.enqueue overwrite val).1, .enqueued (q.enqueue overwrite val).2)
  | .dequeue => (q.dequeue.1, .dequeued q.dequeue.2)

/-- What the call is to do to the values in the queue: an enqueue that finds `n` of them is
refused, or makes the oldest one go. -/
def serveList (overwrite : Bool) (n : Nat) (l : List D) : Call D → List D × Answer D
  | .enqueue val =>
    if overwrite then (Fifo.slide n l val, .enqueued true)
    else ((Fifo.enqueue n l val).1, .enqueued (Fifo.enqueue n l val).2)
  | .dequeue => ((Fifo.dequeue l).1, .dequeued (Fifo.dequeue l).2)

/-- The values in the queue, the oldest first. -/
def content (q : Queue n D) : List D :=
  (List.range q.size).map fun k => q.blocks (slot n (q.front + k))

/-- The values of the enqueues that come after the last value dequeued, which is the oldest
of the `n` most recent ones of them. -/
def undequeued (n : Nat) (calls : List (Call D)) : List D :=
  calls.foldl (fun l => fun
    | .enqueue val => l ++ [val]
    | .dequeue => (Fifo.recent n l).tail) []

/-! ## A call alone -/

section
variable [DecidableEq T] (overwrite : Bool) {s : System n D T} {t : T}

/-- The steps of an `enqueue`. -/
theorem exec_enqueue (ht : s.pcs t = .idle) (val : D) :
    ∃ k, exec (System.step overwrite) s (.enqueue t val :: List.replicate k (.run t)) =
      some (s.goto (s.queue.enqueue overwrite val).1
        (if (s.queue.enqueue overwrite val).2 then Fifo.slide n s.order val else s.order) t .idle
        [.enqueued t (s.queue.enqueue overwrite val).2]) := by
  cases h : s.queue.enqueueIndex overwrite with
  | none =>
    refine ⟨1, ?_⟩
    simp [exec, System.step, System.goto, enqueue, ht, h]
  | some found =>
    refine ⟨3, ?_⟩
    simp [exec, System.step, System.goto, enqueue, ht, h]

/-- The steps of a `dequeue`. -/
theorem exec_dequeue (ht : s.pcs t = .idle) :
    ∃ k, exec (System.step overwrite) s (.dequeue t :: List.replicate k (.run t)) =
      some (match s.queue.dequeue with
        | (q, some out) => s.goto q s.order.tail t .idle [.dequeued t s.order.head? out]
        | (q, none) => s.goto q s.order t .idle [.empty t]) := by
  cases h : s.queue.dequeueIndex with
  | none =>
    refine ⟨1, ?_⟩
    simp [exec, System.step, System.goto, dequeue, ht, h]
  | some found =>
    refine ⟨3, ?_⟩
    simp [exec, System.step, System.goto, dequeue, ht, h]

end

/-! ## One thread -/

/-- A queue that holds `xs`, no call being in progress. -/
def Contents (q : Queue n D) (xs : List D) : Prop :=
  ∃ (s : System n D Unit) (f : Nat), s.queue = q ∧ s.order = xs ∧ s.pcs () = .idle ∧ Stored s f

section
variable {overwrite : Bool} {s s' : System n D Unit} {f : Nat} {q : Queue n D} {xs : List D}

/-- A thread that is to be assigned a block accesses none. -/
theorem apart_unit (overwrite : Bool) (s : System n D Unit) (a : Action D Unit) :
    s.Apart overwrite a := by
  cases a with
  | enqueue t val | dequeue t => trivial
  | run t =>
    intro i hi u
    obtain rfl : u = t := rfl
    simp only [System.assigns] at hi
    cases hpc : s.pcs u <;> simp_all [Pc.accesses]

theorem Stored.exec (h : Stored s f) {as : List (Action D Unit)}
    (hs : Transition.exec (System.step overwrite) s as = some s') : ∃ f', Stored s' f' := by
  obtain ⟨tr, hr, -⟩ := Run.of_exec hs
  refine hr.invariant (C := System.Apart overwrite) (I := fun s => ∃ f, Stored s f) ⟨f, h⟩ ?_
    fun p _ => apart_unit overwrite p.1 p.2
  intro x a y hx hapart hy
  obtain ⟨g, hx⟩ := hx
  exact hx.step (fun _ _ _ _ _ => rfl) hapart hy

theorem contents_init (blocks : Fin n → D) : Contents (init blocks) [] :=
  ⟨System.init blocks, 0, rfl, rfl, rfl, stored_init blocks⟩

/-- What the members say of the values. -/
theorem Contents.shape (h : Contents q xs) : q.size = xs.length ∧ xs.length ≤ n ∧
    (q.rear : Nat) = (q.front + q.size) % n ∧ q.content = xs := by
  obtain ⟨s, f, rfl, rfl, hidle, h⟩ := h
  have hslot : ∀ k, slot n (s.queue.front + k) = slot n (f + k) := by
    intro k
    apply Fin.ext
    simp [h.front]
  refine ⟨h.size, h.room, ?_, ?_⟩
  · rw [h.size, ← slot_val, hslot, h.rear]
  · apply List.ext_getElem?
    intro k
    by_cases hk : k < s.order.length
    · have hv := List.getElem?_eq_getElem hk
      rcases h.kept k _ hv with ⟨t, ht⟩ | ⟨hblock, -⟩
      · cases hidle.symm.trans ht
      · rw [hv, ← hblock, ← hslot]
        simp [content, h.size, hk]
    · simp [content, h.size, hk]

omit [NeZero n] in
theorem isFull_iff {q : Queue n D} : q.isFull = true ↔ q.size = n := beq_iff_eq

theorem enqueue_result (overwrite : Bool) (q : Queue n D) (val : D) :
    (q.enqueue overwrite val).2 = (overwrite || !q.isFull) := by
  by_cases hfull : q.size = n
  · cases overwrite with
    | true => simp [Queue.enqueue, enqueueIndex_overwrite hfull]
    | false => simp [Queue.enqueue, enqueueIndex_full hfull, isFull, hfull]
  · simp [Queue.enqueue, enqueueIndex_room overwrite hfull, isFull, hfull]

theorem Contents.enqueue (h : Contents q xs) (val : D) :
    Contents (q.enqueue overwrite val).1 (serveList overwrite n xs (.enqueue val)).1 ∧
      Answer.enqueued (q.enqueue overwrite val).2 =
        (serveList overwrite n xs (.enqueue val)).2 := by
  obtain ⟨hsize, hroom, -, -⟩ := h.shape
  have hresult := enqueue_result overwrite q val
  obtain ⟨s, f, rfl, rfl, hidle, h⟩ := h
  obtain ⟨k, hs⟩ := exec_enqueue overwrite hidle val
  obtain ⟨f', h'⟩ := h.exec hs
  have hlist : serveList overwrite n s.order (.enqueue val) =
      (if (s.queue.enqueue overwrite val).2 then Fifo.slide n s.order val else s.order,
        .enqueued (s.queue.enqueue overwrite val).2) := by
    cases overwrite with
    | true => simp [serveList, hresult]
    | false =>
      by_cases hfull : s.queue.isFull
      · have hlen : n ≤ s.order.length := by
          rw [← hsize, isFull_iff.mp hfull]
        simp [serveList, hresult, hfull, Fifo.enqueue_full val hlen]
      · have hlen : s.order.length < n := by
          have hne : s.queue.size ≠ n := mt isFull_iff.mpr hfull
          omega
        simp [serveList, hresult, hfull, Fifo.enqueue_room val hlen, Fifo.slide_room val hlen]
  rw [hlist]
  exact ⟨⟨_, f', rfl, rfl, by simp, h'⟩, rfl⟩

theorem Contents.dequeue (h : Contents q xs) :
    Contents q.dequeue.1 (Fifo.dequeue xs).1 ∧ q.dequeue.2 = (Fifo.dequeue xs).2 := by
  obtain ⟨hsize, -, -, hcontent⟩ := h.shape
  obtain ⟨s, f, rfl, rfl, hidle, h⟩ := h
  obtain ⟨k, hs⟩ := exec_dequeue false hidle
  obtain ⟨f', h'⟩ := h.exec hs
  cases hq : s.order with
  | nil =>
    have hempty : s.queue.size = 0 := by rw [hsize, hq, List.length_nil]
    simp only [Queue.dequeue, dequeueIndex_empty hempty, Fifo.dequeue_nil]
    exact ⟨⟨s, f, rfl, hq, hidle, h⟩, trivial⟩
  | cons v rest =>
    have hne : s.queue.size ≠ 0 := by
      rw [hsize, hq]
      simp
    simp only [Queue.dequeue, dequeueIndex_some hne] at h' ⊢
    -- the thread has been answered with the value that was the oldest
    have hdue : s.order.head? = some (s.queue.blocks s.queue.front) :=
      h'.delivered () _ _ (List.mem_append_right _ (List.mem_singleton.mpr rfl))
    rw [hq] at hdue
    exact ⟨⟨_, f', rfl, by simp [System.goto, hq], by simp, h'⟩, hdue.symm⟩

theorem Contents.serve (h : Contents q xs) (call : Call D) :
    Contents (q.serve overwrite call).1 (serveList overwrite n xs call).1 ∧
      (q.serve overwrite call).2 = (serveList overwrite n xs call).2 := by
  cases call with
  | enqueue val => exact h.enqueue val
  | dequeue =>
    obtain ⟨hnext, hout⟩ := h.dequeue
    exact ⟨hnext, congrArg Answer.dequeued hout⟩

end

/-! ## Sequences of calls -/

theorem serve_simulates (overwrite : Bool) :
    Machine.Simulates (serve overwrite) (serveList overwrite n)
      (Contents : Queue n D → List D → Prop) :=
  fun _ _ call h => h.serve call

/-- The window that slides holds the most recent of the values not dequeued. -/
theorem serveList_recent (n : Nat) (calls : List (Call D)) :
    (Machine.run (serveList true n) [] calls).1 = Fifo.recent n (undequeued n calls) := by
  induction calls using List.reverseRecOn with
  | nil => simp [Machine.run, undequeued, Fifo.recent]
  | append_singleton calls call ih =>
    simp only [undequeued] at ih
    simp only [Machine.run_append, Machine.run, undequeued, List.foldl_append, List.foldl_cons,
      List.foldl_nil, ih]
    generalize calls.foldl _ [] = l
    cases call with
    | enqueue val => simp [serveList, Fifo.recent_append]
    | dequeue =>
      have hle : (Fifo.recent n l).tail.length ≤ n := by
        have hlen := Fifo.length_recent_le n l
        rw [List.length_tail]
        omega
      simp only [serveList, Fifo.recent_of_le hle]
      cases Fifo.recent n l <;> rfl

/-- **A bounded queue, or a sliding window.** For every capacity and every sequence of
calls the answers are those of a bounded FIFO, which refuses a value when it holds
`capacity` of them; or, where values are overwritten, those of a window that takes every
value and holds the most recent of the values not dequeued. The members agree
throughout. -/
theorem queue_window (blocks : Fin n → D) (overwrite : Bool) (calls : List (Call D)) :
    let q := (Machine.run (serve overwrite) (init blocks) calls).1
    (Machine.run (serve overwrite) (init blocks) calls).2 =
        (Machine.run (serveList overwrite n) [] calls).2 ∧
      q.content = (Machine.run (serveList overwrite n) [] calls).1 ∧
      (overwrite = true → q.content = Fifo.recent n (undequeued n calls)) ∧
      (q.rear : Nat) = (q.front + q.size) % n ∧ q.size ≤ n := by
  obtain ⟨hlast, hanswers⟩ := (serve_simulates overwrite).run (contents_init blocks) calls
  obtain ⟨hsize, hroom, hrear, hcontent⟩ := hlast.shape
  refine ⟨hanswers, hcontent, ?_, hrear, hsize ▸ hroom⟩
  intro hover
  subst hover
  rw [hcontent, serveList_recent]

/-- The third value makes the first one go. -/
def overwritten : List (Call Nat) := [.enqueue 1, .enqueue 2, .enqueue 3, .dequeue]

theorem queue_window_overwritten :
    let q := (Machine.run (serve true) (init fun _ : Fin 2 => 0) overwritten).1
    (Machine.run (serve true) (init fun _ : Fin 2 => 0) overwritten).2 =
        [.enqueued true, .enqueued true, .enqueued true, .dequeued (some 2)] ∧
      q.content = [3] ∧ (q.rear : Nat) = (q.front + q.size) % 2 ∧ q.size ≤ 2 := by
  obtain ⟨hanswers, hcontent, -, hshape⟩ := queue_window (fun _ : Fin 2 => 0) true overwritten
  exact ⟨hanswers.trans (by decide), hcontent.trans (by decide), hshape⟩

end Vee.Locked.Queue
