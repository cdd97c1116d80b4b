import Vee.Locked.Queue

/- What `vee::queue` delivers.

   The block locks keep no one out: they are adopted and never acquired, and each operation
   releases a lock that it has not taken. So a `dequeue` may read a block before the
   `enqueue` it was assigned to has written it (`read_before_write`), and a writer may be
   lapped. Where no block is assigned while an operation is still to access it (`Apart`),
   the blocks hold what the ring owes (`Stored`): every `dequeue` that returns true
   delivers the oldest value. -/
namespace Vee.Locked.Queue
open Transition Circular

variable {n : Nat} [NeZero n] {D T : Type*}

namespace System

/-- No block is accessed by two operations at once. -/
def Exclusive (s : System n D T) : Prop :=
  ∀ t u i, (s.pcs t).accesses = some i → (s.pcs u).accesses = some i → t = u

/-- Each `dequeue` that returned true has yielded the value it was assigned. -/
def Delivered (s : System n D T) : Prop :=
  ∀ t due out, .dequeued t due out ∈ s.log → due = some out

/-- The block that the step assigns is not one that an operation is still to access. -/
def Apart (overwrite : Bool) (s : System n D T) : Action D T → Prop
  | .run t => ∀ i, s.assigns overwrite t = some i → ∀ u, (s.pcs u).accesses ≠ some i
  | _ => True

/-- The step releases no block lock. -/
def ReleasesNone (s : System n D T) : Action D T → Prop
  | .run t => (s.pcs t).releases = none
  | _ => True

end System

/-- The action starts a call of thread `t`. -/
def Action.Starts (t : T) : Action D T → Prop
  | .enqueue u _ | .dequeue u => u = t
  | .run _ => False

/-- A block lock is only released by an operation that has acquired it: earlier in the same
call the thread has taken a step that set the flag. -/
def OwnReleases [DecidableEq T] (overwrite : Bool) (tr : List (System n D T × Action D T)) :
    Prop :=
  ∀ before s t i after, tr = before ++ (s, .run t) :: after → (s.pcs t).releases = some i →
    ∃ early m m' rest, before = early ++ (m, .run t) :: rest ∧
      m.step overwrite (.run t) = some m' ∧ (m.queue.blocklcks i).lock = false ∧
      (m'.queue.blocklcks i).lock = true ∧ ∀ p ∈ rest, ¬ p.2.Starts t

/-! ## The locks -/

section
variable [DecidableEq T] {overwrite : Bool} {s s' : System n D T} {a : Action D T} {t : T}
variable {tr : List (System n D T × Action D T)}

/-- No step sets the flag of a block lock. -/
theorem step_sets_none (hs : s.step overwrite a = some s') {i : Fin n}
    (hset : (s'.queue.blocklcks i).lock = true) : (s.queue.blocklcks i).lock = true := by
  have hrelease : ∀ (q : Queue n D) (j : Fin n), ((q.release j).blocklcks i).lock = true →
      (q.blocklcks i).lock = true := by
    intro q j hlock
    have hlock : (Function.update q.blocklcks j (q.blocklcks j).unlock i).lock = true := hlock
    by_cases hij : i = j
    · rw [hij, Function.update_self] at hlock
      cases hlock
    · rwa [Function.update_of_ne hij] at hlock
  rcases System.step_cases hs with ⟨t, p, -, -, -, rfl⟩ | ⟨t, q, order, p, new, -, rfl, hmove⟩
  · exact hset
  · generalize s.pcs t = pc at hmove
    cases hmove with
    | written rear => exact hrelease _ rear hset
    | taken front due out => exact hrelease _ front hset
    | append _ _ | replace _ _ _ | full _ _ _ | write _ _ | oldest _ | empty _ | read _ _ =>
      exact hset

/-- Releases are of acquired locks only where there are none. -/
theorem ownReleases_iff : OwnReleases overwrite tr ↔ Meets System.ReleasesNone tr := by
  refine ⟨?_, ?_⟩
  · intro hown hall hmem
    obtain ⟨s, a⟩ := hall
    cases a with
    | enqueue t val | dequeue t => trivial
    | run t =>
      show (s.pcs t).releases = none
      cases hrel : (s.pcs t).releases with
      | none => rfl
      | some i =>
        obtain ⟨before, after, htr⟩ := List.append_of_mem hmem
        obtain ⟨early, m, m', rest, -, hs, hclear, hset, -⟩ := hown before s t i after htr hrel
        rw [step_sets_none hs hset] at hclear
        cases hclear
  · intro hnone before s t i after heq hrel
    subst heq
    have hstep : (s.pcs t).releases = none := hnone (s, .run t) (by simp)
    rw [hstep] at hrel
    cases hrel

/-! ## The assignments -/

omit [DecidableEq T] in
/-- The move of an index section is to the access of the block it assigns. -/
theorem assigns_accesses {q : Queue n D} {order : List D} {p : Pc n D} {new : List (Event T D)}
    (hmove : Move overwrite t s.queue s.order (s.pcs t) q order p new) {i : Fin n} :
    s.assigns overwrite t = some i ↔ (s.pcs t).accesses = none ∧ p.accesses = some i := by
  unfold System.assigns
  generalize s.pcs t = pc at hmove
  cases hmove with
  | append val h => simp [enqueueIndex_room overwrite h, Pc.accesses]
  | replace val h hover =>
    subst hover
    simp [enqueueIndex_overwrite h, Pc.accesses]
  | full val h hover =>
    subst hover
    simp [enqueueIndex_full h, Pc.accesses]
  | oldest h => simp [dequeueIndex_some h, Pc.accesses]
  | empty h => simp [dequeueIndex_empty h, Pc.accesses]
  | write _ _ | written _ | read _ _ | taken _ _ _ => simp [Pc.accesses]

/-- A thread gets to a block by an assignment only. -/
theorem accesses_step (hs : s.step overwrite a = some s') {u : T} {i : Fin n}
    (hu : (s'.pcs u).accesses = some i) :
    (s.pcs u).accesses = some i ∨ a = .run u ∧ s.assigns overwrite u = some i := by
  rcases System.step_cases hs with ⟨t, p, -, hp, -, rfl⟩ | ⟨t, q, order, p, new, rfl, rfl, hmove⟩
  · by_cases hut : u = t
    · rw [hut, s.goto_pcs_self] at hu
      rcases hp with ⟨val, rfl⟩ | rfl <;> cases hu
    · rw [s.goto_pcs_of_ne hut] at hu
      exact .inl hu
  · by_cases hut : u = t
    · subst hut
      rw [s.goto_pcs_self] at hu
      refine .inr ⟨rfl, (assigns_accesses hmove).mpr ⟨?_, hu⟩⟩
      generalize s.pcs u = pc at hmove
      cases hmove with
      | write rear val | read front due => cases hu
      | _ => rfl
    · rw [s.goto_pcs_of_ne hut] at hu
      exact .inl hu

omit [DecidableEq T] in
theorem exclusive_init (blocks : Fin n → D) : (System.init blocks : System n D T).Exclusive := by
  intro t u i ht
  cases ht

theorem exclusive_step (h : s.Exclusive) (hapart : s.Apart overwrite a)
    (hs : s.step overwrite a = some s') : s'.Exclusive := by
  intro t u i ht hu
  rcases accesses_step hs ht with ht | ⟨rfl, ht⟩
  · rcases accesses_step hs hu with hu | ⟨rfl, hu⟩
    · exact h t u i ht hu
    · exact absurd ht (hapart i hu t)
  · rcases accesses_step hs hu with hu | ⟨heq, -⟩
    · exact absurd hu (hapart i ht u)
    · exact Action.run.inj heq

/-- An assignment of a block that is still to be accessed leaves two operations at it. -/
theorem apart_of_exclusive (hs : s.step overwrite a = some s') (h : s'.Exclusive) :
    s.Apart overwrite a := by
  cases a with
  | enqueue t val | dequeue t => trivial
  | run t =>
    intro i hi u hu
    obtain ⟨q, order, p, new, rfl, hmove⟩ := System.run_move hs
    obtain ⟨hnone, hp⟩ := (assigns_accesses hmove).mp hi
    have hut : u ≠ t := by
      intro heq
      subst heq
      rw [hnone] at hu
      cases hu
    refine hut (h u t i ?_ ?_)
    · rwa [s.goto_pcs_of_ne hut]
    · rwa [s.goto_pcs_self]

/-- The operations are apart exactly in the runs whose assignments are. -/
theorem exclusive_iff {blocks : Fin n → D}
    (h : Run (System.step overwrite) (System.init blocks) tr s) :
    (∀ m ∈ visited tr s, m.Exclusive) ↔ Meets (System.Apart overwrite) tr := by
  induction h with
  | nil =>
    refine iff_of_true ?_ (meets_nil _)
    intro m hm
    obtain rfl : m = System.init blocks := by simpa [visited] using hm
    exact exclusive_init blocks
  | @snoc tr s s' a hr hs ih =>
    simp only [mem_visited_snoc, meets_snoc]
    refine ⟨?_, ?_⟩
    · intro hex
      exact ⟨ih.mp fun m hm => hex m (.inl hm), apart_of_exclusive hs (hex s' (.inr rfl))⟩
    · intro hall m hcase1
      obtain ⟨hmeets, hapart⟩ := hall
      rcases hcase1 with hm | rfl
      · exact ih.mpr hmeets m hm
      · exact exclusive_step (ih.mpr hmeets s (by simp [visited])) hapart hs

end

/-! ## The values -/

/-- The block holds the value, or the thread that is to write it there is at it. -/
def System.Keeps (s : System n D T) (i : Fin n) (v : D) : Prop :=
  (∃ t, s.pcs t = .write i v) ∨ s.queue.blocks i = v ∧ ∀ t w, s.pcs t ≠ .write i w

/-- From position `f` on the blocks keep the values owed, in order; a `dequeue` that is to
read finds the value it is owed. -/
structure Stored (s : System n D T) (f : Nat) : Prop where
  front : s.queue.front = slot n f
  rear : s.queue.rear = slot n (f + s.order.length)
  size : s.queue.size = s.order.length
  room : s.order.length ≤ n
  kept : ∀ k v, s.order[k]? = some v → s.Keeps (slot n (f + k)) v
  reading : ∀ t i due, s.pcs t = .read i due → due = some (s.queue.blocks i)
  taken : ∀ t i due out, s.pcs t = .taken i due out → due = some out
  delivered : s.Delivered

theorem stored_init (blocks : Fin n → D) : Stored (System.init blocks : System n D T) 0 := by
  constructor <;> simp [System.init, Queue.init, System.Delivered]

section
variable [DecidableEq T] {overwrite : Bool} {s s' : System n D T} {a : Action D T} {t : T} {f : Nat}
variable {q : Queue n D} {order : List D} {p : Pc n D} {new : List (Event T D)}

omit [NeZero n] in
/-- What holds at the new point of `t` and at the points of the other threads holds at all. -/
theorem goto_forall {P : T → Pc n D → Prop} (hself : P t p) (hother : ∀ u, u ≠ t → P u (s.pcs u)) :
    ∀ u, P u ((s.goto q order t p new).pcs u) :=
  (Function.forall_update_iff s.pcs P).mpr ⟨hself, hother⟩

omit [NeZero n] in
/-- A thread that does not write the block and is not to write it leaves it as it is kept. -/
theorem keeps_goto {i : Fin n} {v : D} (h : s.Keeps i v) (hblocks : q.blocks i = s.queue.blocks i)
    (ht : ∀ w, s.pcs t ≠ .write i w) (hp : ∀ w, p ≠ .write i w) :
    (s.goto q order t p new).Keeps i v := by
  rcases h with ⟨u, hu⟩ | ⟨hv, hnone⟩
  · have hut : u ≠ t := by
      intro heq
      subst heq
      exact ht v hu
    exact .inl ⟨u, by rwa [s.goto_pcs_of_ne hut]⟩
  · refine .inr ⟨hblocks.trans hv, ?_⟩
    exact goto_forall (P := fun _ pc => ∀ w, pc ≠ .write i w) hp fun u _ => hnone u

/-- The readers find what they are owed if their blocks are not written. -/
theorem Stored.reading_goto (h : Stored s f)
    (hblocks : ∀ u i due, u ≠ t → s.pcs u = .read i due → q.blocks i = s.queue.blocks i)
    (hp : ∀ i due, p = .read i due → due = some (q.blocks i)) :
    ∀ u i due, (s.goto q order t p new).pcs u = .read i due → due = some (q.blocks i) := by
  refine goto_forall (P := fun _ pc => ∀ i due, pc = .read i due → due = some (q.blocks i)) hp ?_
  intro u hut i due hu
  rw [hblocks u i due hut hu]
  exact h.reading u i due hu

theorem Stored.taken_goto (h : Stored s f)
    (hp : ∀ i due out, p = .taken i due out → due = some out) :
    ∀ u i due out, (s.goto q order t p new).pcs u = .taken i due out → due = some out :=
  goto_forall (P := fun _ pc => ∀ i due out, pc = .taken i due out → due = some out) hp
    fun u _ => h.taken u

theorem Stored.delivered_goto (h : Stored s f)
    (hnew : ∀ u due out, .dequeued u due out ∈ new → due = some out) :
    (s.goto q order t p new).Delivered := by
  intro u due out hlog
  rcases List.mem_append.mp hlog with hlog | hlog
  · exact h.delivered u due out hlog
  · exact hnew u due out hlog

/-- A step that writes no block, assigns none and is no index section. -/
theorem Stored.stay (h : Stored s f)
    (hblocks : q.blocks = s.queue.blocks) (hfront : q.front = s.queue.front)
    (hrear : q.rear = s.queue.rear) (hsize : q.size = s.queue.size)
    (ht : ∀ i w, s.pcs t ≠ .write i w) (hp : p.accesses = none)
    (htaken : ∀ i due out, p = .taken i due out → due = some out)
    (hnew : ∀ u due out, .dequeued u due out ∈ new → due = some out) :
    Stored (s.goto q s.order t p new) f := by
  constructor
  case front => exact hfront.trans h.front
  case rear => exact hrear.trans h.rear
  case size => exact hsize.trans h.size
  case room => exact h.room
  case kept =>
    intro k v hk
    refine keeps_goto (h.kept k v hk) (congrFun hblocks _) (ht _) ?_
    intro w heq
    subst heq
    cases hp
  case reading =>
    refine h.reading_goto (fun _ i _ _ _ => congrFun hblocks i) ?_
    intro i due heq
    subst heq
    cases hp
  case taken => exact h.taken_goto htaken
  case delivered => exact h.delivered_goto hnew

/-- An `enqueue` writes its block. -/
theorem Stored.write (h : Stored s f) (hex : s.Exclusive) {i : Fin n} {w : D}
    (ht : s.pcs t = .write i w) :
    Stored (s.goto (s.queue.write i w) s.order t (.written i) []) f := by
  have hti : (s.pcs t).accesses = some i := by rw [ht, Pc.accesses]
  have hself : (s.queue.write i w).blocks i = w := by simp [Queue.write]
  have hblocks : ∀ j, j ≠ i → (s.queue.write i w).blocks j = s.queue.blocks j := by
    intro j hj
    simp [Queue.write, hj]
  constructor
  case front => exact h.front
  case rear => exact h.rear
  case size => exact h.size
  case room => exact h.room
  case kept =>
    intro k v hk
    have hkeeps := h.kept k v hk
    by_cases hki : slot n (f + k) = i
    · -- its value is the one that is owed
      rw [hki] at hkeeps ⊢
      have hvw : v = w := by
        rcases hkeeps with ⟨u, hu⟩ | ⟨-, hnone⟩
        · obtain rfl := hex u t i (by rw [hu, Pc.accesses]) hti
          exact (Pc.write.inj (hu.symm.trans ht)).2
        · exact absurd ht (hnone t w)
      refine .inr ⟨hself.trans hvw.symm, ?_⟩
      refine goto_forall (P := fun _ pc => ∀ x, pc ≠ .write i x) (by simp) ?_
      intro u hut x hu
      exact hut (hex u t i (by rw [hu, Pc.accesses]) hti)
    · refine keeps_goto hkeeps (hblocks _ hki) ?_ (by simp)
      intro x hx
      exact hki (Pc.write.inj (hx.symm.trans ht)).1
  case reading =>
    refine h.reading_goto ?_ (by simp)
    intro u j due hut hu
    apply hblocks
    intro heq
    subst heq
    exact hut (hex u t j (by rw [hu, Pc.accesses]) hti)
  case taken => exact h.taken_goto (by simp)
  case delivered => exact h.delivered_goto (by simp)

/-- An `enqueue` is assigned the block at `rear`; the other positions are as they were. -/
theorem Stored.assignRear (h : Stored s f) {val : D} (ht : s.pcs t = .enqueue val) {f' : Nat}
    (hblocks : q.blocks = s.queue.blocks) (hfront : q.front = slot n f')
    (hrear : q.rear = slot n (f' + order.length)) (hsize : q.size = order.length)
    (hroom : order.length ≤ n)
    (horder : ∀ k v, order[k]? = some v → slot n (f' + k) = s.queue.rear ∧ v = val ∨
      slot n (f' + k) ≠ s.queue.rear ∧ ∃ j, f' + k = f + j ∧ s.order[j]? = some v) :
    Stored (s.goto q order t (.write s.queue.rear val) []) f' := by
  constructor
  case front => exact hfront
  case rear => exact hrear
  case size => exact hsize
  case room => exact hroom
  case kept =>
    intro k v hk
    rcases horder k v hk with ⟨hslot, rfl⟩ | ⟨hslot, j, hj, hv⟩
    · exact .inl ⟨t, by rw [s.goto_pcs_self, hslot]⟩
    · rw [hj] at hslot ⊢
      refine keeps_goto (h.kept j v hv) (congrFun hblocks _) (by simp [ht]) ?_
      intro w hw
      exact hslot (Pc.write.inj hw).1.symm
  case reading => exact h.reading_goto (fun _ i _ _ _ => congrFun hblocks i) (by simp)
  case taken => exact h.taken_goto (by simp)
  case delivered => exact h.delivered_goto (by simp)

/-- There is room for one more value. -/
theorem Stored.append (h : Stored s f) {val : D} (ht : s.pcs t = .enqueue val)
    (hne : s.queue.size ≠ n) :
    Stored (s.goto { s.queue with rear := next s.queue.rear, size := s.queue.size + 1 }
      (Fifo.slide n s.order val) t (.write s.queue.rear val) []) f := by
  have hlt : s.order.length < n := lt_of_le_of_ne h.room (h.size ▸ hne)
  rw [Fifo.slide_room val hlt]
  refine h.assignRear ht rfl h.front ?hrear ?hsize ?hroom ?horder
  case hrear => simp [h.rear, Nat.add_assoc]
  case hsize => simp [h.size]
  case hroom =>
    rw [List.length_append, List.length_singleton]
    exact hlt
  case horder =>
    intro k v hk
    rw [h.rear]
    rcases Fifo.getElem?_append_value hk with ⟨hkl, hv⟩ | ⟨rfl, rfl⟩
    · refine .inr ⟨?_, k, rfl, hv⟩
      intro heq
      have := slot_inj heq (by omega) (by omega)
      omega
    · exact .inl ⟨rfl, rfl⟩

/-- The oldest value makes room. -/
theorem Stored.replace (h : Stored s f) {val : D} (ht : s.pcs t = .enqueue val)
    (hfull : s.queue.size = n) :
    Stored (s.goto { s.queue with rear := next s.queue.rear, front := next s.queue.front }
      (Fifo.slide n s.order val) t (.write s.queue.rear val) []) (f + 1) := by
  have hlen : s.order.length = n := h.size ▸ hfull
  have hpos : 0 < n := Nat.pos_of_neZero n
  have hlength : (s.order ++ [val]).tail.length = n := by simp [hlen]
  -- the block of the oldest value is the one at `rear`
  have hrear : s.queue.rear = slot n f := by rw [h.rear, hlen, slot_lap]
  rw [Fifo.slide_full val hlen]
  refine h.assignRear ht rfl ?hfront ?hrear ?hsize ?hroom ?horder
  case hfront => simp [h.front]
  case hrear => simp [hlength, hrear, slot_lap]
  case hsize => exact hfull.trans hlength.symm
  case hroom => exact hlength.le
  case horder =>
    intro k v hk
    rw [List.getElem?_tail] at hk
    rw [hrear]
    rcases Fifo.getElem?_append_value hk with ⟨hkl, hv⟩ | ⟨hkl, rfl⟩
    · refine .inr ⟨?_, k + 1, by omega, hv⟩
      intro heq
      have := slot_inj heq (by omega) (by omega)
      omega
    · refine .inl ⟨?_, rfl⟩
      rw [show f + 1 + k = f + n by omega, slot_lap]

/-- A `dequeue` is assigned the block of the oldest value, which no operation is to access. -/
theorem Stored.oldest (h : Stored s f) (ht : s.pcs t = .dequeue) (hne : s.queue.size ≠ 0)
    (hfree : ∀ u, (s.pcs u).accesses ≠ some s.queue.front) :
    Stored (s.goto { s.queue with size := s.queue.size - 1, front := next s.queue.front }
      s.order.tail t (.read s.queue.front s.order.head?) []) (f + 1) := by
  have hpos : 0 < s.order.length := by
    have hsize := h.size
    omega
  have hroom := h.room
  constructor
  case front => simp [System.goto, h.front]
  case rear =>
    show s.queue.rear = slot n (f + 1 + s.order.tail.length)
    rw [h.rear, List.length_tail]
    congr 1
    omega
  case size =>
    show s.queue.size - 1 = s.order.tail.length
    rw [h.size, List.length_tail]
  case room =>
    show s.order.tail.length ≤ n
    rw [List.length_tail]
    omega
  case kept =>
    intro k v hk
    have hk : s.order[k + 1]? = some v := by rwa [← List.getElem?_tail]
    rw [show f + 1 + k = f + (k + 1) by omega]
    exact keeps_goto (h.kept (k + 1) v hk) rfl (by simp [ht]) (by simp)
  case reading =>
    refine h.reading_goto (fun _ _ _ _ _ => rfl) ?_
    intro i due hread
    obtain ⟨rfl, rfl⟩ := Pc.read.inj hread
    -- the `enqueue` that was assigned the block has written it
    have hhead : s.order[0]? = some s.order[0] := List.getElem?_eq_getElem hpos
    rw [List.head?_eq_getElem?, hhead]
    rcases h.kept 0 _ hhead with ⟨x, hx⟩ | ⟨hv, -⟩
    · exact absurd (by rw [hx, h.front]; rfl) (hfree x)
    · rw [← hv, h.front]
      rfl
  case taken => exact h.taken_goto (by simp)
  case delivered => exact h.delivered_goto (by simp)

theorem Stored.step (h : Stored s f) (hex : s.Exclusive) (hapart : s.Apart overwrite a)
    (hs : s.step overwrite a = some s') : ∃ f', Stored s' f' := by
  rcases System.step_cases hs with
    ⟨t, p, ht, hp, -, rfl⟩ | ⟨t, q, order, p, new, rfl, rfl, hmove⟩
  · refine ⟨f, h.stay rfl rfl rfl rfl (by simp [ht]) ?_ ?_ (by simp)⟩
    · rcases hp with ⟨val, rfl⟩ | rfl <;> rfl
    · rcases hp with ⟨val, rfl⟩ | rfl <;> simp
  · have hfree : ∀ i, s.assigns overwrite t = some i → ∀ u, (s.pcs u).accesses ≠ some i := hapart
    have hassigns := fun i => assigns_accesses hmove (i := i)
    have hread := h.reading t
    have htaken := h.taken t
    generalize ht : s.pcs t = pc at hmove hassigns hread htaken
    cases hmove with
    | append val hne => exact ⟨f, h.append ht hne⟩
    | replace val hfull hover => exact ⟨f + 1, h.replace ht hfull⟩
    | write rear val => exact ⟨f, h.write hex ht⟩
    | oldest hne => exact ⟨f + 1, h.oldest ht hne (hfree _ ((hassigns _).mpr ⟨rfl, rfl⟩))⟩
    | read front due =>
      refine ⟨f, h.stay rfl rfl rfl rfl (by simp [ht]) rfl ?_ (by simp)⟩
      intro i d out heq
      cases heq
      exact hread front due rfl
    | taken front due out =>
      refine ⟨f, h.stay rfl rfl rfl rfl (by simp [ht]) rfl (by simp) ?_⟩
      intro u d o hmem
      obtain ⟨-, rfl, rfl⟩ := Event.dequeued.inj (List.mem_singleton.mp hmem)
      exact htaken front d o rfl
    | full val hfull hover =>
      exact ⟨f, h.stay rfl rfl rfl rfl (by simp [ht]) rfl (by simp) (by simp)⟩
    | written rear => exact ⟨f, h.stay rfl rfl rfl rfl (by simp [ht]) rfl (by simp) (by simp)⟩
    | empty hempty => exact ⟨f, h.stay rfl rfl rfl rfl (by simp [ht]) rfl (by simp) (by simp)⟩

variable {tr : List (System n D T × Action D T)} {blocks : Fin n → D}

theorem delivered_run (h : Run (System.step overwrite) (System.init blocks) tr s)
    (hapart : Meets (System.Apart overwrite) tr) : s.Delivered := by
  have hinv : s.Exclusive ∧ ∃ f, Stored s f := by
    refine Run.invariant (C := System.Apart overwrite) (I := fun s => s.Exclusive ∧ ∃ f, Stored s f)
      ⟨exclusive_init blocks, 0, stored_init blocks⟩ ?_ h hapart
    intro x b y hall hb hs
    obtain ⟨hex, f, hx⟩ := hall
    exact ⟨exclusive_step hex hb hs, hx.step hex hb hs⟩
  obtain ⟨-, f, hf⟩ := hinv
  exact hf.delivered

/-- **What the locked ring delivers.** In every run the operations are apart, each `dequeue`
that returns true yields the value it was assigned and block locks are released by their
owners exactly if no block is assigned while an operation is still to access it and no
operation gets to its release. The first of the two conditions alone makes the operations
apart and the values right, and nothing else makes them apart. -/
theorem locked_ring (h : Run (System.step overwrite) (System.init blocks) tr s) :
    (((∀ m ∈ visited tr s, m.Exclusive) ∧ s.Delivered ∧ OwnReleases overwrite tr) ↔
        Meets (System.Apart overwrite) tr ∧ Meets System.ReleasesNone tr) ∧
      ((∀ m ∈ visited tr s, m.Exclusive) ↔ Meets (System.Apart overwrite) tr) ∧
      (Meets (System.Apart overwrite) tr → s.Delivered) := by
  have hexclusive := exclusive_iff h
  have hdelivered := delivered_run h
  refine ⟨?_, hexclusive, hdelivered⟩
  rw [hexclusive, ownReleases_iff]
  refine ⟨?_, ?_⟩
  · intro hall
    obtain ⟨hapart, -, hnone⟩ := hall
    exact ⟨hapart, hnone⟩
  · intro hall
    obtain ⟨hapart, hnone⟩ := hall
    exact ⟨hapart, hdelivered hapart, hnone⟩

end

/-! ## Concrete runs -/

instance [Fintype T] [DecidableEq T] (overwrite : Bool) (s : System n D T) :
    ∀ a, Decidable (s.Apart overwrite a)
  | .enqueue _ _ | .dequeue _ => isTrue trivial
  | .run t => inferInstanceAs (Decidable (∀ i, s.assigns overwrite t = some i →
      ∀ u, (s.pcs u).accesses ≠ some i))

/-- A value is enqueued, and then dequeued. -/
def handedOver : List (Action Nat Bool) :=
  [.enqueue true 7, .run true, .run true, .run true, .dequeue false, .run false, .run false,
    .run false]

theorem locked_ring_handed_over : ∃ (tr : _) (s : System 1 Nat Bool),
    Run (System.step false) (System.init fun _ => 0) tr s ∧ tr.map Prod.snd = handedOver ∧
      (∀ m ∈ visited tr s, m.Exclusive) ∧ s.Delivered ∧
      s.log = [.enqueued true true, .dequeued false (some 7) 7] := by
  have hrun : ∃ (tr : _) (s : System 1 Nat Bool),
      Run (System.step false) (System.init fun _ => 0) tr s ∧
        Meets (System.Apart false) tr ∧ tr.map Prod.snd = handedOver ∧
        s.log = [.enqueued true true, .dequeued false (some 7) 7] :=
    Run.of_execMeets_any _ (by decide)
  obtain ⟨tr, s, h, hapart, ha, hlog⟩ := hrun
  obtain ⟨-, hexclusive, hdelivered⟩ := locked_ring h
  exact ⟨tr, s, h, ha, hexclusive.mpr hapart, hdelivered hapart, hlog⟩

/-- The `dequeue` is assigned the block of an `enqueue` that has not written it, and reads it. -/
def overtaken : List (Action Nat Bool) :=
  [.enqueue true 7, .run true, .dequeue false, .run false, .run false]

theorem read_before_write : ∃ (tr : _) (s : System 1 Nat Bool),
    Run (System.step false) (System.init fun _ => 0) tr s ∧
      tr.map Prod.snd = overtaken ++ [.run false] ∧ ¬ s.Delivered ∧ ¬ OwnReleases false tr := by
  have hrun : ∃ (tr : _) (s : System 1 Nat Bool),
      Run (System.step false) (System.init fun _ => 0) tr s ∧ tr.map Prod.snd = overtaken ∧
        (s.pcs false).releases = some 0 ∧
        (s.step false (.run false)).map System.log = some [.dequeued false (some 7) 0] :=
    Run.of_exec_any _ (by decide)
  obtain ⟨tr, m, h, ha, hrel, hstep⟩ := hrun
  obtain ⟨s, hs, hlog⟩ := Option.map_eq_some_iff.mp hstep
  refine ⟨tr ++ [(m, .run false)], s, .snoc h hs, by simp [ha], ?_, ?_⟩
  · intro hdelivered
    have heq := hdelivered false (some 7) 0 (by simp [hlog])
    cases heq
  · intro hown
    have hnone : (m.pcs false).releases = none := (meets_snoc.mp (ownReleases_iff.mp hown)).2
    rw [hrel] at hnone
    cases hnone

end Vee.Locked.Queue
