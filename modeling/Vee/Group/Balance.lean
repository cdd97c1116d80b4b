import Vee.Group.Search

/- Requests made one after another, with no job finishing.

   From a state in which no worker has anything to do, every worker counts just the jobs
   that were placed on it: its thread takes them out of the queue and runs one, but uncounts
   none, and it is signalled once, for its first job (`Unfinished`). So the counter never
   says more than the sum of the loads, a job goes to a worker loaded no more than the mean,
   and the loads stay within 1 of each other (`Evened`). That holds with any first loads:
   one that is not quiet keeps its caller waiting, and nothing more is requested. -/
namespace Vee.Worker
open Lockfree (Next)

variable {w : Nat} {J : Type*}

/-- A worker none of whose jobs has finished, its thread being at `p` and the one caller
there may be at `c`. -/
structure Unfinished (size : QueueSize w) (m : Memory w J) (p : WorkerPc w)
    (c : Option (RequestPc w)) : Prop where
  counts : m.remained.toNat + (if c = some .fetchAdd then 1 else 0) = m.queue.length + p.inHand
  room : m.queue.length ≤ size.slots
  uncounting : p ≠ .fetchSub
  promise : m.promise = p.slept
  made : ∀ q, p.slept = some q → q < m.made
  fresh : ∀ q, m.made ≤ q → m.signals q = 0
  awake : p.Awake m → m.remained ≠ 0
  woken : ∀ q, p = .resetPromise q → m.signals q ≠ 0
  pending : Pending c → m.remained ≠ 0 ∧ ∀ q, m.promise = some q → m.signals q = 0
  signaller : c = some .setValue → m.promise ≠ none
  positive : ∀ old, c = some (.jobRequested old) → old + 1 ≠ 0

section
variable {size : QueueSize w} {m m' : Memory w J} {p p' : WorkerPc w}
  {c c' : Option (RequestPc w)} {job : Job J}

/-- A caller that counts nothing and takes no signal on itself. -/
theorem Unfinished.stay (h : Unfinished size m p c) (hc : c ≠ some .fetchAdd)
    (hc' : c' ≠ some .fetchAdd) (hpend : Pending c' → Pending c)
    (hset : c' = some .setValue → m.promise ≠ none)
    (hpos : ∀ old, c' = some (.jobRequested old) → old + 1 ≠ 0) : Unfinished size m p c' := by
  obtain ⟨h₁, h₂, h₃, h₄, h₅, h₆, h₇, h₈, h₉, h₁₀, h₁₁⟩ := h
  constructor
  case counts => simpa [hc, hc'] using h₁
  case pending => exact fun hp => h₉ (hpend hp)
  all_goals assumption

/-- A caller is in no request, or arrives in one, and has counted no job. -/
theorem Unfinished.aside (h : Unfinished size m p c) (hc : c ≠ some .fetchAdd)
    (hc' : c' = none ∨ c' = some .enqueue) : Unfinished size m p c' := by
  apply h.stay hc <;> rcases hc' with rfl | rfl <;> simp [Pending]

/-- A caller places its job. -/
theorem Unfinished.placed (h : Unfinished size m p (some .enqueue))
    (hroom : m.queue.length < size.slots) :
    Unfinished size { m with queue := m.queue ++ [job] } p (some .fetchAdd) := by
  obtain ⟨h₁, h₂, h₃, h₄, h₅, h₆, h₇, h₈, h₉, h₁₀, h₁₁⟩ := h
  constructor
  case counts =>
    simp only [reduceCtorEq, Option.some.injEq, if_false, if_true, List.length_append,
      List.length_singleton] at h₁ ⊢
    omega
  case room =>
    simp only [List.length_append, List.length_singleton]
    omega
  case awake => exact fun ha => h₇ (by cases p <;> exact ha)
  case pending => exact fun hp => hp.elim
  case signaller => simp
  case positive => simp
  all_goals assumption

/-- The count does not wrap when a job is counted. -/
theorem Unfinished.remained_lt (h : Unfinished size m p (some .fetchAdd)) :
    m.remained.toNat + 1 < 2 ^ w := by
  have hcount := h.counts
  have hroom := h.room
  have hhand := p.inHand_le
  have hsize := size.slots_lt
  simp only [if_true] at hcount
  omega

/-- A thread that has a signalled promise is awake. -/
theorem Unfinished.unsignalled (h : Unfinished size m p c) (hzero : m.remained = 0) {q : Nat}
    (hq : m.promise = some q) : m.signals q = 0 := by
  by_contra hset
  have hslept : p.slept = some q := by rw [← h.promise, hq]
  exact h.awake (WorkerPc.awake_of_set hslept hset) hzero

/-- A caller counts its job, and owes a signal if it is the first. -/
theorem Unfinished.counted (h : Unfinished size m p (some .fetchAdd))
    (hpend : Pending c' → m.remained = 0) (hc' : c' ≠ some .fetchAdd ∧ c' ≠ some .setValue)
    (hpos : ∀ old, c' = some (.jobRequested old) → old + 1 ≠ 0) :
    Unfinished size { m with remained := m.remained + 1 } p c' := by
  have hlt := h.remained_lt
  have hnz : m.remained + 1 ≠ 0 := add_one_ne_zero hlt
  have hsignals := fun hp q hq => h.unsignalled (hpend hp) (q := q) hq
  obtain ⟨h₁, h₂, h₃, h₄, h₅, h₆, h₇, h₈, h₉, h₁₀, h₁₁⟩ := h
  constructor
  case counts =>
    show (m.remained + 1).toNat + _ = _
    rw [toNat_add_one hlt, if_neg hc'.1]
    simpa using h₁
  case awake => exact fun _ => hnz
  case pending => exact fun hp => ⟨hnz, hsignals hp⟩
  case signaller => exact fun hset => absurd hset hc'.2
  all_goals assumption

/-- A caller signals. -/
theorem Unfinished.signal (h : Unfinished size m p (some .setValue)) {q : Nat}
    (hq : m.promise = some q) {old : BitVec w} (hpos : old + 1 ≠ 0) :
    Unfinished size { m with signals := Function.update m.signals q (m.signals q + 1) } p
      (some (.jobRequested old)) := by
  have hcounted := (h.pending trivial).1
  have hqmade : q < m.made := h.made q (by rw [← h.promise, hq])
  obtain ⟨h₁, h₂, h₃, h₄, h₅, h₆, h₇, h₈, h₉, h₁₀, h₁₁⟩ := h
  constructor
  case counts => simpa using h₁
  case fresh =>
    intro r hr
    have hrq : r ≠ q := by
      intro heq
      subst heq
      exact absurd hqmade (by simpa using hr)
    simpa [Function.update_of_ne hrq] using h₆ r hr
  case awake => exact fun _ => hcounted
  case woken =>
    intro r hr
    by_cases hrq : r = q
    · simp [hrq]
    · simpa [Function.update_of_ne hrq] using h₈ r hr
  case pending => exact fun hp => hp.elim
  case signaller => simp
  case positive =>
    intro old' heq
    cases heq
    exact hpos
  all_goals assumption

/-- **Steps of `nothrow_request`**. -/
theorem Unfinished.request {pc : RequestPc w} {next : Next (RequestPc w) (RequestResult w)}
    (h : Unfinished size m p (some pc)) (hm : RequestMove size job m pc m' next) :
    Unfinished size m' p (RequestPc.after next) := by
  have hone := size.one_ne_zero
  cases hm with
  | refused | requested => apply h.stay <;> simp [RequestPc.after, Pending]
  | placed hroom => exact h.placed hroom
  | first hz => apply h.counted <;> simp [RequestPc.after, hz]
  | counted hnz =>
    have hpos : m.remained + 1 ≠ 0 := add_one_ne_zero h.remained_lt
    apply h.counted <;> simp [RequestPc.after, Pending]
    exact hpos
  | awake | spin => apply h.stay <;> simp [RequestPc.after, Pending]
  | standby =>
    refine h.stay (by simp) (by simp [RequestPc.after]) (fun hp => hp.elim)
      (by simp [RequestPc.after]) ?_
    intro old heq
    cases heq
    exact hone
  | ready q hq => apply h.stay <;> simp [RequestPc.after, Pending, hq]
  | signal q hq => exact h.signal hq hone
  | signalAgain q hq hset => exact absurd ((h.pending trivial).2 q hq) hset
  | signalNull hnone => exact absurd hnone (h.signaller rfl)

/-- No call ends in the exception of `set_value` or at a null promise. -/
theorem Unfinished.result {pc : RequestPc w} {r : RequestResult w}
    (h : Unfinished size m p (some pc)) (hm : RequestMove size job m pc m' (.returned r)) :
    ∃ count, r = .count count := by
  cases hm with
  | refused | requested => exact ⟨_, rfl⟩
  | signalAgain q hq hset => exact absurd ((h.pending trivial).2 q hq) hset
  | signalNull hnone => exact absurd hnone (h.signaller rfl)

/-- The thread goes on without touching the queue, the count or the promise. -/
theorem Unfinished.move (h : Unfinished size m p c) (p' : WorkerPc w) (j : Option (Job J))
    (st : State) (hp' : p' ≠ .fetchSub) (hslept : p'.slept = p.slept) (hhand : p'.inHand = p.inHand)
    (hawake : p'.Awake m → m.remained ≠ 0)
    (hwoken : ∀ q, p' = .resetPromise q → m.signals q ≠ 0) :
    Unfinished size { m with currentJob := j, state := st } p' c where
  counts := by rw [hhand]; exact h.counts
  room := h.room
  uncounting := hp'
  promise := by rw [hslept]; exact h.promise
  made := by rw [hslept]; exact h.made
  fresh := h.fresh
  awake ha := hawake (by cases p' <;> exact ha)
  woken := hwoken
  pending := h.pending
  signaller := h.signaller
  positive := h.positive

/-- The thread makes a promise, which nobody has signalled. -/
theorem Unfinished.makePromise (h : Unfinished size m .makePromise c) :
    Unfinished size { m with promise := some m.made, made := m.made + 1 } (.sleep m.made) c := by
  have hfresh := h.fresh m.made (Nat.le_refl _)
  obtain ⟨h₁, h₂, h₃, h₄, h₅, h₆, h₇, h₈, h₉, h₁₀, h₁₁⟩ := h
  constructor
  case uncounting => simp
  case promise => rfl
  case made =>
    intro q hq
    obtain rfl : m.made = q := Option.some.inj hq
    exact Nat.lt_succ_self _
  case fresh => exact fun q hq => h₆ q (Nat.le_of_succ_le hq)
  case awake => exact fun ha => absurd hfresh ha
  case woken => simp
  case pending =>
    intro hp
    refine ⟨(h₉ hp).1, ?_⟩
    intro q hq
    obtain rfl : m.made = q := Option.some.inj hq
    exact hfresh
  case signaller => simp
  all_goals assumption

/-- The thread drops its promise: it has been signalled, so no caller owes a signal. -/
theorem Unfinished.resetPromise {q : Nat} (h : Unfinished size m (.resetPromise q) c) :
    Unfinished size { m with promise := none } .dequeue c := by
  have hq : m.promise = some q := h.promise
  have hset := h.woken q rfl
  obtain ⟨h₁, h₂, h₃, h₄, h₅, h₆, h₇, h₈, h₉, h₁₀, h₁₁⟩ := h
  constructor
  case uncounting => simp
  case promise => rfl
  case made => simp [WorkerPc.slept]
  case awake => exact fun _ => h₇ trivial
  case woken => simp
  case pending => exact fun hp => absurd ((h₉ hp).2 q hq) hset
  case signaller =>
    intro heq
    subst heq
    exact absurd ((h₉ trivial).2 q hq) hset
  all_goals assumption

/-- The thread takes a job out of the queue. -/
theorem Unfinished.takeJob {queue : List (Job J)} (h : Unfinished size m .dequeue c)
    (hq : m.queue = job :: queue) :
    Unfinished size { m with queue := queue, currentJob := some job } .run c := by
  obtain ⟨h₁, h₂, h₃, h₄, h₅, h₆, h₇, h₈, h₉, h₁₀, h₁₁⟩ := h
  rw [hq, List.length_cons] at h₁ h₂
  constructor
  case counts => simpa [WorkerPc.inHand] using h₁
  case room => exact Nat.le_of_succ_le h₂
  case uncounting => simp
  case awake => exact fun _ => h₇ trivial
  case woken => simp
  all_goals assumption

/-- Only one step uncounts a job. -/
theorem WorkMove.remained (h : WorkMove m p m' p') (hp : p ≠ .fetchSub) :
    m'.remained = m.remained := by
  cases h <;> first | rfl | exact absurd rfl hp

/-- An awake thread finds a job. -/
theorem Unfinished.queue_ne_nil (h : Unfinished size m .dequeue c) : m.queue ≠ [] := by
  intro hnil
  have hpos := toNat_ne_zero (h.awake trivial)
  have hcount := h.counts
  simp only [hnil, WorkerPc.inHand, List.length_nil] at hcount
  omega

/-- **Steps of `_worker_main`**, of which none comes after that of the end of a job. -/
theorem Unfinished.work (h : Unfinished size m p c) (hm : WorkMove m p m' p')
    (hp : p ≠ .jobProcessed) : Unfinished size m' p' c := by
  cases hm with
  | load =>
    exact h.move (.test m.remained) m.currentJob m.state (by simp) rfl rfl (fun ha => ha) (by simp)
  | idle r hrun hr =>
    exact h.move .makePromise m.currentJob m.state (by simp) rfl rfl (fun ha => ha.elim) (by simp)
  | busy r hrun hr =>
    exact h.move .dequeue m.currentJob m.state (by simp) rfl rfl (fun _ => h.awake hr) (by simp)
  | leave r hrun =>
    exact h.move .finalExchange m.currentJob m.state (by simp) rfl rfl (fun ha => ha.elim) (by simp)
  | makePromise => exact h.makePromise
  | sleep q =>
    exact h.move (.wait q) m.currentJob m.state (by simp) rfl rfl (fun ha => h.awake ha) (by simp)
  | wake q hset =>
    refine h.move (.resetPromise q) m.currentJob m.state (by simp) rfl rfl
      (fun _ => h.awake hset) ?_
    intro r hr
    cases hr
    exact hset
  | resetPromise q => exact h.resetPromise
  | noJob hnil => exact absurd hnil h.queue_ne_nil
  | job job queue hq => exact h.takeJob hq
  | run =>
    exact h.move .reset m.currentJob m.state (by simp) rfl rfl (fun _ => h.awake trivial) (by simp)
  | reset =>
    exact h.move .jobProcessed none m.state (by simp) rfl rfl (fun _ => h.awake trivial) (by simp)
  | jobProcessed => exact absurd rfl hp
  | fetchSub => exact absurd rfl h.uncounting
  | finish hst =>
    exact h.move .exited m.currentJob .standby (by simp) rfl rfl (fun ha => ha.elim) (by simp)
  | unexpected hst =>
    exact h.move .threw m.currentJob m.state (by simp) rfl rfl (fun ha => ha.elim) (by simp)

end

end Vee.Worker

namespace Vee.Group
open Transition Loads
open Lockfree (Next)
open Worker (Memory RequestPc RequestResult RequestMove WorkerPc WorkMove QueueSize Job Unfinished)

variable {w n : Nat} {J T : Type*}

/-- A request is made when the one before it has returned, and no job finishes. -/
def System.OneByOne (s : System w n J T) : Action n J T → Prop
  | .call _ _ => ∀ t, s.callers t = .idle
  | .run _ => True
  | .work id => s.threads id ≠ .jobProcessed

/-- Where the one caller is that may be in a request. -/
def System.Current (s : System w n J T) (cur : Pc w n J) : Prop :=
  (∀ t, s.callers t = .idle) ∧ cur = .idle ∨
    ∃ t, s.callers t = cur ∧ ∀ u, u ≠ t → s.callers u = .idle

/-- The job that the caller has counted and not announced. -/
def Pc.counted : Pc w n J → Nat
  | request _ _ _ .loadState | request _ _ _ .awaitPromise | request _ _ _ .setValue
  | request _ _ _ (.jobRequested _) => 1
  | _ => 0

/-- What the caller takes for the average is no more than the mean, and neither is the load
of the worker it is about to give its job. -/
def Pc.Aims (loads : Fin n → Nat) : Pc w n J → Prop
  | test _ average _ => average ≤ mean loads
  | request _ average id .enqueue | request _ average id .fetchAdd =>
    average ≤ mean loads ∧ loads id ≤ mean loads
  | _ => True

/-- No job has finished, requests have been made one after another, and the loads are even. -/
structure Evened (size : QueueSize w) (s : System w n J T) (cur : Pc w n J) : Prop where
  current : s.Current cur
  workers : ∀ id, Unfinished size (s.mems id) (s.threads id) (cur.requesting id)
  counter : s.jobCounter.toNat + cur.counted ≤ ∑ id, s.loads id
  aims : cur.Aims s.loads
  level : Level s.loads

section
variable {size : QueueSize w} {x s s' : System w n J T} {a : Action n J T} {t : T}
  {cur p : Pc w n J}

/-- A caller that takes a step is the current one. -/
theorem System.Current.at (h : s.Current cur) (ht : s.callers t ≠ .idle) :
    s.callers t = cur ∧ ∀ u, u ≠ t → s.callers u = .idle := by
  rcases h with ⟨hidle, -⟩ | ⟨u, hu, hother⟩
  · exact absurd (hidle t) ht
  · by_cases htu : t = u
    · subst htu
      exact ⟨hu, hother⟩
    · exact absurd (hother t htu) ht

variable [DecidableEq T]

theorem System.Current.goto (h : ∀ u, u ≠ t → s.callers u = .idle) (p : Pc w n J)
    (new : List (Event J T)) : (s.goto t p new).Current p := by
  refine .inr ⟨t, goto_self s t p new, ?_⟩
  intro u hu
  simpa [System.goto, Function.update_of_ne hu] using h u hu

/-- A step of the current caller outside the workers. -/
theorem Evened.goto (h : Evened size s cur) (hother : ∀ u, u ≠ t → s.callers u = .idle)
    (new : List (Event J T)) (hcur : ∀ id, cur.requesting id ≠ some .fetchAdd)
    (hp : ∀ id, p.requesting id = none ∨ p.requesting id = some .enqueue)
    (hcounted : p.counted = 0) (haims : p.Aims s.loads) : Evened size (s.goto t p new) p where
  current := System.Current.goto hother p new
  workers id := (h.workers id).aside (hcur id) (hp id)
  counter := by
    rw [hcounted]
    exact Nat.le_trans (Nat.le_add_right _ _) h.counter
  aims := haims
  level := h.level

/-- The loop, with an average no more than the mean. -/
theorem Evened.loop (h : Evened size s cur) (hother : ∀ u, u ≠ t → s.callers u = .idle)
    (hcur : ∀ id, cur.requesting id ≠ some .fetchAdd) (job : J) {average : Nat}
    (hmean : average ≤ mean s.loads) (k : Nat) :
    ∃ cur', Evened size (s.loop t job average k) cur' := by
  rcases s.loop_goto t job average k with ⟨hk, heq⟩ | ⟨hk, heq⟩
  · rw [heq]
    exact ⟨_, h.goto hother _ hcur (fun _ => .inl rfl) rfl hmean⟩
  · rw [heq]
    exact ⟨_, h.goto hother _ hcur (fun _ => .inl rfl) rfl trivial⟩

omit [DecidableEq T] in
theorem toNat_add_one_le (counter : BitVec w) : (counter + 1).toNat ≤ counter.toNat + 1 := by
  have hone : (1 : BitVec w).toNat ≤ 1 := by
    simpa using Nat.mod_le 1 (2 ^ w)
  calc (counter + 1).toNat = (counter.toNat + (1 : BitVec w).toNat) % 2 ^ w := BitVec.toNat_add ..
    _ ≤ counter.toNat + (1 : BitVec w).toNat := Nat.mod_le _ _
    _ ≤ counter.toNat + 1 := Nat.add_le_add_left hone _

omit [DecidableEq T] in
/-- The loads when the memory of one worker changes. -/
theorem loads_update (s : System w n J T) (id : Fin n) (m : Memory w J) (counter : BitVec w) :
    ({ s with mems := Function.update s.mems id m, jobCounter := counter } : System w n J T).loads =
      Function.update s.loads id m.remained.toNat := by
  funext j
  by_cases hj : j = id
  · simp [System.loads, hj]
  · simp [System.loads, hj]

/-- A step of the current caller in worker `id`, which takes it to `p`. -/
theorem Evened.inWorker (h : Evened size s cur) (hother : ∀ u, u ≠ t → s.callers u = .idle)
    {id : Fin n} {m : Memory w J} {counter : BitVec w} (new : List (Event J T))
    (hworker : Unfinished size m (s.threads id) (p.requesting id))
    (hcur : ∀ j, j ≠ id → cur.requesting j = none) (hp : ∀ j, j ≠ id → p.requesting j = none)
    (hcounter : counter.toNat + p.counted ≤
      ∑ j, Function.update s.loads id m.remained.toNat j)
    (haims : p.Aims (Function.update s.loads id m.remained.toNat))
    (hlevel : Level (Function.update s.loads id m.remained.toNat)) :
    Evened size ({ s with
      mems := Function.update s.mems id m
      jobCounter := counter }.goto t p new) p := by
  have hloads := loads_update s id m counter
  constructor
  case current => exact System.Current.goto hother p new
  case workers =>
    intro j
    show Unfinished size (Function.update s.mems id m j) (s.threads j) (p.requesting j)
    by_cases hj : j = id
    · subst hj
      rwa [Function.update_self]
    · rw [Function.update_of_ne hj, hp j hj, ← hcur j hj]
      exact h.workers j
  case counter => exact hloads ▸ hcounter
  case aims => exact hloads ▸ haims
  case level => exact hloads ▸ hlevel

omit [DecidableEq T] in
theorem requesting_self (job : J) (average : Nat) (id : Fin n) (pc : RequestPc w) :
    (Pc.request job average id pc).requesting id = some pc := if_pos rfl

omit [DecidableEq T] in
theorem requesting_other (job : J) (average : Nat) {id : Fin n} (pc : RequestPc w) (j : Fin n)
    (hj : j ≠ id) : (Pc.request job average id pc).requesting j = none := if_neg hj.symm

/-- The caller counts its job: the load of its worker rises by 1, and was no more than the mean. -/
theorem Evened.raise {job : J} {average : Nat} {id : Fin n} {pc : RequestPc w}
    (h : Evened size s (.request job average id .fetchAdd))
    (hother : ∀ u, u ≠ t → s.callers u = .idle)
    (hworker : Unfinished size { s.mems id with remained := (s.mems id).remained + 1 }
      (s.threads id) (some pc))
    (hcounted : (Pc.request job average id pc).counted = 1)
    (haims : ∀ loads, (Pc.request job average id pc).Aims loads) :
    Evened size ({ s with
      mems := Function.update s.mems id
        { s.mems id with remained := (s.mems id).remained + 1 } }.goto t
          (.request job average id pc) []) (.request job average id pc) := by
  have hlt : (s.mems id).remained.toNat + 1 < 2 ^ w := by
    have hat := h.workers id
    rw [requesting_self] at hat
    exact hat.remained_lt
  have hload : ((s.mems id).remained + 1).toNat = s.loads id + 1 := Worker.toNat_add_one hlt
  have hsum := sum_change (f := s.loads) (g := Function.update s.loads id (s.loads id + 1)) id
    fun j hj => Function.update_of_ne hj _ _
  rw [Function.update_self] at hsum
  refine h.inWorker hother [] ?_ (requesting_other job average _) (requesting_other job average _)
    ?_ ?_ ?_
  · rw [requesting_self]
    exact hworker
  · have hcounter := h.counter
    show s.jobCounter.toNat + _ ≤ ∑ j, Function.update s.loads id ((s.mems id).remained + 1).toNat j
    rw [hload, hcounted]
    simp only [Pc.counted] at hcounter
    omega
  · exact haims _
  · show Level (Function.update s.loads id ((s.mems id).remained + 1).toNat)
    rw [hload]
    exact h.level.raise h.aims.2

/-- A step of the worker's `nothrow_request` the caller is in. -/
theorem Evened.request {job : J} {average : Nat} {id : Fin n} {pc : RequestPc w} {m : Memory w J}
    {next : Next (RequestPc w) (RequestResult w)}
    (h : Evened size s (.request job average id pc)) (hother : ∀ u, u ≠ t → s.callers u = .idle)
    (hm : RequestMove size (.task job) (s.mems id) pc m next) :
    ∃ cur', Evened size ({ s with
      mems := Function.update s.mems id m
      jobCounter := onJobRequested s.jobCounter pc }.afterRequest t job average id next) cur' := by
  have hworker : Unfinished size (s.mems id) (s.threads id) (some pc) := by
    rw [← requesting_self job average id pc]
    exact h.workers id
  have hnew := hworker.request hm
  have hcounter := h.counter
  have haims := h.aims
  have hsame : Function.update s.loads id (s.mems id).remained.toNat = s.loads :=
    Function.update_eq_self id s.loads
  cases hm with
  | refused hfull =>
    have hcur : ∀ j, (Pc.request job average id .enqueue : Pc w n J).requesting j ≠
        some .fetchAdd := by
      intro j
      by_cases hj : j = id
      · rw [hj, requesting_self]
        simp
      · rw [requesting_other job average _ j hj]
        simp
    rw [Function.update_eq_self]
    exact h.loop hother hcur job haims.1 (id + 1)
  | placed hroom =>
    refine ⟨_, h.inWorker hother [] ?_ (requesting_other job average _)
      (requesting_other job average .fetchAdd) ?_ ?_ ?_⟩
    · rw [requesting_self]
      exact hnew
    · rw [hsame]
      exact hcounter
    · rw [hsame]
      exact haims
    · rw [hsame]
      exact h.level
  | first | counted => exact ⟨_, h.raise hother hnew rfl fun _ => trivial⟩
  | awake | standby | spin | ready | signal =>
    refine ⟨_, h.inWorker hother [] ?_ (requesting_other job average _)
      (requesting_other job average _) ?_ ?_ ?_⟩
    · rw [requesting_self]
      exact hnew
    · rw [hsame]
      exact hcounter
    · trivial
    · rw [hsame]
      exact h.level
  | signalAgain q hq hset =>
    exact absurd ((hworker.pending trivial).2 q hq) hset
  | signalNull hnone => exact absurd hnone (hworker.signaller rfl)
  | requested old =>
    simp only [System.afterRequest, if_neg (hworker.positive old rfl)]
    refine ⟨_, h.inWorker hother _ hnew (requesting_other job average _) (fun _ _ => rfl) ?_ trivial
      ?_⟩
    · have hle := toNat_add_one_le s.jobCounter
      rw [hsame]
      exact Nat.le_trans hle hcounter
    · rw [hsame]
      exact h.level

omit [DecidableEq T] in
/-- A step of a worker. -/
theorem Evened.work (h : Evened size s cur) {id : Fin n} {m : Memory w J} {p : WorkerPc w}
    (hm : WorkMove (s.mems id) (s.threads id) m p) (hp : s.threads id ≠ .jobProcessed)
    (hmems : s'.mems = Function.update s.mems id m)
    (hthreads : s'.threads = Function.update s.threads id p)
    (hcounter : s'.jobCounter = onJobProcessed s.jobCounter (s.threads id))
    (hcallers : s'.callers = s.callers) : Evened size s' cur := by
  have hworker := h.workers id
  have hremained := hm.remained hworker.uncounting
  have hloads : s'.loads = s.loads := by
    funext j
    by_cases hj : j = id
    · simp [System.loads, hmems, hj, hremained]
    · simp [System.loads, hmems, hj]
  constructor
  case current =>
    unfold System.Current
    rw [hcallers]
    exact h.current
  case workers =>
    intro j
    rw [hmems, hthreads]
    by_cases hj : j = id
    · subst hj
      rw [Function.update_self, Function.update_self]
      exact hworker.work hm hp
    · rw [Function.update_of_ne hj, Function.update_of_ne hj]
      exact h.workers j
  case counter =>
    have hsame : onJobProcessed s.jobCounter (s.threads id) = s.jobCounter := by
      generalize s.threads id = pc at hp
      cases pc <;> first | rfl | exact absurd rfl hp
    rw [hcounter, hsame, hloads]
    exact h.counter
  case aims => exact hloads ▸ h.aims
  case level => exact hloads ▸ h.level

theorem Evened.step (h : Evened size s cur) (hs : Stepped size s a s') (ha : s.OneByOne a) :
    ∃ cur', Evened size s' cur' := by
  cases hs with
  | called t job ht =>
    have hidle : cur = .idle := by
      rcases h.current with ⟨-, hcur⟩ | ⟨u, hu, -⟩
      · exact hcur
      · rw [← hu]
        exact ha u
    subst hidle
    exact ⟨_, h.goto (fun u _ => ha u) _ (by simp [Pc.requesting]) (fun _ => .inl rfl) rfl trivial⟩
  | loaded t job ht =>
    obtain ⟨hcur, hother⟩ := h.current.at (t := t) (by simp [ht])
    rw [ht] at hcur
    subst hcur
    have hcounter := h.counter
    have hmean : s.jobCounter.toNat / n ≤ mean s.loads := by
      rw [mean, Fintype.card_fin]
      exact Nat.div_le_div_right (Nat.le_trans (Nat.le_add_right _ _) hcounter)
    exact h.loop hother (by simp [Pc.requesting]) job hmean 0
  | admitted t job average id ht hle =>
    obtain ⟨hcur, hother⟩ := h.current.at (t := t) (by simp [ht])
    rw [ht] at hcur
    subst hcur
    have hmean : average ≤ mean s.loads := h.aims
    refine ⟨_, h.goto hother [] (by simp [Pc.requesting]) ?_ rfl ⟨hmean, Nat.le_trans hle hmean⟩⟩
    intro j
    by_cases hj : j = id
    · rw [hj, requesting_self]
      exact .inr rfl
    · exact .inl (requesting_other job average _ j hj)
  | passed t job average id ht hlt =>
    obtain ⟨hcur, hother⟩ := h.current.at (t := t) (by simp [ht])
    rw [ht] at hcur
    subst hcur
    exact h.loop hother (by simp [Pc.requesting]) job h.aims (id + 1)
  | request t job average id pc m next ht hm =>
    obtain ⟨hcur, hother⟩ := h.current.at (t := t) (by simp [ht])
    rw [ht] at hcur
    subst hcur
    exact h.request hother hm
  | work id m p hm => exact ⟨cur, h.work hm ha rfl rfl rfl rfl⟩

end

/-! ## Concrete runs -/

instance [DecidableEq T] (t : T) (s : System w n J T) : ∀ a, Decidable (s.OneCall t a)
  | .call _ _ => isFalse id
  | .run u => inferInstanceAs (Decidable (u = t))
  | .work id => inferInstanceAs (Decidable (¬ (s.threads id).Shifts))

instance [Fintype T] [DecidableEq J] (s : System w n J T) : ∀ a, Decidable (s.OneByOne a)
  | .call _ _ => inferInstanceAs (Decidable (∀ t, s.callers t = .idle))
  | .run _ => isTrue trivial
  | .work id => inferInstanceAs (Decidable (s.threads id ≠ .jobProcessed))

instance (s : System w n J T) : Decidable s.Loaded :=
  inferInstanceAs (Decidable (∀ id, s.threads id ≠ .unborn ∧ s.threads id ≠ .load))

/-- The steps in which two threads go to sleep. -/
def bothAsleep : List (Action 2 Nat Bool) :=
  List.replicate 4 (.work 0) ++ List.replicate 4 (.work 1)

/-- A caller's steps. -/
def callerRuns (t : Bool) (k : Nat) : List (Action 2 Nat Bool) := List.replicate k (.run t)

end Vee.Group
