import Vee.Group.Counter
import Vee.Lib.Loads

/- One call of the group's `nothrow_request`, with nothing else going on.

   The state it is made in is one in which no request is in progress, the counter is
   accurate and no worker counts more than its queue and one running job (`Accurate`).
   While the workers neither take jobs nor uncount them, the call goes through the workers
   in order and places the job on the first one that is loaded no more than the mean and
   has room (`Seeking`). One with room counts no more than the queue size, so where it is
   loaded more than the mean there is one below the queue size, which has room as well: the
   call fails only if every queue is full (`Accurate.answer`). -/
namespace Vee.Worker

variable {w : Nat} {J : Type*}

/-- At a point that takes a job out of the queue or uncounts one. -/
def WorkerPc.Shifts : WorkerPc w → Prop
  | dequeue | jobProcessed | fetchSub => True
  | _ => False

instance : ∀ p : WorkerPc w, Decidable p.Shifts
  | .dequeue | .jobProcessed | .fetchSub => isTrue trivial
  | .unborn | .load | .test _ | .makePromise | .sleep _ | .wait _ | .resetPromise _ | .run
  | .reset | .finalExchange | .exited | .threw => isFalse id

/-- The other steps leave the queue and the count alone. -/
theorem WorkMove.keeps {m m' : Memory w J} {p p' : WorkerPc w} (h : WorkMove m p m' p')
    (hp : ¬ p.Shifts) : m'.queue = m.queue ∧ m'.remained = m.remained := by
  cases h <;> first | exact ⟨rfl, rfl⟩ | exact absurd trivial hp

/-- The steps a thread past its first load is from its promise. -/
def WorkerPc.toPromise : WorkerPc w → Nat
  | test _ => 2
  | makePromise => 1
  | _ => 0

/-- How far the call is from its end, where its worker's thread is at `p`. -/
def RequestPc.rank (p : WorkerPc w) : RequestPc w → Nat
  | enqueue => 9
  | fetchAdd => 8
  | loadState => 7
  | awaitPromise => 4 + p.toPromise
  | setValue => 3
  | jobRequested _ => 2

end Vee.Worker

namespace Vee.Group
open Transition Loads
open Lockfree (Next)
open Worker (Memory RequestPc RequestResult RequestMove requestStep requestStep_move WorkerPc
  WorkMove workerStep workFault QueueSize Job)

variable {w n : Nat} {J T : Type*}

/-- The loads of the workers, as their counts. -/
def System.loads (s : System w n J T) (id : Fin n) : Nat := (s.mems id).remained.toNat

def System.queues (s : System w n J T) (id : Fin n) : List (Job J) := (s.mems id).queue

/-- No request is in progress, the counter is the sum of the workers' counts, and each of
these is that of the jobs in its queue and of at most one that is running. -/
structure System.Accurate (size : QueueSize w) (s : System w n J T) : Prop where
  idle : ∀ t, s.callers t = .idle
  counter : s.jobCounter.toNat = ∑ id, s.loads id
  counts : ∀ id, ∃ running ≤ 1, s.loads id = (s.queues id).length + running
  room : ∀ id, (s.queues id).length ≤ size.slots

/-- A step of the call of `t`, or one of a worker that takes no job and uncounts none. -/
def System.OneCall (t : T) (s : System w n J T) : Action n J T → Prop
  | .call _ _ => False
  | .run u => u = t
  | .work id => ¬ (s.threads id).Shifts

/-- The workers before `k` that are loaded no more than the mean are full. -/
def System.Passed (size : QueueSize w) (s : System w n J T) (k : Nat) : Prop :=
  ∀ id : Fin n, id.val < k → s.loads id ≤ mean s.loads → s.Full size id

/-- The call has placed nothing yet. -/
structure Unplaced (x m : System w n J T) : Prop where
  queues : m.queues = x.queues
  loads : m.loads = x.loads
  counter : m.jobCounter = x.jobCounter

/-- The call has placed its job on worker `id`. -/
structure Placed (size : QueueSize w) (x : System w n J T) (job : J) (id : Fin n)
    (m : System w n J T) : Prop where
  room : ¬ x.Full size id
  light : x.loads id ≤ mean x.loads
  queues : m.queues = Function.update x.queues id (x.queues id ++ [.task job])

/-- Where the call made in `x` has got to. -/
inductive Seeking (size : QueueSize w) (x : System w n J T) (job : J) (m : System w n J T) :
    Pc w n J → Prop where
  | load : Unplaced x m → Seeking size x job m (.load job)
  | test (id : Fin n) : Unplaced x m → x.Passed size id →
      Seeking size x job m (.test job (mean x.loads) id)
  | ask (id : Fin n) : Unplaced x m → x.Passed size id → x.loads id ≤ mean x.loads →
      Seeking size x job m (.request job (mean x.loads) id .enqueue)
  | placed (average id pc) : Placed size x job id m → pc ≠ .enqueue →
      (pc = .fetchAdd → m.loads id = x.loads id) →
      (∀ old, pc = .jobRequested old → old + 1 ≠ 0) →
      Seeking size x job m (.request job average id pc)

/-- What the call has done when it returns. -/
structure Answered (size : QueueSize w) (x : System w n J T) (job : J) (m : System w n J T)
    (result : Bool) : Prop where
  accepted : result = true → ∃ id, Placed size x job id m
  refused : result = false → m.queues = x.queues ∧ x.Passed size n

/-- The call of `t` made in `x`: it is on its way, has returned or has thrown. -/
def InCall (size : QueueSize w) (x : System w n J T) (t : T) (job : J) (m : System w n J T) :
    Prop :=
  m.log = x.log ++ [.called t job] ∧ Seeking size x job m (m.callers t) ∨
    m.callers t = .idle ∧
      ((∃ result, m.log = x.log ++ [.called t job, .returned t result] ∧
        Answered size x job m result) ∨
      m.log = x.log ++ [.called t job, .threw t])

section
variable {size : QueueSize w} {x s s' : System w n J T} {job : J} {p : Pc w n J} {t : T}
  {a : Action n J T}

theorem Placed.aside {id : Fin n} (h : Placed size x job id s) (hqueues : s'.queues = s.queues) :
    Placed size x job id s' := ⟨h.room, h.light, hqueues.trans h.queues⟩

/-- What the workers do besides leaves the call where it is. -/
theorem Seeking.aside (h : Seeking size x job s p) (hqueues : s'.queues = s.queues)
    (hloads : s'.loads = s.loads) (hcounter : s'.jobCounter = s.jobCounter) :
    Seeking size x job s' p := by
  have hun : Unplaced x s → Unplaced x s' := fun hu =>
    ⟨hqueues.trans hu.queues, hloads.trans hu.loads, hcounter.trans hu.counter⟩
  cases h with
  | load hu => exact .load (hun hu)
  | test id hu hpassed => exact .test id (hun hu) hpassed
  | ask id hu hpassed hle => exact .ask id (hun hu) hpassed hle
  | placed average id pc hp hpc hadd hold =>
    refine .placed average id pc (hp.aside hqueues) hpc ?_ hold
    intro heq
    rw [hloads]
    exact hadd heq

theorem Answered.aside {result : Bool} (h : Answered size x job s result)
    (hqueues : s'.queues = s.queues) : Answered size x job s' result where
  accepted hr := by
    obtain ⟨id, hp⟩ := h.accepted hr
    exact ⟨id, hp.aside hqueues⟩
  refused hr := ⟨hqueues.trans (h.refused hr).1, (h.refused hr).2⟩

theorem System.Accurate.load_lt (h : x.Accurate size) {id : Fin n} (hroom : ¬ x.Full size id) :
    x.loads id + 1 < 2 ^ w := by
  obtain ⟨running, hle, hload⟩ := h.counts id
  have hlt : (x.queues id).length < size.slots := Nat.lt_of_not_le hroom
  have hsize := size.slots_lt
  omega

theorem System.Passed.succ {id : Fin n} (h : x.Passed size id)
    (hid : x.loads id ≤ mean x.loads → x.Full size id) : x.Passed size (id + 1) := by
  intro j hj hle
  rcases Nat.lt_succ_iff_lt_or_eq.mp hj with hlt | heq
  · exact h j hlt hle
  · obtain rfl := Fin.ext heq
    exact hid hle

variable [DecidableEq T]

theorem goto_self (s : System w n J T) (t : T) (p : Pc w n J) (new : List (Event J T)) :
    (s.goto t p new).callers t = p := by
  simp [System.goto]

/-- The loop goes on with worker `k`, or it is over. -/
theorem InCall.loop (hu : Unplaced x s) (hlog : s.log = x.log ++ [.called t job]) {k : Nat}
    (hpassed : x.Passed size k) : InCall size x t job (s.loop t job (mean x.loads) k) := by
  rcases s.loop_goto t job (mean x.loads) k with ⟨hk, heq⟩ | ⟨hk, heq⟩
  · rw [heq]
    refine .inl ⟨by simp [System.goto, hlog], ?_⟩
    rw [goto_self]
    exact .test ⟨k, hk⟩ ⟨hu.queues, hu.loads, hu.counter⟩ hpassed
  · rw [heq]
    refine .inr ⟨goto_self .., .inl ⟨false, by simp [System.goto, hlog], Bool.noConfusion, ?_⟩⟩
    intro _
    exact ⟨hu.queues, fun id _ => hpassed id (Nat.lt_of_lt_of_le id.isLt hk)⟩

omit [DecidableEq T] in
/-- A step of one worker's `nothrow_request` leaves the other queues as they are. -/
theorem queues_update (s : System w n J T) (id : Fin n) (m : Memory w J) (counter : BitVec w) :
    ({ s with
      mems := Function.update s.mems id m
      jobCounter := counter } : System w n J T).queues = Function.update s.queues id m.queue := by
  funext j
  by_cases hj : j = id
  · simp [System.queues, hj]
  · simp [System.queues, hj]

omit [DecidableEq T] in
/-- The job stays where it is while its queue does. -/
theorem Placed.keep {id : Fin n} (h : Placed size x job id s) {m : Memory w J}
    (hqueue : m.queue = (s.mems id).queue) (counter : BitVec w) :
    Placed size x job id { s with
      mems := Function.update s.mems id m
      jobCounter := counter } := by
  refine ⟨h.room, h.light, ?_⟩
  rw [queues_update s id m counter, hqueue, ← h.queues]
  exact Function.update_eq_self id s.queues

/-- The worker asked takes the job, or it is full and the call goes on with the next one. -/
theorem Unplaced.request (hu : Unplaced x s) {id : Fin n} (hpassed : x.Passed size id)
    (hle : x.loads id ≤ mean x.loads) (hlog : s.log = x.log ++ [.called t job]) {m : Memory w J}
    {next : Next (RequestPc w) (RequestResult w)}
    (hm : RequestMove size (.task job) (s.mems id) .enqueue m next) :
    InCall size x t job ({ s with
      mems := Function.update s.mems id m
      jobCounter := onJobRequested s.jobCounter .enqueue }.afterRequest t job (mean x.loads) id
        next) := by
  cases hm with
  | refused hfull =>
    rw [Function.update_eq_self]
    simp only [onJobRequested, System.afterRequest, if_true]
    refine InCall.loop hu hlog (hpassed.succ fun _ => ?_)
    show size.slots ≤ (x.queues id).length
    rw [← hu.queues]
    exact hfull
  | placed hroom =>
    refine .inl ⟨by simp [System.afterRequest, System.goto, hlog], ?_⟩
    simp only [System.afterRequest, goto_self]
    refine .placed _ id .fetchAdd ⟨?_, hle, ?_⟩ (by simp) ?_ (by simp)
    · intro hfull
      have hlen : size.slots ≤ (s.queues id).length := by
        rw [hu.queues]
        exact hfull
      exact absurd hroom (Nat.not_lt.mpr hlen)
    · have hid : (s.mems id).queue = x.queues id := congrFun hu.queues id
      refine (queues_update s id _ s.jobCounter).trans ?_
      rw [hid, hu.queues]
    · intro _
      show (Function.update s.mems id _ id).remained.toNat = x.loads id
      rw [Function.update_self, ← hu.loads]
      rfl

/-- The call has taken another step with the worker that has its job. -/
theorem Placed.goto {id : Fin n} (h : Placed size x job id s)
    (hlog : s.log = x.log ++ [.called t job]) {m : Memory w J} {counter : BitVec w} {average : Nat}
    {pc' : RequestPc w} (hqueue : m.queue = (s.mems id).queue) (hne : pc' ≠ .enqueue)
    (hne' : pc' ≠ .fetchAdd)
    (hold : ∀ old, pc' = .jobRequested old → old + 1 ≠ 0) :
    InCall size x t job ({ s with
      mems := Function.update s.mems id m
      jobCounter := counter }.goto t (.request job average id pc') []) := by
  refine .inl ⟨by simp [System.goto, hlog], ?_⟩
  rw [goto_self]
  exact .placed _ id _ ((h.keep hqueue counter).aside rfl) hne (fun heq => absurd heq hne') hold

/-- A step of the worker's `nothrow_request` the call is in. -/
theorem Seeking.request (hacc : x.Accurate size) {job' : J} {average : Nat} {id : Fin n}
    {pc : RequestPc w} {m : Memory w J} {next : Next (RequestPc w) (RequestResult w)}
    (h : Seeking size x job s (.request job' average id pc))
    (hlog : s.log = x.log ++ [.called t job]) (ht : s.callers t = .request job' average id pc)
    (hm : RequestMove size (.task job') (s.mems id) pc m next) :
    InCall size x t job ({ s with
      mems := Function.update s.mems id m
      jobCounter := onJobRequested s.jobCounter pc }.afterRequest t job' average id next) := by
  cases h with
  | ask _ hu hpassed hle => exact hu.request hpassed hle hlog hm
  | placed _ _ _ hp hpc hadd hold =>
    have hone := size.one_ne_zero
    cases hm with
    | refused | placed => exact absurd rfl hpc
    | first | awake | spin | ready =>
      exact hp.goto hlog rfl (by simp) (by simp) (by simp)
    | counted hnz =>
      refine hp.goto hlog rfl (by simp) (by simp) ?_
      intro old heq
      cases heq
      refine Worker.add_one_ne_zero ?_
      calc s.loads id + 1 = x.loads id + 1 := by rw [hadd rfl]
        _ < 2 ^ w := hacc.load_lt hp.room
    | standby | signal =>
      refine hp.goto hlog rfl (by simp) (by simp) ?_
      intro old heq
      cases heq
      exact hone
    | signalAgain q hq hset =>
      exact .inr ⟨goto_self .., .inr (by simp [System.afterRequest, System.goto, hlog])⟩
    | signalNull =>
      -- the program ends, and the caller stays where it is
      refine .inl ⟨hlog, ?_⟩
      show Seeking size x job _ (s.callers t)
      rw [ht]
      exact .placed average id .setValue ((hp.keep rfl s.jobCounter).aside rfl) (by simp) (by simp)
        (by simp)
    | requested old =>
      simp only [System.afterRequest, if_neg (hold old rfl)]
      refine .inr ⟨goto_self .., .inl ⟨true, by simp [System.goto, hlog], ?_, Bool.noConfusion⟩⟩
      exact fun _ => ⟨id, (hp.keep rfl s.jobCounter).aside rfl⟩

/-- A step of the call. -/
theorem Seeking.step (hacc : x.Accurate size) (h : Seeking size x job s (s.callers t))
    (hlog : s.log = x.log ++ [.called t job]) (hs : Stepped size s (.run t) s') :
    InCall size x t job s' := by
  cases hs with
  | loaded t job' ht =>
    rw [ht] at h
    cases h with
    | load hu =>
      have hmean : s.jobCounter.toNat / n = mean x.loads := by
        rw [hu.counter, hacc.counter, mean, Fintype.card_fin]
      rw [hmean]
      exact InCall.loop hu hlog fun id hid => absurd hid (Nat.not_lt_zero _)
  | admitted t job' average id ht hle =>
    rw [ht] at h
    cases h with
    | test id hu hpassed =>
      have hle' : x.loads id ≤ mean x.loads := by
        calc x.loads id = s.loads id := by rw [hu.loads]
          _ ≤ mean x.loads := hle
      refine .inl ⟨by simp [System.goto, hlog], ?_⟩
      rw [goto_self]
      exact .ask id ⟨hu.queues, hu.loads, hu.counter⟩ hpassed hle'
  | passed t job' average id ht hlt =>
    rw [ht] at h
    cases h with
    | test id hu hpassed =>
      have hlt' : mean x.loads < x.loads id := by
        calc mean x.loads < s.loads id := hlt
          _ = x.loads id := by rw [hu.loads]
      exact InCall.loop hu hlog (hpassed.succ fun hle => absurd hle (by omega))
  | request t job' average id pc m next ht hm =>
    rw [ht] at h
    exact h.request hacc hlog ht hm

/-- A step of a worker that takes no job and uncounts none. -/
theorem InCall.work (h : InCall size x t job s) {id : Fin n}
    (hs : Stepped size s (.work id) s') (ha : ¬ (s.threads id).Shifts) :
    InCall size x t job s' := by
  obtain ⟨hqueues, hloads, hcounter, hcallers, hlog⟩ : s'.queues = s.queues ∧
      s'.loads = s.loads ∧ s'.jobCounter = s.jobCounter ∧ s'.callers = s.callers ∧
      s'.log = s.log := by
    cases hs with
    | work _ m p hm =>
      obtain ⟨hqueue, hremained⟩ := hm.keeps ha
      refine ⟨?_, ?_, ?_, rfl, rfl⟩
      · funext j
        by_cases hj : j = id
        · simp [System.queues, hj, hqueue]
        · simp [System.queues, hj]
      · funext j
        by_cases hj : j = id
        · simp [System.loads, hj, hremained]
        · simp [System.loads, hj]
      · show onJobProcessed s.jobCounter (s.threads id) = s.jobCounter
        generalize s.threads id = pc at ha
        cases pc <;> first | rfl | exact absurd trivial ha
  unfold InCall
  rw [hcallers, hlog]
  rcases h with ⟨hl, hseek⟩ | ⟨hidle, ⟨result, hl, hans⟩ | hl⟩
  · exact .inl ⟨hl, hseek.aside hqueues hloads hcounter⟩
  · exact .inr ⟨hidle, .inl ⟨result, hl, hans.aside hqueues⟩⟩
  · exact .inr ⟨hidle, .inr hl⟩

theorem InCall.step (hacc : x.Accurate size) (h : InCall size x t job s)
    (hs : Stepped size s a s') (ha : s.OneCall t a) : InCall size x t job s' := by
  cases a with
  | call u job' => exact ha.elim
  | work id => exact h.work hs ha
  | run u =>
    obtain rfl : u = t := ha
    rcases h with ⟨hlog, hseek⟩ | ⟨hidle, -⟩
    · exact hseek.step hacc hlog hs
    · -- the call is over
      cases hs with
      | loaded _ _ ht | admitted _ _ _ _ ht | passed _ _ _ _ ht | request _ _ _ _ _ _ _ ht =>
        rw [hidle] at ht
        cases ht

omit [DecidableEq T] in
/-- **The search is complete.** -/
theorem System.Accurate.answer (hacc : x.Accurate size) {result : Bool}
    (h : Answered size x job s result) : result = true ↔ ∃ id, ¬ x.Full size id := by
  refine ⟨?_, ?_⟩
  · intro hresult
    obtain ⟨id, hp⟩ := h.accepted hresult
    exact ⟨id, hp.room⟩
  · intro hroom
    obtain ⟨id, hid⟩ := hroom
    have hle : ∀ j, ¬ x.Full size j → x.loads j ≤ size.slots := by
      intro j hj
      obtain ⟨running, hrunning, hload⟩ := hacc.counts j
      have hlt : (x.queues j).length < size.slots := Nat.lt_of_not_le hj
      omega
    have hlt : ∀ j, x.loads j < size.slots → ¬ x.Full size j := by
      intro j hj hfull
      obtain ⟨running, -, hload⟩ := hacc.counts j
      have hlen : size.slots ≤ (x.queues j).length := hfull
      omega
    obtain ⟨j, hj, hmean⟩ := exists_room_le_mean hle hlt hid
    by_contra hfalse
    exact hj ((h.refused (by simpa using hfalse)).2 j j.isLt hmean)

end

/-! ## The call returns -/

/-- Every worker's thread is past its first load of the count. -/
def System.Loaded (s : System w n J T) : Prop :=
  ∀ id, s.threads id ≠ .unborn ∧ s.threads id ≠ .load

/-- How far a call is from its end: the workers it may still ask, and where it is. -/
def Pc.rank (threads : Fin n → WorkerPc w) : Pc w n J → Nat
  | idle => 0
  | load _ => 11 * n + 11
  | test _ _ id => 11 * (n - id) + 10
  | request _ _ id pc => 11 * (n - id) + pc.rank (threads id)

section
variable [DecidableEq T] {size : QueueSize w} {x s s' : System w n J T} {job : J} {t : T}
  {a : Action n J T}

omit [DecidableEq T] in
theorem System.Loaded.quiet (h : s.Loaded) : s.QuietLoad a := by
  cases a with
  | work id => exact fun hload => absurd hload (h id).2
  | call | run => trivial

theorem System.Loaded.step (h : s.Loaded) (hs : Stepped size s a s') : s'.Loaded := by
  intro id
  cases hs with
  | called | admitted => exact h id
  | loaded | passed =>
    rw [loop_threads]
    exact h id
  | request =>
    rw [afterRequest_threads]
    exact h id
  | work j m p hm =>
    by_cases hj : id = j
    · subst hj
      show Function.update s.threads id p id ≠ _ ∧ Function.update s.threads id p id ≠ _
      rw [Function.update_self]
      exact ⟨hm.ne_unborn, hm.ne_load⟩
    · show Function.update s.threads j p id ≠ _ ∧ Function.update s.threads j p id ≠ _
      rw [Function.update_of_ne hj]
      exact h id

theorem loop_rank (s : System w n J T) (t : T) (job : J) (average k : Nat) :
    (s.loop t job average k).fault = s.fault ∧
      ((s.loop t job average k).callers t).rank (s.loop t job average k).threads ≤
        11 * (n - k) + 10 := by
  rcases s.loop_goto t job average k with ⟨hk, heq⟩ | ⟨hk, heq⟩
  · rw [heq, goto_self]
    exact ⟨rfl, Nat.le_refl _⟩
  · rw [heq, goto_self]
    exact ⟨rfl, Nat.zero_le _⟩

omit [DecidableEq T] in
theorem toPromise_le (p : WorkerPc w) : p.toPromise ≤ 2 := by
  cases p <;> simp [WorkerPc.toPromise]

/-- The caller takes a step, where it does not wait for a promise. -/
theorem Coordinated.progress_request (h : Coordinated size s) (hfault : s.fault = none)
    {average : Nat} {id : Fin n} {pc : RequestPc w} (ht : s.callers t = .request job average id pc)
    (hpc : pc = .awaitPromise → (s.mems id).promise ≠ none) :
    ∃ s', s.step size (.run t) = some s' ∧ s'.fault = none ∧
      (s'.callers t).rank s'.threads < (s.callers t).rank s.threads := by
  have hcs : s.requests id t = some pc := by simp [System.requests, ht, Pc.requesting]
  have hmove := requestStep_move size (.task job) (s.mems id) pc
  have hstep : s.step size (.run t) = some ({ s with
      mems := Function.update s.mems id (requestStep size (.task job) (s.mems id) pc).1
      jobCounter := onJobRequested s.jobCounter pc }.afterRequest t job average id
        (requestStep size (.task job) (s.mems id) pc).2) := by
    simp only [System.step, hfault, if_true, System.next, ht]
  refine ⟨_, hstep, ?_⟩
  generalize requestStep size (.task job) (s.mems id) pc = r at hmove
  obtain ⟨m, next⟩ := r
  have hid := id.isLt
  rw [ht]
  simp only at hmove ⊢
  cases hmove with
  | refused hfull =>
    obtain ⟨hfault', hle⟩ := loop_rank { s with
      mems := Function.update s.mems id (s.mems id)
      jobCounter := onJobRequested s.jobCounter .enqueue } t job average (id + 1)
    refine ⟨hfault'.trans hfault, Nat.lt_of_le_of_lt hle ?_⟩
    simp only [Pc.rank, RequestPc.rank]
    omega
  | awake hst =>
    refine ⟨hfault, ?_⟩
    have hle := toPromise_le (s.threads id)
    simp only [System.afterRequest, goto_self, Pc.rank, RequestPc.rank]
    show 11 * (n - id) + (4 + (s.threads id).toPromise) < _
    omega
  | spin hp => exact absurd hp (hpc rfl)
  | signalNull hp =>
    -- a caller that signals has a promise
    obtain ⟨q, hq, -⟩ := (h.handshake id).signaller t hcs
    rw [hp] at hq
    cases hq
  | requested old =>
    have hpos := h.positive t job average id old ht
    simp only [System.afterRequest, if_neg hpos, goto_self, Pc.rank, RequestPc.rank]
    exact ⟨hfault, by omega⟩
  | placed | first | counted | standby | ready | signal | signalAgain =>
    refine ⟨hfault, ?_⟩
    simp only [System.afterRequest, goto_self, Pc.rank, RequestPc.rank]
    omega

/-- A thread takes a step. -/
theorem step_work (size : QueueSize w) (hfault : s.fault = none) {id : Fin n} {m : Memory w J}
    {p : WorkerPc w} (h : workerStep (s.mems id) (s.threads id) = some (m, p)) :
    s.step size (.work id) = some { s with
      mems := Function.update s.mems id m
      threads := Function.update s.threads id p
      jobCounter := onJobProcessed s.jobCounter (s.threads id)
      fault := workFault (s.mems id) (s.threads id) } := by
  simp only [System.step, hfault, if_true, System.next, h, Option.map_some]

/-- The thread a caller waits for makes its promise. -/
theorem Coordinated.progress_promise (h : Coordinated size s) (hloaded : s.Loaded)
    (hfault : s.fault = none) {average : Nat} {id : Fin n}
    (ht : s.callers t = .request job average id .awaitPromise)
    (hnone : (s.mems id).promise = none) :
    ∃ s', s.step size (.work id) = some s' ∧ ¬ (s.threads id).Shifts ∧ s'.fault = none ∧
      (s'.callers t).rank s'.threads < (s.callers t).rank s.threads := by
  have hh := h.handshake id
  have hcs : s.requests id t = some .awaitPromise := by
    simp [System.requests, ht, Pc.requesting]
  have hpending : Worker.Pending (s.requests id t) := by
    rw [hcs]
    trivial
  have hrun := hh.running (hloaded id).1
  have hslept := hh.promise.symm.trans hnone
  have hawake : ¬ (s.threads id).Awake (s.mems id) := fun ha => (hh.awake ha).2 t hpending
  have hhere := hh.here
  obtain ⟨hborn, hload⟩ := hloaded id
  -- it is not awake, and has no promise yet
  generalize hp : s.threads id = p at hslept hawake hhere hborn hload
  cases p with
  | test r =>
    obtain rfl : r = 0 := by
      by_contra hr
      exact hawake hr
    have hwork : workerStep (s.mems id) (s.threads id) = some (s.mems id, .makePromise) := by
      simp [hp, workerStep, hrun]
    refine ⟨_, step_work size hfault hwork, fun hshift => hshift, by rw [hp]; rfl, ?_⟩
    simp [ht, hp, Pc.rank, RequestPc.rank, WorkerPc.toPromise]
  | makePromise =>
    have hwork : workerStep (s.mems id) (s.threads id) = some
        ({ s.mems id with promise := some (s.mems id).made, made := (s.mems id).made + 1 },
          .sleep (s.mems id).made) := by
      simp [hp, workerStep]
    refine ⟨_, step_work size hfault hwork, fun hshift => hshift, by rw [hp]; rfl, ?_⟩
    simp [ht, hp, Pc.rank, RequestPc.rank, WorkerPc.toPromise]
  | _ => simp_all [WorkerPc.slept, WorkerPc.Awake, WorkerPc.InMain]

/-- While a call is in progress, it or the thread it waits for can take it further. -/
theorem Coordinated.progress (h : Coordinated size s) (hloaded : s.Loaded)
    (hfault : s.fault = none) (ht : s.callers t ≠ .idle) :
    ∃ a s', s.step size a = some s' ∧ s.OneCall t a ∧ s'.fault = none ∧
      (s'.callers t).rank s'.threads < (s.callers t).rank s.threads := by
  cases hc : s.callers t with
  | idle => exact absurd hc ht
  | load job =>
    obtain ⟨hfault', hle⟩ := loop_rank s t job (s.jobCounter.toNat / n) 0
    refine ⟨.run t, s.loop t job (s.jobCounter.toNat / n) 0, ?_, rfl, hfault'.trans hfault,
      Nat.lt_of_le_of_lt hle ?_⟩
    · simp only [System.step, hfault, if_true, System.next, hc]
    · simp only [Pc.rank]
      omega
  | test job average id =>
    have hid := id.isLt
    by_cases hle : (s.mems id).remained.toNat ≤ average
    · refine ⟨.run t, s.goto t (.request job average id .enqueue) [], ?_, rfl, hfault, ?_⟩
      · simp only [System.step, hfault, if_true, System.next, hc, if_pos hle]
      · rw [goto_self]
        simp only [Pc.rank, RequestPc.rank]
        omega
    · obtain ⟨hfault', hrank⟩ := loop_rank s t job average (id + 1)
      refine ⟨.run t, s.loop t job average (id + 1), ?_, rfl, hfault'.trans hfault,
        Nat.lt_of_le_of_lt hrank ?_⟩
      · simp only [System.step, hfault, if_true, System.next, hc, if_neg hle]
      · simp only [Pc.rank]
        omega
  | request job average id pc =>
    by_cases hwait : pc = .awaitPromise ∧ (s.mems id).promise = none
    · obtain ⟨rfl, hnone⟩ := hwait
      obtain ⟨s', hs, hshift, hfault', hlt⟩ := h.progress_promise hloaded hfault hc hnone
      exact ⟨.work id, s', hs, hshift, hfault', hc ▸ hlt⟩
    · obtain ⟨s', hs, hfault', hlt⟩ := h.progress_request hfault hc
        fun hpc hnone => hwait ⟨hpc, hnone⟩
      exact ⟨.run t, s', hs, rfl, hfault', hc ▸ hlt⟩

/-- A call can be completed from wherever it has got to. -/
theorem Coordinated.complete (h : Coordinated size s) (hloaded : s.Loaded)
    (hfault : s.fault = none) : ∃ tr s', Run (System.step size) s tr s' ∧
      Meets (System.OneCall t) tr ∧ Meets System.QuietLoad tr ∧ s'.callers t = .idle := by
  generalize hk : (s.callers t).rank s.threads = k
  induction k using Nat.strong_induction_on generalizing s with
  | _ k ih =>
    by_cases hidle : s.callers t = .idle
    · exact ⟨[], s, .nil, meets_nil _, meets_nil _, hidle⟩
    · obtain ⟨a, m, hs, ha, hm, hlt⟩ := h.progress hloaded hfault hidle
      have hstep := System.step_cases hs
      obtain ⟨tr, s', hrun, hone, hquiet, hend⟩ := ih _ (hk ▸ hlt) (h.step hstep hloaded.quiet)
        (hloaded.step hstep) hm rfl
      exact ⟨(s, a) :: tr, s', (Run.single hs).append hrun, meets_cons.mpr ⟨ha, hone⟩,
        meets_cons.mpr ⟨hloaded.quiet, hquiet⟩, hend⟩

end

end Vee.Group
