import Vee.Group.Balance
import Vee.Lib.Charge

/- What becomes of the jobs that callers request of the group, and what it costs.

   A call goes from worker to worker, and places its job on the one that takes it. The jobs
   placed are those run and those that a worker holds; those placed are also those whose
   call has returned true and those whose call is on its way to it; and no more are placed
   than asked for (`Settled`). So in runs with quiet first loads a call that returns true has
   its job run once, on one worker, and one that returns false has none (`runs_each_once`).
   Between two jobs a worker takes ten steps at most, of which the last blocks until there
   is a job: the workers together take a bounded number of steps for each call, and there is
   no busy waiting (`works_per_call`). -/
namespace Vee.Worker

variable {w : Nat} {J : Type*}

/-- The job that the thread has dequeued and not run yet, if `P` picks it. -/
def WorkerPc.handed (P : Job J → Bool) (m : Memory w J) : WorkerPc w → Nat
  | run => (m.currentJob.any P).toNat
  | _ => 0

/-- A thread takes a job out of the queue into its hand, and runs the one it has. -/
theorem WorkMove.handed {m m' : Memory w J} {p p' : WorkerPc w} (P : Job J → Bool)
    (h : WorkMove m p m' p') :
    m'.queue.countP P + p'.handed P m' = m.queue.countP P := by
  cases h with
  | job job queue hq =>
    rw [hq, List.countP_cons]
    cases hP : P job <;> simp [WorkerPc.handed, hP]
  | _ => rfl

/-- What a thread has left to do, at most, before it runs a job. -/
def WorkerPc.rounds : WorkerPc w → Nat
  | reset => 9
  | jobProcessed => 8
  | load | fetchSub => 7
  | test _ => 6
  | makePromise => 5
  | sleep _ => 4
  | wait _ => 3
  | resetPromise _ => 2
  | dequeue => 1
  | _ => 0

/-- A thread that finds a job each time comes closer to the next one, unless it runs one. -/
theorem WorkMove.rounds {m m' : Memory w J} {p p' : WorkerPc w} (h : WorkMove m p m' p')
    (hrunning : m.state = .running) (hjob : p = .dequeue → m.queue ≠ [])
    (hfinal : p ≠ .finalExchange) :
    p'.rounds + 1 ≤ p.rounds + if p = .run then 10 else 0 := by
  cases h with
  | leave r hstate => exact absurd hrunning hstate
  | noJob hq => exact absurd hq (hjob rfl)
  | finish | unexpected => exact absurd rfl hfinal
  | _ => simp [WorkerPc.rounds]

/-- A thread that cannot take a step is not in its main function, or waits for its promise. -/
theorem workerStep_none {m : Memory w J} {p : WorkerPc w} (h : workerStep m p = none) :
    ¬ p.InMain ∨ ∃ q, p = .wait q ∧ m.signals q = 0 := by
  cases p with
  | unborn | exited | threw => exact .inl id
  | wait q =>
    simp only [workerStep] at h
    split at h
    · exact .inr ⟨q, rfl, ‹_›⟩
    · cases h
  | test r =>
    simp only [workerStep] at h
    split at h
    · split at h <;> cases h
    · cases h
  | dequeue =>
    simp only [workerStep] at h
    split at h <;> cases h
  | finalExchange =>
    simp only [workerStep] at h
    split at h <;> cases h
  | load | makePromise | sleep | resetPromise | run | reset | jobProcessed | fetchSub => cases h

end Vee.Worker

namespace Vee.Group
open Transition Counting
open Lockfree (Next)
open Worker (Memory RequestPc RequestResult RequestMove WorkerPc WorkMove QueueSize Job Handshake
  Fault workFault)

variable {w n : Nat} {J T : Type*} (P : Job J → Bool)

/-! ## The ways of the jobs that `P` picks -/

/-- The step starts a call with such a job. -/
def System.asks (_ : System w n J T) : Action n J T → Nat
  | .call _ job => (P (.task job)).toNat
  | _ => 0

/-- The step places such a job on a worker. -/
def System.places (size : QueueSize w) (s : System w n J T) : Action n J T → Nat
  | .run t =>
    match s.callers t with
    | .request job _ id .enqueue =>
      if (s.mems id).queue.length < size.slots then (P (.task job)).toNat else 0
    | _ => 0
  | _ => 0

/-- The step returns true to a call with such a job. -/
def System.accepts (s : System w n J T) : Action n J T → Nat
  | .run t =>
    match s.callers t with
    | .request job _ _ (.jobRequested remained_old) =>
      if remained_old + 1 = 0 then 0 else (P (.task job)).toNat
    | _ => 0
  | _ => 0

/-- The step runs such a job. -/
def System.runs (s : System w n J T) : Action n J T → Nat
  | .work id => (s.threads id).handed P (s.mems id)
  | _ => 0

/-- The jobs in the queues and in the hands of the workers. -/
def System.holds (s : System w n J T) : Nat :=
  ∑ id, ((s.mems id).queue.countP P + (s.threads id).handed P (s.mems id))

/-- The caller has such a job and has not placed it. -/
def Pc.Unplaced : Pc w n J → Prop
  | load job | test job _ _ | request job _ _ .enqueue => P (.task job)
  | _ => False

/-- The caller has placed such a job. -/
def Pc.Placed : Pc w n J → Prop
  | request _ _ _ .enqueue => False
  | request job _ _ _ => P (.task job)
  | _ => False

instance : DecidablePred (Pc.Unplaced P : Pc w n J → Prop)
  | .load job | .test job _ _ | .request job _ _ .enqueue =>
    inferInstanceAs (Decidable (P (.task job)))
  | .idle | .request _ _ _ .fetchAdd | .request _ _ _ .loadState | .request _ _ _ .awaitPromise
  | .request _ _ _ .setValue | .request _ _ _ (.jobRequested _) => isFalse id

instance : DecidablePred (Pc.Placed P : Pc w n J → Prop)
  | .request job _ _ .fetchAdd | .request job _ _ .loadState | .request job _ _ .awaitPromise
  | .request job _ _ .setValue | .request job _ _ (.jobRequested _) =>
    inferInstanceAs (Decidable (P (.task job)))
  | .idle | .load _ | .test .. | .request _ _ _ .enqueue => isFalse id

@[simp] theorem placed_idle : ¬ (Pc.idle : Pc w n J).Placed P := id

@[simp] theorem unplaced_idle : ¬ (Pc.idle : Pc w n J).Unplaced P := id

@[simp] theorem placed_load (job : J) : ¬ (Pc.load job : Pc w n J).Placed P := id

@[simp] theorem unplaced_load (job : J) : (Pc.load job : Pc w n J).Unplaced P ↔ P (.task job) :=
  Iff.rfl

@[simp] theorem placed_test (job : J) (average : Nat) (id : Fin n) :
    ¬ (Pc.test job average id : Pc w n J).Placed P := fun h => h

@[simp] theorem unplaced_test (job : J) (average : Nat) (id : Fin n) :
    (Pc.test job average id : Pc w n J).Unplaced P ↔ P (.task job) := Iff.rfl

@[simp] theorem placed_request {job : J} {average : Nat} {id : Fin n} {pc : RequestPc w} :
    (Pc.request job average id pc).Placed P ↔ P (.task job) ∧ pc ≠ .enqueue := by
  cases pc <;> simp [Pc.Placed]

@[simp] theorem unplaced_request {job : J} {average : Nat} {id : Fin n} {pc : RequestPc w} :
    (Pc.request job average id pc).Unplaced P ↔ P (.task job) ∧ pc = .enqueue := by
  cases pc <;> simp [Pc.Unplaced]

/-- What the steps of `tr` did with the jobs, in the state they lead to. -/
structure Settled (size : QueueSize w) (tr : List (System w n J T × Action n J T))
    (s : System w n J T) : Prop where
  stored : total (System.places P size) tr = total (System.runs P) tr + s.holds P
  answered : ∃ U : Finset T, Census (Pc.Placed P) s.callers U ∧
    total (System.places P size) tr = total (System.accepts P) tr + U.card
  asked : ∃ V : Finset T, Census (Pc.Unplaced P) s.callers V ∧
    total (System.places P size) tr + V.card ≤ total (System.asks P) tr

section
variable {P} {size : QueueSize w} {tr : List (System w n J T × Action n J T)}
  {s s' : System w n J T} {a : Action n J T} {t : T}

theorem total_snoc (cost : System w n J T → Action n J T → Nat) :
    total cost (tr ++ [(s, a)]) = total cost tr + cost s a := by
  simp

/-- The jobs held after a step of worker `id` or of a caller of it. -/
theorem holds_change {id : Fin n} {m : Memory w J} {p : WorkerPc w}
    (hmems : s'.mems = Function.update s.mems id m)
    (hthreads : s'.threads = Function.update s.threads id p) :
    s'.holds P + ((s.mems id).queue.countP P + (s.threads id).handed P (s.mems id)) =
      s.holds P + (m.queue.countP P + p.handed P m) := by
  have hsum := sum_change
    (f := fun j => (s.mems j).queue.countP P + (s.threads j).handed P (s.mems j))
    (g := fun j => (s'.mems j).queue.countP P + (s'.threads j).handed P (s'.mems j)) id
    (by
      intro j hj
      simp only [hmems, hthreads, Function.update_of_ne hj])
  simpa [System.holds, hmems, hthreads] using hsum

variable [DecidableEq T]

/-- A step of caller `t`, which goes to `p`. -/
theorem Settled.caller (h : Settled P size tr s) (p : Pc w n J)
    (hcallers : s'.callers = Function.update s.callers t p) (hruns : s.runs P a = 0)
    (hstored : s'.holds P = s.holds P + s.places P size a)
    (hanswered : s.places P size a + (if (s.callers t).Placed P then 1 else 0) =
      s.accepts P a + if p.Placed P then 1 else 0)
    (hasked : s.places P size a + (if p.Unplaced P then 1 else 0) ≤
      s.asks P a + if (s.callers t).Unplaced P then 1 else 0) :
    Settled P size (tr ++ [(s, a)]) s' where
  stored := by
    have hbefore := h.stored
    rw [total_snoc, total_snoc, hruns, hstored]
    omega
  answered := by
    obtain ⟨U, hU, hsum⟩ := h.answered
    obtain ⟨U', hU', hcard⟩ := hU.update t p
    refine ⟨U', by rwa [hcallers], ?_⟩
    rw [total_snoc, total_snoc]
    omega
  asked := by
    obtain ⟨V, hV, hsum⟩ := h.asked
    obtain ⟨V', hV', hcard⟩ := hV.update t p
    refine ⟨V', by rwa [hcallers], ?_⟩
    rw [total_snoc, total_snoc]
    omega

omit [DecidableEq T] in
/-- A step of a worker: what it holds less it has run. -/
theorem Settled.work (h : Settled P size tr s) {id : Fin n} {m : Memory w J} {p : WorkerPc w}
    (hm : WorkMove (s.mems id) (s.threads id) m p)
    (hmems : s'.mems = Function.update s.mems id m)
    (hthreads : s'.threads = Function.update s.threads id p) (hcallers : s'.callers = s.callers) :
    Settled P size (tr ++ [(s, .work id)]) s' where
  stored := by
    have hbefore := h.stored
    have hchange := holds_change (P := P) hmems hthreads
    have hhanded := hm.handed P
    rw [total_snoc, total_snoc]
    simp only [System.places, System.runs]
    omega
  answered := by
    obtain ⟨U, hU, hsum⟩ := h.answered
    refine ⟨U, by rwa [hcallers], ?_⟩
    rw [total_snoc, total_snoc]
    exact hsum
  asked := by
    obtain ⟨V, hV, hsum⟩ := h.asked
    refine ⟨V, by rwa [hcallers], ?_⟩
    rw [total_snoc, total_snoc]
    exact hsum

/-- A step of caller `t`, which goes on to the next worker with its job, or returns false. -/
theorem Settled.loop (h : Settled P size tr s) {m : System w n J T} {job : J} {average id : Nat}
    (hcallers : m.callers = s.callers) (hholds : m.holds P = s.holds P)
    (hun : (s.callers t).Unplaced P ↔ P (.task job)) (hnot : ¬ (s.callers t).Placed P)
    (hplaces : s.places P size (.run t) = 0) (haccepts : s.accepts P (.run t) = 0) :
    Settled P size (tr ++ [(s, .run t)]) (m.loop t job average id) := by
  rcases m.loop_goto t job average id with ⟨hid, heq⟩ | ⟨hid, heq⟩
  · rw [heq]
    apply h.caller (.test job average ⟨id, hid⟩) (by rw [← hcallers]; rfl) rfl
    · rw [hplaces, ← hholds]
      rfl
    · simp [hplaces, haccepts, hnot]
    · simp [hplaces, System.asks, hun]
  · rw [heq]
    apply h.caller .idle (by rw [← hcallers]; rfl) rfl
    · rw [hplaces, ← hholds]
      rfl
    · simp [hplaces, haccepts, hnot]
    · simp [hplaces]

/-- A step of a worker's `nothrow_request`. -/
theorem Settled.request (h : Settled P size tr s) (hco : Coordinated size s) {job : J}
    {average : Nat} {id : Fin n} {pc : RequestPc w} {m : Memory w J}
    {next : Next (RequestPc w) (RequestResult w)} (ht : s.callers t = .request job average id pc)
    (hm : RequestMove size (.task job) (s.mems id) pc m next) :
    Settled P size (tr ++ [(s, .run t)]) ({ s with
      mems := Function.update s.mems id m
      jobCounter := onJobRequested s.jobCounter pc }.afterRequest t job average id next) := by
  have hcs : s.requests id t = some pc := by simp [System.requests, ht, Pc.requesting]
  -- the thread's hand is not touched by a request
  have hholds : ∀ k, m.queue.countP P = (s.mems id).queue.countP P + k →
      ∀ s' : System w n J T, s'.mems = Function.update s.mems id m → s'.threads = s.threads →
        s'.holds P = s.holds P + k := by
    intro k hk s' hmems hthreads
    have hchange := holds_change (P := P) hmems
      (hthreads.trans (Function.update_eq_self id s.threads).symm)
    have hhand : (s.threads id).handed P m = (s.threads id).handed P (s.mems id) := by
      cases s.threads id with
      | run => rw [WorkerPc.handed, WorkerPc.handed, hm.currentJob]
      | _ => rfl
    omega
  cases hm with
  | refused hfull =>
    simp only [System.afterRequest, if_true]
    refine h.loop rfl (hholds 0 rfl _ rfl rfl) ?_ ?_ ?_ ?_
    · simp [ht]
    · simp [ht]
    · simp [System.places, ht, Nat.not_lt.mpr hfull]
    · simp [System.accepts, ht]
  | placed hroom =>
    have hplaces : s.places P size (.run t) = (P (.task job)).toNat := by
      simp [System.places, ht, hroom]
    apply h.caller (.request job average id .fetchAdd) rfl rfl
    · rw [hplaces]
      refine hholds _ ?_ _ rfl rfl
      rw [List.countP_append, List.countP_singleton]
      cases P (.task job) <;> simp
    · rw [hplaces, ht]
      cases hP : P (.task job) <;> simp [System.accepts, ht, hP]
    · rw [hplaces, ht]
      cases hP : P (.task job) <;> simp [hP]
  | first | counted | awake | standby | spin | ready | signal =>
    apply h.caller (.request job average id _) rfl rfl
    · have hplaces : s.places P size (.run t) = 0 := by simp [System.places, ht]
      rw [hplaces]
      exact hholds 0 rfl _ rfl rfl
    · simp [System.places, System.accepts, ht]
    · simp [System.places, ht]
  | signalAgain q hq hset =>
    have hmove : RequestMove size (.task job) (s.mems id) _ _ _ := .signalAgain q hq hset
    obtain ⟨count, hcount⟩ := (hco.handshake id).result hcs hmove
    cases hcount
  | signalNull hnull =>
    have hmove : RequestMove size (.task job) (s.mems id) _ _ _ := .signalNull hnull
    obtain ⟨count, hcount⟩ := (hco.handshake id).result hcs hmove
    cases hcount
  | requested old =>
    have hpos : old + 1 ≠ 0 := hco.positive t job average id old ht
    simp only [System.afterRequest, if_neg hpos]
    apply h.caller .idle rfl rfl
    · have hplaces : s.places P size (.run t) = 0 := by simp [System.places, ht]
      rw [hplaces]
      exact hholds 0 rfl _ rfl rfl
    · have haccepts : s.accepts P (.run t) = (P (.task job)).toNat := by
        simp only [System.accepts, ht]
        exact if_neg hpos
      rw [haccepts]
      cases hP : P (.task job) <;> simp [System.places, ht, hP]
    · simp [System.places, ht]

theorem Settled.step (h : Settled P size tr s) (hco : Coordinated size s)
    (hs : Stepped size s a s') : Settled P size (tr ++ [(s, a)]) s' := by
  cases hs with
  | called t job ht =>
    apply h.caller (.load job) rfl rfl rfl
    · simp [System.places, System.accepts, ht]
    · cases hP : P (.task job) <;> simp [System.places, System.asks, hP]
  | loaded t job ht =>
    apply h.loop rfl rfl <;> simp [System.places, System.accepts, ht]
  | admitted t job average id ht hle =>
    have hplaces : s.places P size (.run t) = 0 := by simp [System.places, ht]
    apply h.caller (.request job average id .enqueue) rfl rfl (by rw [hplaces]; rfl)
    · simp [hplaces, System.accepts, ht]
    · simp [hplaces, System.asks, ht]
  | passed t job average id ht hlt =>
    apply h.loop rfl rfl <;> simp [System.places, System.accepts, ht]
  | request t job average id pc m next ht hm => exact h.request hco ht hm
  | work id m p hm => exact h.work hm rfl rfl rfl

omit [DecidableEq T] in
theorem settled_init : Settled P size [] (System.init : System w n J T) where
  stored := by simp [System.holds, System.init, Memory.init, WorkerPc.handed]
  answered := ⟨∅, census_none fun _ => id, by simp⟩
  asked := ⟨∅, census_none fun _ => id, by simp⟩

theorem settled_run (h : Run (System.step size) System.init tr s)
    (hquiet : Meets System.QuietLoad tr) : Settled P size tr s :=
  (h.history (C := fun s a => s.QuietLoad a)
    (I := fun tr s => Coordinated size s ∧ Settled P size tr s)
    ⟨coordinated_init, settled_init⟩
    (fun _ _ _ _ hi ha hs => ⟨hi.1.step (System.step_cases hs) ha,
      hi.2.step hi.1 (System.step_cases hs)⟩) hquiet).2

/-! ## What a worker does -/

/-- No step has ended the program: every worker has been born, and has a job where it runs one. -/
structure Unfailing (s : System w n J T) : Prop where
  fault : s.fault = none
  born : ∀ id, s.threads id ≠ .unborn
  job : ∀ id, s.threads id = .run → (s.mems id).currentJob ≠ none

omit [DecidableEq T] in
theorem unfailing_init : Unfailing (System.init : System w n J T) where
  fault := rfl
  born _ := by simp [System.init]
  job _ := by simp [System.init]

omit [DecidableEq T] in
theorem Unfailing.caller (h : Unfailing s) (hfault : s'.fault = s.fault)
    (hthreads : s'.threads = s.threads)
    (hjob : ∀ id, (s'.mems id).currentJob = (s.mems id).currentJob) : Unfailing s' where
  fault := hfault.trans h.fault
  born := by rw [hthreads]; exact h.born
  job id := by rw [hthreads, hjob]; exact h.job id

theorem Unfailing.loop (h : Unfailing s) (t : T) (job : J) (average id : Nat) :
    Unfailing (s.loop t job average id) := by
  rcases s.loop_goto t job average id with ⟨hid, heq⟩ | ⟨hid, heq⟩
  · rw [heq]
    exact h.caller rfl rfl fun _ => rfl
  · rw [heq]
    exact h.caller rfl rfl fun _ => rfl

omit [DecidableEq T] in
theorem Unfailing.work (h : Unfailing s) (hco : Coordinated size s) {id : Fin n}
    {m : Memory w J} {p : WorkerPc w} (hm : WorkMove (s.mems id) (s.threads id) m p)
    (hmems : s'.mems = Function.update s.mems id m)
    (hthreads : s'.threads = Function.update s.threads id p)
    (hfault : s'.fault = workFault (s.mems id) (s.threads id)) : Unfailing s' where
  fault := by
    rw [hfault]
    have hjob := h.job id
    have hhere := (hco.handshake id).here
    generalize s.threads id = pc at hjob hhere
    cases pc with
    | run => simp [workFault, hjob rfl]
    | finalExchange => simp at hhere
    | _ => rfl
  born j := by
    rw [hthreads]
    by_cases hj : j = id
    · rw [hj, Function.update_self]
      exact hm.ne_unborn
    · rw [Function.update_of_ne hj]
      exact h.born j
  job j := by
    rw [hthreads, hmems]
    by_cases hj : j = id
    · rw [hj, Function.update_self, Function.update_self]
      intro hrun
      rcases hm.hasJob (.inl hrun) with hjob | ⟨hbefore, hsame⟩
      · exact hjob
      · rw [hsame]
        exact h.job id hbefore
    · rw [Function.update_of_ne hj, Function.update_of_ne hj]
      exact h.job j

theorem Unfailing.request (h : Unfailing s) (hco : Coordinated size s) {job : J}
    {average : Nat} {id : Fin n} {pc : RequestPc w} {m : Memory w J}
    {next : Next (RequestPc w) (RequestResult w)} (ht : s.callers t = .request job average id pc)
    (hm : RequestMove size (.task job) (s.mems id) pc m next) :
    Unfailing ({ s with
      mems := Function.update s.mems id m
      jobCounter := onJobRequested s.jobCounter pc }.afterRequest t job average id next) := by
  have hcs : s.requests id t = some pc := by simp [System.requests, ht, Pc.requesting]
  have hwritten : Unfailing { s with
      mems := Function.update s.mems id m
      jobCounter := onJobRequested s.jobCounter pc } := by
    refine h.caller rfl rfl ?_
    intro j
    show (Function.update s.mems id m j).currentJob = _
    by_cases hj : j = id
    · rw [hj, Function.update_self]
      exact hm.currentJob
    · rw [Function.update_of_ne hj]
  cases next with
  | goto pc' => exact hwritten.caller rfl rfl fun _ => rfl
  | returned r =>
    obtain ⟨count, rfl⟩ := (hco.handshake id).result hcs hm
    simp only [System.afterRequest]
    split
    · exact hwritten.loop t job average (id + 1)
    · exact hwritten.caller rfl rfl fun _ => rfl

theorem Unfailing.step (h : Unfailing s) (hco : Coordinated size s) (hs : Stepped size s a s') :
    Unfailing s' := by
  cases hs with
  | called t job ht => exact h.caller rfl rfl fun _ => rfl
  | loaded t job ht => exact h.loop t job _ 0
  | admitted t job average id ht hle => exact h.caller rfl rfl fun _ => rfl
  | passed t job average id ht hlt => exact h.loop t job average _
  | request t job average id pc m next ht hm => exact h.request hco ht hm
  | work id m p hm => exact h.work hco hm rfl rfl rfl

theorem unfailing_run (h : Run (System.step size) System.init tr s)
    (hquiet : Meets System.QuietLoad tr) : Unfailing s :=
  (h.invariant (C := fun s a => s.QuietLoad a) (I := fun s => Coordinated size s ∧ Unfailing s)
    ⟨coordinated_init, unfailing_init⟩
    (fun _ _ _ hi ha hs => ⟨hi.1.step (System.step_cases hs) ha,
      hi.2.step hi.1 (System.step_cases hs)⟩) hquiet).2

/-- A worker that cannot take a step while no call is in progress has nothing left to do. -/
theorem Unfailing.still (h : Unfailing s) (hco : Coordinated size s) {id : Fin n}
    (hidle : ∀ t, s.callers t = .idle) (hnone : s.step size (.work id) = none) :
    (s.mems id).queue.countP P + (s.threads id).handed P (s.mems id) = 0 := by
  have hshake := hco.handshake id
  have hrequests : ∀ t, s.requests id t = none := by
    intro t
    simp [System.requests, hidle t, Pc.requesting]
  simp only [System.step, h.fault, if_true, System.next, Option.map_eq_none_iff] at hnone
  rcases Worker.workerStep_none hnone with hout | ⟨q, hwait, hzero⟩
  · rcases hshake.here with hunborn | ⟨hmain, -⟩
    · exact absurd hunborn (h.born id)
    · exact absurd hmain hout
  · have hremained : (s.mems id).remained = 0 := by
      by_contra hne
      have hasleep : (s.threads id).Asleep (s.mems id) := by
        rw [hwait]
        exact hzero
      obtain ⟨t, ht⟩ := hshake.asleep hasleep hne
      rw [hrequests t] at ht
      exact ht
    obtain ⟨U, hU, hcount⟩ := hshake.counts
    have hempty : U = ∅ := by
      apply Finset.eq_empty_of_forall_notMem
      intro t ht
      have hpc := (hU t).mp ht
      rw [hrequests t] at hpc
      cases hpc
    rw [hremained, hempty, hwait] at hcount
    have hqueue : (s.mems id).queue = [] := by
      apply List.eq_nil_of_length_eq_zero
      simpa [WorkerPc.inHand] using hcount.symm
    rw [hqueue, hwait]
    rfl

/-- **Each job once.** In every run whose first loads are quiet, with any number of workers and
callers, the program does not fail, and of any jobs those run and those that a worker holds are
those of the calls that have returned true and of those that are about to. When no call is in
progress and no worker can go on, the jobs run are those of the calls that returned true. -/
theorem runs_each_once (h : Run (System.step size) System.init tr s)
    (hquiet : Meets System.QuietLoad tr) :
    s.fault = none ∧ ∀ P : Job J → Bool,
      (∃ U : Finset T, Census (Pc.Placed P) s.callers U ∧
        total (System.runs P) tr + s.holds P = total (System.accepts P) tr + U.card) ∧
      ((∀ t, s.callers t = .idle) → (∀ id, s.step size (.work id) = none) →
        total (System.runs P) tr = total (System.accepts P) tr) := by
  have hco := coordinated_run h hquiet
  have hunfailing := unfailing_run h hquiet
  refine ⟨hunfailing.fault, ?_⟩
  intro P
  have hsettled : Settled P size tr s := settled_run h hquiet
  have hstored := hsettled.stored
  obtain ⟨U, hU, hsum⟩ := hsettled.answered
  refine ⟨⟨U, hU, by omega⟩, ?_⟩
  intro hidle hstill
  have hempty : U = ∅ := hU.eq_empty fun t => by simp [hidle t]
  have hnone : s.holds P = 0 :=
    Finset.sum_eq_zero fun id _ => hunfailing.still hco hidle (hstill id)
  rw [hempty, Finset.card_empty] at hsum
  omega

/-! ## What the workers' steps cost -/

/-- The step is one of a worker. -/
def System.worked (_ : System w n J T) : Action n J T → Nat
  | .work _ => 1
  | _ => 0

/-- The step starts a call. -/
def System.called (_ : System w n J T) : Action n J T → Nat
  | .call _ _ => 1
  | _ => 0

/-- A worker that has a job in hand runs it in one step, and then has ten until the next. -/
theorem Unfailing.charge (h : Unfailing s) (hco : Coordinated size s)
    (hs : Stepped size s a s') :
    ∑ id, (s'.threads id).rounds + s.worked a ≤
      ∑ id, (s.threads id).rounds + 10 * s.runs (fun _ => true) a := by
  cases hs with
  | called | admitted => exact Nat.le_add_right _ _
  | loaded | passed =>
    rw [loop_threads]
    exact Nat.le_add_right _ _
  | request =>
    rw [afterRequest_threads]
    exact Nat.le_add_right _ _
  | work id m p hm =>
    have hshake := hco.handshake id
    have hsum := sum_change (f := fun j => (s.threads j).rounds)
      (g := fun j => (Function.update s.threads id p j).rounds) id
      (by
        intro j hj
        rw [Function.update_of_ne hj])
    rw [Function.update_self] at hsum
    have hrounds := hm.rounds (hshake.running (h.born id))
      (by
        intro hdequeue
        rw [hdequeue] at hshake
        exact hshake.queue_ne_nil)
      (by
        rcases hshake.here with hunborn | ⟨-, hfinal⟩
        · exact absurd hunborn (h.born id)
        · exact hfinal)
    have hruns : (if s.threads id = .run then 10 else 0) =
        10 * s.runs (fun _ => true) (.work id) := by
      by_cases hrun : s.threads id = .run
      · obtain ⟨job, hjob⟩ := Option.ne_none_iff_exists'.mp (h.job id hrun)
        simp [System.runs, hrun, WorkerPc.handed, hjob]
      · have hnone : (s.threads id).handed (fun _ => true) (s.mems id) = 0 := by
          generalize s.threads id = pc at hrun
          cases pc with
          | run => exact absurd rfl hrun
          | _ => rfl
        simp [System.runs, hrun, hnone]
    show ∑ j, (Function.update s.threads id p j).rounds + 1 ≤ _
    omega

/-- **No busy waiting.** In every run whose first loads are quiet the workers take together at
most seven steps each and ten for each call, whatever the calls are and where they have got to. -/
theorem works_per_call (h : Run (System.step size) System.init tr s)
    (hquiet : Meets System.QuietLoad tr) :
    total System.worked tr ≤ 7 * n + 10 * total System.called tr := by
  have hcharge := Run.charge (C := fun s a => s.QuietLoad a)
    (I := fun s => Coordinated size s ∧ Unfailing s) (fun s => ∑ id, (s.threads id).rounds)
    System.worked (fun s a => 10 * s.runs (fun _ => true) a) ⟨coordinated_init, unfailing_init⟩
    (fun _ _ _ hi ha hs => ⟨hi.1.step (System.step_cases hs) ha,
      hi.2.step hi.1 (System.step_cases hs)⟩)
    (fun _ _ _ hi _ hs => hi.2.charge hi.1 (System.step_cases hs)) h hquiet
  have hsettled : Settled (fun _ => true) size tr s := settled_run h hquiet
  have hstored := hsettled.stored
  obtain ⟨V, -, hasked⟩ := hsettled.asked
  have hcalled : total (System.asks fun _ => true) tr = total System.called tr := by
    have hsame : (System.asks fun _ => true : System w n J T → Action n J T → Nat) =
        System.called := by
      funext s a
      cases a <;> rfl
    rw [hsame]
  have hinit : ∑ id, ((System.init : System w n J T).threads id).rounds = 7 * n := by
    simp [System.init, WorkerPc.rounds, Nat.mul_comm]
  rw [total_mul, hinit] at hcharge
  omega

end

/-! ## Concrete runs -/

/-- The second caller passes over the first worker, which is loaded more than the mean; both
workers run their jobs and go to sleep again. -/
theorem runs_each_once_two : ∃ (tr : _) (s : System 64 2 Nat Bool),
    Run (System.step oneJob) System.init tr s ∧
      tr.map Prod.snd = bothAsleep ++ .call false 7 :: callerRuns false 8 ++
        .call true 8 :: callerRuns true 9 ++
        List.replicate 10 (.work 0) ++ List.replicate 10 (.work 1) ∧
      s.log = [.called false 7, .returned false true, .called true 8, .returned true true] ∧
      (∀ t, s.callers t = .idle) ∧ (∀ id, s.step oneJob (.work id) = none) ∧
      s.fault = none ∧ ∀ P : Job Nat → Bool,
        total (System.runs P) tr = total (System.accepts P) tr := by
  have hrun : ∃ (tr : _) (s : System 64 2 Nat Bool), Run (System.step oneJob) System.init tr s ∧
      Meets System.QuietLoad tr ∧
      tr.map Prod.snd = bothAsleep ++ .call false 7 :: callerRuns false 8 ++
        .call true 8 :: callerRuns true 9 ++
        List.replicate 10 (.work 0) ++ List.replicate 10 (.work 1) ∧
      (s.log = [.called false 7, .returned false true, .called true 8, .returned true true] ∧
        (∀ t, s.callers t = .idle) ∧ ∀ id, (s.step oneJob (.work id)).isNone = true) :=
    Run.of_execMeets_any _ (by decide)
  obtain ⟨tr, s, hr, hquiet, ha, hlog, hidle, hstill⟩ := hrun
  have hnone : ∀ id, s.step oneJob (.work id) = none :=
    fun id => Option.isNone_iff_eq_none.mp (hstill id)
  obtain ⟨hfault, hall⟩ := runs_each_once hr hquiet
  exact ⟨tr, s, hr, ha, hlog, hidle, hnone, hfault, fun P => (hall P).2 hidle hnone⟩

theorem works_per_call_two : ∃ (tr : _) (s : System 64 2 Nat Bool),
    Run (System.step oneJob) System.init tr s ∧
      tr.map Prod.snd = bothAsleep ++ .call true 8 :: callerRuns true 8 ∧
      total System.worked tr ≤ 7 * 2 + 10 * total System.called tr := by
  have hrun : ∃ (tr : _) (s : System 64 2 Nat Bool), Run (System.step oneJob) System.init tr s ∧
      Meets System.QuietLoad tr ∧
      tr.map Prod.snd = bothAsleep ++ .call true 8 :: callerRuns true 8 ∧ s.fault = none :=
    Run.of_execMeets_any _ (by decide)
  obtain ⟨tr, s, hr, hquiet, ha, -⟩ := hrun
  exact ⟨tr, s, hr, ha, works_per_call hr hquiet⟩

end Vee.Group
