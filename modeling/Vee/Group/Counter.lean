import Mathlib.Algebra.BigOperators.Fin
import Vee.Group.Coordinated
import Vee.Lib.Census
import Vee.Lib.Charge

/- `_job_counter` of the group, and the events that write it.

   A caller fires `job_requested` after its worker has been signalled, a worker fires
   `job_processed` after it has run the job, so the decrement of a job may come before its
   increment. The two numbers of events differ by the jobs that are placed and not
   processed less those that are placed and not announced (`Tallied`). The counter stays
   above zero exactly while the latter are the fewer at each decrement (`counter_exact`);
   with one worker and one job it may wrap (`counter_wraps`). -/
namespace Vee.Worker

variable {w : Nat}

/-- The job that is out of the queue and for which `job_processed` has not been fired. -/
def WorkerPc.unprocessed : WorkerPc w → Nat
  | run | reset | jobProcessed => 1
  | _ => 0

/-- Whether the step fires `job_requested`. -/
def RequestPc.announces : RequestPc w → Bool
  | jobRequested _ => true
  | _ => false

theorem WorkerPc.unprocessed_le (p : WorkerPc w) : p.unprocessed ≤ p.inHand := by
  cases p <;> simp [unprocessed, inHand]

/-- A job waits until `job_processed` is fired for it. -/
theorem WorkMove.waiting {J : Type*} {m m' : Memory w J} {p p' : WorkerPc w}
    (h : WorkMove m p m' p') :
    m'.queue.length + p'.unprocessed + (p == .jobProcessed).toNat =
      m.queue.length + p.unprocessed := by
  cases h with
  | job job queue hq => simp [hq, WorkerPc.unprocessed]
  | _ => simp [WorkerPc.unprocessed]

end Vee.Worker

namespace Vee.Group
open Transition Counting
open Lockfree (Next)
open Worker (Memory RequestPc RequestResult RequestMove WorkerPc WorkMove QueueSize Job Handshake)

variable {w n : Nat} {J T : Type*}

/-! ## The events -/

/-- The step fires `job_requested`. -/
def System.firesRequested (s : System w n J T) : Action n J T → Bool
  | .run t =>
    match s.callers t with
    | .request _ _ _ pc => pc.announces
    | _ => false
  | _ => false

/-- The step fires `job_processed`. -/
def System.firesProcessed (s : System w n J T) : Action n J T → Bool
  | .work id => s.threads id == .jobProcessed
  | _ => false

/-- The `job_requested` events fired in a run. -/
def requested (tr : List (System w n J T × Action n J T)) : Nat :=
  tr.countP fun p => p.1.firesRequested p.2

/-- The `job_processed` events fired in a run. -/
def processed (tr : List (System w n J T × Action n J T)) : Nat :=
  tr.countP fun p => p.1.firesProcessed p.2

/-- The caller has placed a job and has not fired `job_requested` for it. -/
def Pc.Unannounced : Pc w n J → Prop
  | request _ _ _ .enqueue => False
  | request .. => True
  | _ => False

instance : DecidablePred (Pc.Unannounced : Pc w n J → Prop)
  | .idle | .load _ | .test .. | .request _ _ _ .enqueue => isFalse id
  | .request _ _ _ .fetchAdd | .request _ _ _ .loadState | .request _ _ _ .awaitPromise
  | .request _ _ _ .setValue | .request _ _ _ (.jobRequested _) => isTrue trivial

@[simp] theorem unannounced_idle : ¬ (Pc.idle : Pc w n J).Unannounced := id

@[simp] theorem unannounced_load (job : J) : ¬ (Pc.load job : Pc w n J).Unannounced := id

@[simp] theorem unannounced_test (job : J) (average : Nat) (id : Fin n) :
    ¬ (Pc.test job average id : Pc w n J).Unannounced := fun h => h

@[simp] theorem unannounced_request {job : J} {average : Nat} {id : Fin n} {pc : RequestPc w} :
    (Pc.request job average id pc).Unannounced ↔ pc ≠ .enqueue := by
  cases pc <;> simp [Pc.Unannounced]

/-- The calls that ended in the exception of `set_value`: their jobs are placed, and
`job_requested` is never fired for them. -/
def thrown (log : List (Event J T)) : Nat :=
  log.countP fun
    | .threw _ => true
    | _ => false

/-- The jobs that are placed and not processed. -/
def System.waiting (s : System w n J T) : Nat :=
  ∑ id, ((s.mems id).queue.length + (s.threads id).unprocessed)

/-- If the step fires `job_processed`, more jobs are placed and not processed than are
placed and not announced. -/
def System.Announced (s : System w n J T) : Action n J T → Prop
  | .work id => s.threads id = .jobProcessed →
    ∀ U : Finset T, (∀ t ∈ U, (s.callers t).Unannounced) → U.card + thrown s.log < s.waiting
  | _ => True

/-- No request is in progress, and no job. -/
def System.AtRest (s : System w n J T) : Prop :=
  (∀ t, s.callers t = .idle) ∧ ∀ id, (s.threads id).inHand = 0

/-! ## The balance of the events -/

/-- What the events fired in `tr` say of the state it has led to. -/
structure Tallied (tr : List (System w n J T × Action n J T)) (s : System w n J T) : Prop where
  balance : ∃ U : Finset T, Census Pc.Unannounced s.callers U ∧
    processed tr + s.waiting = requested tr + U.card + thrown s.log
  counter : s.jobCounter = BitVec.ofNat w (requested tr) - BitVec.ofNat w (processed tr)

section
variable {tr : List (System w n J T × Action n J T)} {s s' : System w n J T} {a : Action n J T}
  {t : T} {size : QueueSize w}

theorem requested_snoc : requested (tr ++ [(s, a)]) =
    requested tr + (s.firesRequested a).toNat := by
  simp [requested, List.countP_append, List.countP_singleton, Bool.toNat, cond_eq_ite]

theorem processed_snoc : processed (tr ++ [(s, a)]) =
    processed tr + (s.firesProcessed a).toNat := by
  simp [processed, List.countP_append, List.countP_singleton, Bool.toNat, cond_eq_ite]

theorem thrown_nil : thrown ([] : List (Event J T)) = 0 := rfl

theorem thrown_append (log new : List (Event J T)) :
    thrown (log ++ new) = thrown log + thrown new := List.countP_append

/-- The jobs waiting after a step of worker `id` or of a caller of it. -/
theorem waiting_change {id : Fin n} {m : Memory w J} {p : WorkerPc w}
    (hmems : s'.mems = Function.update s.mems id m)
    (hthreads : s'.threads = Function.update s.threads id p) :
    s'.waiting + ((s.mems id).queue.length + (s.threads id).unprocessed) =
      s.waiting + (m.queue.length + p.unprocessed) := by
  have hsum := sum_change (f := fun j => (s.mems j).queue.length + (s.threads j).unprocessed)
    (g := fun j => (s'.mems j).queue.length + (s'.threads j).unprocessed) id (by
      intro j hj
      simp only [hmems, hthreads, Function.update_of_ne hj])
  simpa [System.waiting, hmems, hthreads] using hsum

variable [DecidableEq T]

/-- A step of caller `t`, which goes to `p`. -/
theorem Tallied.caller (h : Tallied tr s) (p : Pc w n J) (new : List (Event J T))
    (hcallers : s'.callers = Function.update s.callers t p) (hlog : s'.log = s.log ++ new)
    (hfires : s.firesProcessed a = false)
    (hcounter : s'.jobCounter = s.jobCounter + BitVec.ofNat w (s.firesRequested a).toNat)
    (hbalance : s'.waiting + (if (s.callers t).Unannounced then 1 else 0) =
      s.waiting + (s.firesRequested a).toNat + (if p.Unannounced then 1 else 0) +
        thrown new) :
    Tallied (tr ++ [(s, a)]) s' where
  balance := by
    obtain ⟨U, hU, hsum⟩ := h.balance
    obtain ⟨U', hU', hcard⟩ := hU.update t p
    refine ⟨U', ?_, ?_⟩
    · rwa [hcallers]
    · rw [requested_snoc, processed_snoc, hfires, hlog, thrown_append]
      simp only [Bool.toNat_false]
      omega
  counter := by
    rw [hcounter, requested_snoc, processed_snoc, hfires, h.counter, BitVec.ofNat_add]
    exact sub_add_eq_add_sub _ _ _

/-- The same where the worker and the counter have been written in `m`. -/
theorem Tallied.goto (h : Tallied tr s) {m : System w n J T} (p : Pc w n J)
    (new : List (Event J T)) (hcallers : m.callers = s.callers) (hlog : m.log = s.log)
    (hfires : s.firesProcessed a = false)
    (hcounter : m.jobCounter = s.jobCounter + BitVec.ofNat w (s.firesRequested a).toNat)
    (hbalance : m.waiting + (if (s.callers t).Unannounced then 1 else 0) =
      s.waiting + (s.firesRequested a).toNat + (if p.Unannounced then 1 else 0) +
        thrown new) :
    Tallied (tr ++ [(s, a)]) (m.goto t p new) :=
  h.caller p new (by rw [← hcallers]; rfl) (by rw [← hlog]; rfl) hfires hcounter hbalance

/-- The loop leaves the caller at no request. -/
theorem loop_unannounced (s : System w n J T) (t : T) (job : J) (average id : Nat) :
    ∃ p new, s.loop t job average id = s.goto t p new ∧ ¬ p.Unannounced ∧ thrown new = 0 := by
  rcases s.loop_goto t job average id with ⟨hid, heq⟩ | ⟨hid, heq⟩
  · exact ⟨_, _, heq, fun hp => hp, rfl⟩
  · exact ⟨_, _, heq, fun hp => hp, rfl⟩

/-- So does a request that returns a count. -/
theorem count_unannounced (s : System w n J T) (t : T) (job : J) (average : Nat) (id : Fin n)
    (r : BitVec w) :
    ∃ p new, s.afterRequest t job average id (.returned (.count r)) = s.goto t p new ∧
      ¬ p.Unannounced ∧ thrown new = 0 := by
  simp only [System.afterRequest]
  split
  · exact loop_unannounced s t job average _
  · exact ⟨_, _, rfl, fun hp => hp, rfl⟩

/-- A step of a worker's `nothrow_request`. -/
theorem Tallied.request (h : Tallied tr s) {job : J} {average : Nat} {id : Fin n}
    {pc : RequestPc w} {m : Memory w J} {next : Next (RequestPc w) (RequestResult w)}
    (ht : s.callers t = .request job average id pc)
    (hm : RequestMove size (.task job) (s.mems id) pc m next) :
    Tallied (tr ++ [(s, .run t)]) ({ s with
      mems := Function.update s.mems id m
      jobCounter := onJobRequested s.jobCounter pc }.afterRequest t job average id next) := by
  have hwaiting : ({ s with
      mems := Function.update s.mems id m
      jobCounter := onJobRequested s.jobCounter pc } : System w n J T).waiting +
        (s.mems id).queue.length = s.waiting + m.queue.length := by
    have hmems : ({ s with
        mems := Function.update s.mems id m
        jobCounter := onJobRequested s.jobCounter pc } : System w n J T).mems =
      Function.update s.mems id m := rfl
    have hchange := waiting_change hmems (Function.update_eq_self id s.threads).symm
    omega
  have hpc : s.firesRequested (.run t) = pc.announces := by
    simp only [System.firesRequested, ht]
  have hat : (s.callers t).Unannounced ↔ pc ≠ .enqueue := by
    rw [ht]
    exact unannounced_request
  cases hm with
  | refused hfull =>
    obtain ⟨p, new, heq, hp, hnew⟩ := count_unannounced { s with
      mems := Function.update s.mems id (s.mems id)
      jobCounter := onJobRequested s.jobCounter .enqueue } t job average id 0
    rw [heq]
    refine h.goto p new rfl rfl rfl (by simp [hpc, RequestPc.announces, onJobRequested]) ?_
    simp only [hpc, hat, hp, hnew, RequestPc.announces]
    simpa using hwaiting
  | placed hroom =>
    refine h.goto (.request job average id .fetchAdd) [] rfl rfl rfl
      (by simp [hpc, RequestPc.announces, onJobRequested]) ?_
    simp only [List.length_append, List.length_singleton] at hwaiting
    simp only [hpc, hat, unannounced_request, RequestPc.announces, thrown_nil]
    simp
    omega
  | first | counted | awake | standby | spin | ready | signal =>
    refine h.goto (.request job average id _) [] rfl rfl rfl
      (by simp [hpc, RequestPc.announces, onJobRequested]) ?_
    simp only [hpc, hat, unannounced_request, RequestPc.announces, thrown_nil]
    simpa using hwaiting
  | signalAgain q hq hset =>
    refine h.goto .idle [.threw t] rfl rfl rfl
      (by simp [hpc, RequestPc.announces, onJobRequested]) ?_
    simp only [hpc, hat, unannounced_idle, RequestPc.announces]
    simpa [thrown] using hwaiting
  | signalNull hnull =>
    -- the program ends, and the caller stays where it is
    refine h.caller (s.callers t) [] (Function.update_eq_self t s.callers).symm
      (List.append_nil s.log).symm rfl
      (by simp [hpc, RequestPc.announces, onJobRequested, System.afterRequest]) ?_
    simp only [hpc, hat, RequestPc.announces, thrown_nil]
    simp [System.afterRequest, System.waiting]
  | requested old =>
    obtain ⟨p, new, heq, hp, hnew⟩ := count_unannounced { s with
      mems := Function.update s.mems id (s.mems id)
      jobCounter := onJobRequested s.jobCounter (.jobRequested old) } t job average id (old + 1)
    rw [heq]
    refine h.goto p new rfl rfl rfl (by simp [hpc, RequestPc.announces, onJobRequested]) ?_
    simp only [hpc, hat, hp, hnew, RequestPc.announces]
    simpa using hwaiting

omit [DecidableEq T] in
/-- A step of a worker. -/
theorem Tallied.work (h : Tallied tr s) {id : Fin n} {m : Memory w J} {p : WorkerPc w}
    (hm : WorkMove (s.mems id) (s.threads id) m p)
    (hmems : s'.mems = Function.update s.mems id m)
    (hthreads : s'.threads = Function.update s.threads id p)
    (hcounter : s'.jobCounter = onJobProcessed s.jobCounter (s.threads id))
    (hcallers : s'.callers = s.callers) (hlog : s'.log = s.log) :
    Tallied (tr ++ [(s, .work id)]) s' where
  balance := by
    obtain ⟨U, hU, hsum⟩ := h.balance
    have hchange := waiting_change hmems hthreads
    have hwaiting := hm.waiting
    refine ⟨U, by rwa [hcallers], ?_⟩
    rw [requested_snoc, processed_snoc, hlog]
    simp only [System.firesRequested, System.firesProcessed, Bool.toNat_false]
    omega
  counter := by
    rw [hcounter, requested_snoc, processed_snoc, h.counter]
    simp only [System.firesRequested, System.firesProcessed, Bool.toNat_false, Nat.add_zero]
    cases s.threads id with
    | jobProcessed =>
      show _ - BitVec.ofNat w 1 = _
      rw [sub_sub, ← BitVec.ofNat_add]
      rfl
    | _ => rfl

theorem Tallied.step (h : Tallied tr s) (hs : Stepped size s a s') :
    Tallied (tr ++ [(s, a)]) s' := by
  cases hs with
  | called t job ht =>
    refine h.goto (.load job) _ rfl rfl rfl (by simp [System.firesRequested]) ?_
    simp [ht, System.firesRequested, thrown]
  | loaded t job ht =>
    obtain ⟨p, new, heq, hp, hnew⟩ := loop_unannounced s t job (s.jobCounter.toNat / n) 0
    rw [heq]
    refine h.goto p new rfl rfl rfl (by simp [System.firesRequested, ht]) ?_
    simp [ht, hp, hnew, System.firesRequested]
  | admitted t job average id ht hle =>
    refine h.goto (.request job average id .enqueue) [] rfl rfl rfl
      (by simp [System.firesRequested, ht]) ?_
    simp [ht, System.firesRequested, thrown_nil]
  | passed t job average id ht hlt =>
    obtain ⟨p, new, heq, hp, hnew⟩ := loop_unannounced s t job average (id + 1)
    rw [heq]
    refine h.goto p new rfl rfl rfl (by simp [System.firesRequested, ht]) ?_
    simp [ht, hp, hnew, System.firesRequested]
  | request t job average id pc m next ht hm => exact h.request ht hm
  | work id m p hm => exact h.work hm rfl rfl rfl rfl rfl

omit [DecidableEq T] in
theorem tallied_init : Tallied [] (System.init : System w n J T) where
  balance := ⟨∅, census_none fun _ => id, by
    simp [requested, processed, thrown, System.init, System.waiting, Memory.init,
      WorkerPc.unprocessed]⟩
  counter := by simp [requested, processed, System.init]

theorem tallied_run (h : Run (System.step size) System.init tr s) : Tallied tr s :=
  h.history (C := fun _ _ => True) tallied_init
    (fun _ _ _ _ hi _ hs => hi.step (System.step_cases hs)) (fun _ _ => trivial)

omit [DecidableEq T] in
/-- A step leaves no fewer events behind than are fired exactly if it is announced. -/
theorem Tallied.announced_iff (h : Tallied tr s) (hle : processed tr ≤ requested tr) :
    s.Announced a ↔ processed (tr ++ [(s, a)]) ≤ requested (tr ++ [(s, a)]) := by
  obtain ⟨U, hU, hsum⟩ := h.balance
  rw [requested_snoc, processed_snoc]
  cases a with
  | call | run =>
    have hfires : ∀ k, processed tr + (false : Bool).toNat ≤ requested tr + k :=
      fun k => Nat.le_trans hle (Nat.le_add_right _ _)
    exact ⟨fun _ => hfires _, fun _ => trivial⟩
  | work id =>
    simp only [System.Announced, System.firesRequested, System.firesProcessed, Bool.toNat_false]
    by_cases hp : s.threads id = .jobProcessed
    · simp only [hp, beq_self_eq_true, Bool.toNat_true, true_implies]
      refine ⟨?_, ?_⟩
      · intro hann
        have hlt := hann U fun t ht => (hU t).mp ht
        omega
      · intro hnext V hV
        have hcard : V.card ≤ U.card := Finset.card_le_card fun t ht => (hU t).mpr (hV t ht)
        omega
    · have hbeq : (s.threads id == .jobProcessed) = false := by simpa using hp
      simp [hp, hbeq, hle]

/-- No call of a worker throws while its handshake holds. -/
theorem Coordinated.thrown (h : Coordinated size s) (hs : Stepped size s a s') :
    thrown s'.log = thrown s.log := by
  cases hs with
  | called | admitted => simp [System.goto, Group.thrown]
  | loaded t job =>
    obtain ⟨p, new, heq, -, hnew⟩ := loop_unannounced s t job (s.jobCounter.toNat / n) 0
    rw [heq]
    simp [System.goto, thrown_append, hnew]
  | passed t job average id =>
    obtain ⟨p, new, heq, -, hnew⟩ := loop_unannounced s t job average (id + 1)
    rw [heq]
    simp [System.goto, thrown_append, hnew]
  | request t job average id pc m next ht hm =>
    cases next with
    | goto pc' => simp [System.afterRequest, System.goto]
    | returned r =>
      have hcs : s.requests id t = some pc := by simp [System.requests, ht, Pc.requesting]
      obtain ⟨c, rfl⟩ := (h.handshake id).result hcs hm
      obtain ⟨p, new, heq, -, hnew⟩ := count_unannounced { s with
        mems := Function.update s.mems id m
        jobCounter := onJobRequested s.jobCounter pc } t job average id c
      rw [heq]
      simp [System.goto, thrown_append, hnew]
  | work => rfl

omit [DecidableEq T] in
/-- At rest the jobs that wait are those the workers count. -/
theorem Coordinated.waiting_rest (h : Coordinated size s) (hrest : s.AtRest) :
    s.waiting = ∑ id, (s.mems id).remained.toNat := by
  refine Finset.sum_congr rfl fun id _ => ?_
  obtain ⟨U, hU, hcount⟩ := (h.handshake id).counts
  have hempty : U = ∅ := by
    refine Finset.eq_empty_of_forall_notMem fun t ht => ?_
    have hpc := (hU t).mp ht
    simp [System.requests, hrest.1 t, Pc.requesting] at hpc
  have hhand := hrest.2 id
  have hle := (s.threads id).unprocessed_le
  rw [hempty, Finset.card_empty] at hcount
  omega

omit [DecidableEq T] in
/-- A difference of the numbers of events, as the counter holds it. -/
theorem Tallied.difference (h : Tallied tr s) {k : Nat} (hk : requested tr = processed tr + k) :
    s.jobCounter = BitVec.ofNat w k := by
  rw [h.counter, hk, BitVec.ofNat_add]
  exact add_sub_cancel_left _ _

theorem announced_le (h : Run (System.step size) System.init tr s)
    (hann : Meets System.Announced tr) : processed tr ≤ requested tr := by
  induction h with
  | nil => exact Nat.le_refl 0
  | snoc hrun _ ih =>
    obtain ⟨htr, ha⟩ := meets_snoc.mp hann
    exact ((tallied_run hrun).announced_iff (ih htr)).mp ha

/-- In a run with quiet first loads no call throws. -/
theorem thrown_run (h : Run (System.step size) System.init tr s)
    (hquiet : Meets System.QuietLoad tr) : thrown s.log = 0 := by
  induction h with
  | nil => rfl
  | snoc hrun hs ih =>
    obtain ⟨htr, -⟩ := meets_snoc.mp hquiet
    rw [(coordinated_run hrun htr).thrown (System.step_cases hs), ih htr]

/-- The events of processed jobs stay behind those of requested jobs exactly if every step is
announced, and then the counter is their difference. -/
theorem counter_exact (h : Run (System.step size) System.init tr s) :
    ((∀ before after, tr = before ++ after → processed before ≤ requested before) ↔
        Meets System.Announced tr) ∧
      (Meets System.Announced tr →
        s.jobCounter = BitVec.ofNat w (requested tr - processed tr)) := by
  refine ⟨⟨?_, ?_⟩, ?_⟩
  · intro hle p hp
    obtain ⟨before, after, rfl⟩ := List.append_of_mem hp
    obtain ⟨m, hbefore, hafter⟩ := h.split
    obtain ⟨rfl, -⟩ := hafter.cons
    refine ((tallied_run hbefore).announced_iff (hle before _ rfl)).mpr ?_
    exact hle (before ++ [p]) after (by simp)
  · intro hann before after heq
    subst heq
    obtain ⟨m, hbefore, -⟩ := h.split
    exact announced_le hbefore (meets_append.mp hann).1
  · intro hann
    have hle := announced_le h hann
    exact (tallied_run h).difference (by omega)

/-- At rest, if the first loads were quiet, the counter is the sum of the workers' counts. -/
theorem counter_rest (h : Run (System.step size) System.init tr s)
    (hquiet : Meets System.QuietLoad tr) (hrest : s.AtRest) :
    requested tr = processed tr + ∑ id, (s.mems id).remained.toNat ∧
      s.jobCounter = BitVec.ofNat w (∑ id, (s.mems id).remained.toNat) := by
  have htally := tallied_run h
  obtain ⟨U, hU, hsum⟩ := htally.balance
  have hempty : U = ∅ := hU.eq_empty fun t => by simp [hrest.1 t]
  rw [hempty, Finset.card_empty, thrown_run h hquiet,
    (coordinated_run h hquiet).waiting_rest hrest] at hsum
  exact ⟨hsum.symm, htally.difference hsum.symm⟩

end

/-! ## Concrete runs -/

instance [Fintype T] [DecidableEq J] (s : System w n J T) : Decidable s.AtRest :=
  inferInstanceAs (Decidable (_ ∧ _))

/-- The worker runs the job to the end before its caller fires `job_requested`. -/
def earlyProcessed : List (Action 1 Nat Bool) :=
  List.replicate 4 (.work (Fin.last 0)) ++ .call true 7 :: List.replicate 7 (.run true) ++
    List.replicate 6 (.work (Fin.last 0))

theorem counter_wraps : ∃ (tr : _) (s : System 64 1 Nat Bool),
    Run (System.step oneJob) System.init tr s ∧ tr.map Prod.snd = earlyProcessed ∧
      ¬ processed tr ≤ requested tr ∧ s.jobCounter = BitVec.allOnes 64 := by
  have hrun : ∃ (tr : _) (s : System 64 1 Nat Bool), Run (System.step oneJob) System.init tr s ∧
      tr.map Prod.snd = earlyProcessed ∧
      (s.callers true).Unannounced ∧ s.waiting = 0 ∧ s.jobCounter = BitVec.allOnes 64 :=
    Run.of_exec_any _ (by decide)
  obtain ⟨tr, s, h, ha, hcaller, hwaiting, hcounter⟩ := hrun
  refine ⟨tr, s, h, ha, ?_, hcounter⟩
  -- the job is processed, and its request is not announced
  obtain ⟨U, hU, hsum⟩ := (tallied_run h).balance
  have hcard := hU.card_pos hcaller
  omega

end Vee.Group
