import Vee.Group.Counter
import Vee.Lib.Record

/- The two events of a job, and `_job_counter`.

   A worker runs its jobs in the order in which they were placed, so the jobs of the group are
   told apart by their worker and their number there: the `k`-th `job_processed` of a worker is
   that of the `k`-th job placed in it (`numbered_run`). A `Ledger` records which jobs have been
   placed and processed, and for which `job_requested` has been fired. If every job has its
   `job_requested` before its `job_processed` (`Ordered`), the jobs processed are among those
   announced, and so the counter never falls below zero (`counter_sound`). -/
namespace Vee.Group
open Transition
open Worker (Memory RequestPc WorkerPc WorkMove QueueSize Job)

variable {w n : Nat} {J T : Type*}

/-- What has been done with the jobs, each named by its worker and its number there. -/
structure Ledger (n : Nat) (J T : Type*) where
  /-- the jobs placed in each worker -/
  placed : Fin n → List (Job J)
  /-- the `job_processed` events of each worker -/
  processed : Fin n → Nat
  /-- the job that each caller has placed last -/
  last : T → Option (Fin n × Nat)
  /-- the jobs for which `job_requested` has been fired -/
  announced : List (Fin n × Nat)

/-- Before the first step. -/
def Ledger.empty : Ledger n J T :=
  { placed := fun _ => [], processed := fun _ => 0, last := fun _ => none, announced := [] }

section
variable [DecidableEq T] (size : QueueSize w)

/-- What a step adds to it. -/
def Ledger.next (l : Ledger n J T) (s : System w n J T) : Action n J T → Ledger n J T
  | .call _ _ => l
  | .run t =>
    match s.callers t with
    | .request job _ id .enqueue =>
      if (s.mems id).queue.length < size.slots then
        { l with
          placed := Function.update l.placed id (l.placed id ++ [.task job])
          last := Function.update l.last t (some (id, (l.placed id).length)) }
      else l
    | .request _ _ _ (.jobRequested _) => { l with announced := l.announced ++ (l.last t).toList }
    | _ => l
  | .work id =>
    if s.threads id = .jobProcessed then
      { l with processed := Function.update l.processed id (l.processed id + 1) }
    else l

end

/-- If the step fires `job_processed`, `job_requested` has been fired for the same job. -/
def Ledger.Announces (l : Ledger n J T) (s : System w n J T) : Action n J T → Prop
  | .work id => s.threads id = .jobProcessed → (id, l.processed id) ∈ l.announced
  | _ => True

/-- Every job has its `job_requested` before its `job_processed`. -/
def Ordered [DecidableEq T] (size : QueueSize w) (tr : List (System w n J T × Action n J T)) :
    Prop :=
  MeetsRecorded (Ledger.next size) Ledger.Announces .empty tr

section
variable [DecidableEq T] {size : QueueSize w} {tr : List (System w n J T × Action n J T)}
  {l : Ledger n J T} {s s' : System w n J T} {a : Action n J T}

/-! ## The numbers of the jobs -/

/-- Of the jobs `placed` in a worker the first are processed or in its hand, and the rest in its
queue; it runs the one whose number is that of the jobs processed. -/
structure Numbered (placed : List (Job J)) (processed : Nat) (m : Memory w J) (p : WorkerPc w) :
    Prop where
  le : processed + p.unprocessed ≤ placed.length
  queue : placed.drop (processed + p.unprocessed) = m.queue
  hand : p = .run → placed[processed]? = m.currentJob

omit [DecidableEq T] in
theorem Numbered.append {placed : List (Job J)} {processed : Nat} {m : Memory w J} {p : WorkerPc w}
    (h : Numbered placed processed m p) (job : Job J) :
    Numbered (placed ++ [job]) processed { m with queue := m.queue ++ [job] } p where
  le := by
    have hle := h.le
    rw [List.length_append]
    omega
  queue := by rw [List.drop_append_of_le_length h.le, h.queue]
  hand := by
    intro hp
    have hle := h.le
    have hone : p.unprocessed = 1 := by rw [hp]; rfl
    rw [List.getElem?_append_left (by omega)]
    exact h.hand hp

omit [DecidableEq T] in
theorem Numbered.work {placed : List (Job J)} {processed : Nat} {m m' : Memory w J}
    {p p' : WorkerPc w} (h : Numbered placed processed m p) (hm : WorkMove m p m' p') :
    Numbered placed (if p = .jobProcessed then processed + 1 else processed) m' p' := by
  have hle := h.le
  have hqueue := h.queue
  cases hm with
  | job job queue hq =>
    have hzero : (WorkerPc.dequeue : WorkerPc w).unprocessed = 0 := rfl
    rw [hzero, hq] at hqueue
    have hlt : processed < placed.length := by
      by_contra hge
      rw [List.drop_eq_nil_of_le (by omega)] at hqueue
      cases hqueue
    rw [Nat.add_zero, List.drop_eq_getElem_cons hlt] at hqueue
    obtain ⟨hjob, hrest⟩ := List.cons.inj hqueue
    refine ⟨hlt, hrest, ?_⟩
    intro _
    rw [← hjob]
    exact List.getElem?_eq_getElem hlt
  | jobProcessed => exact ⟨hle, hqueue, by simp⟩
  | _ => exact ⟨hle, hqueue, by simp⟩

/-- The ledger names the jobs of every worker as they come. -/
theorem numbered_step (h : ∀ id, Numbered (l.placed id) (l.processed id) (s.mems id) (s.threads id))
    (hs : Stepped size s a s') (id : Fin n) :
    Numbered ((l.next size s a).placed id) ((l.next size s a).processed id) (s'.mems id)
      (s'.threads id) := by
  cases hs with
  | called => exact h id
  | loaded t job ht => simpa [Ledger.next, ht] using h id
  | admitted t job average id' ht => simpa [Ledger.next, ht, System.goto] using h id
  | passed t job average id' ht => simpa [Ledger.next, ht] using h id
  | request t job average id' pc m next ht hm =>
    simp only [afterRequest_mems, afterRequest_threads, Ledger.next, ht]
    by_cases hid : id = id'
    · subst hid
      rw [Function.update_self]
      cases hm with
      | placed hroom =>
        simp only [if_pos hroom, Function.update_self]
        exact (h id).append _
      | refused hfull =>
        simp only [if_neg (Nat.not_lt.mpr hfull)]
        exact h id
      | _ => exact ⟨(h id).le, (h id).queue, (h id).hand⟩
    · rw [Function.update_of_ne hid]
      cases hm with
      | placed hroom =>
        simp only [if_pos hroom, Function.update_of_ne hid]
        exact h id
      | refused hfull =>
        simp only [if_neg (Nat.not_lt.mpr hfull)]
        exact h id
      | _ => exact h id
  | work id' m p hm =>
    simp only [Ledger.next]
    by_cases hid : id = id'
    · subst hid
      have hwork := (h id).work hm
      rw [Function.update_self, Function.update_self]
      split
      · rename_i hp
        simp only [Function.update_self]
        rwa [if_pos hp] at hwork
      · rename_i hp
        rwa [if_neg hp] at hwork
    · rw [Function.update_of_ne hid, Function.update_of_ne hid]
      split
      · simp only [Function.update_of_ne hid]
        exact h id
      · exact h id

/-- In every run the job that a worker runs is the one after those it has processed. -/
theorem numbered_run (h : Run (System.step size) System.init tr s) (id : Fin n) :
    Numbered ((recorded (Ledger.next size) .empty tr).placed id)
      ((recorded (Ledger.next size) .empty tr).processed id) (s.mems id) (s.threads id) :=
  h.recorded (I := fun (l : Ledger n J T) s => ∀ id, Numbered (l.placed id) (l.processed id)
    (s.mems id) (s.threads id)) (fun _ => ⟨Nat.zero_le _, rfl, by simp [System.init]⟩)
    (fun _ _ _ _ hi hs => numbered_step hi (System.step_cases hs)) id

/-! ## The events -/

/-- The record counts the events: `job_processed` by worker, and no more jobs are announced than
`job_requested` events are fired. -/
structure Ledger.Counts (l : Ledger n J T) (tr : List (System w n J T × Action n J T)) : Prop where
  processed : Group.processed tr = ∑ id, l.processed id
  announced : l.announced.length ≤ requested tr

/-- The jobs that are processed are announced. -/
def Ledger.Covers (l : Ledger n J T) : Prop :=
  ∀ id k, k < l.processed id → (id, k) ∈ l.announced

omit [DecidableEq T] in
/-- There are no more of them, then. -/
theorem Ledger.Covers.sum_le (h : l.Covers) : ∑ id, l.processed id ≤ l.announced.length := by
  have hsub : (Finset.univ.sigma fun id => Finset.range (l.processed id)).image
      (fun x => (x.1, x.2)) ⊆ l.announced.toFinset := by
    intro x hx
    simp only [Finset.mem_image, Finset.mem_sigma, Finset.mem_univ, Finset.mem_range,
      true_and] at hx
    obtain ⟨⟨id, k⟩, hk, rfl⟩ := hx
    exact List.mem_toFinset.mpr (h id k hk)
  have hinj : Function.Injective fun x : (_ : Fin n) × Nat => (x.1, x.2) := by
    intro x y heq
    obtain ⟨hid, hk⟩ := Prod.mk.inj heq
    exact Sigma.ext hid (heq_of_eq hk)
  calc ∑ id, l.processed id
      = (Finset.univ.sigma fun id => Finset.range (l.processed id)).card := by simp
    _ = ((Finset.univ.sigma fun id => Finset.range (l.processed id)).image
          fun x => (x.1, x.2)).card := (Finset.card_image_of_injective _ hinj).symm
    _ ≤ l.announced.toFinset.card := Finset.card_le_card hsub
    _ ≤ l.announced.length := List.toFinset_card_le _

theorem Ledger.processed_next (l : Ledger n J T) (size : QueueSize w) (s : System w n J T)
    (a : Action n J T) : ∑ id, (l.next size s a).processed id =
      ∑ id, l.processed id + (s.firesProcessed a).toNat := by
  cases a with
  | call t job => rfl
  | run t =>
    have hsame : (l.next size s (.run t)).processed = l.processed := by
      simp only [Ledger.next]
      split
      · split <;> rfl
      · rfl
      · rfl
    rw [hsame]
    rfl
  | work id =>
    by_cases hp : s.threads id = .jobProcessed
    · have hsum := sum_change (f := l.processed)
        (g := Function.update l.processed id (l.processed id + 1)) id
        fun j hj => Function.update_of_ne hj ..
      rw [Function.update_self] at hsum
      simp only [Ledger.next, System.firesProcessed, hp, if_true, beq_self_eq_true,
        Bool.toNat_true]
      omega
    · have hbeq : (s.threads id == .jobProcessed) = false := by simpa using hp
      simp [Ledger.next, if_neg hp, System.firesProcessed, hbeq]

theorem Ledger.announced_next (l : Ledger n J T) (size : QueueSize w) (s : System w n J T)
    (a : Action n J T) : (l.next size s a).announced.length ≤
      l.announced.length + (s.firesRequested a).toNat := by
  cases a with
  | call t job => exact Nat.le_add_right ..
  | run t =>
    cases ht : s.callers t with
    | request job average id pc =>
      cases pc with
      | enqueue =>
        simp only [Ledger.next, ht]
        split <;> exact Nat.le_add_right ..
      | jobRequested remained =>
        have hone : (l.last t).toList.length ≤ 1 := by cases l.last t <;> simp
        simp only [Ledger.next, System.firesRequested, ht, List.length_append,
          RequestPc.announces, Bool.toNat_true]
        omega
      | _ => simp [Ledger.next, ht]
    | _ => simp [Ledger.next, ht]
  | work id =>
    simp only [Ledger.next]
    split <;> exact Nat.le_add_right ..

theorem Ledger.Counts.next (h : l.Counts tr) : (l.next size s a).Counts (tr ++ [(s, a)]) where
  processed := by rw [processed_snoc, h.processed, Ledger.processed_next]
  announced := by
    have hannounced := h.announced
    have hnext := l.announced_next size s a
    rw [requested_snoc]
    omega

/-- A job that is processed when it is announced leaves the processed jobs announced. -/
theorem Ledger.Covers.next (h : l.Covers) (ha : l.Announces s a) : (l.next size s a).Covers := by
  cases a with
  | call t job => exact h
  | run t =>
    simp only [Ledger.next]
    split
    · split <;> exact h
    · intro id k hk
      exact List.mem_append_left _ (h id k hk)
    · exact h
  | work id =>
    simp only [Ledger.next]
    split
    · rename_i hp
      intro j k hk
      by_cases hj : j = id
      · subst hj
        simp only [Function.update_self] at hk
        rcases Nat.lt_succ_iff_lt_or_eq.mp hk with hlt | rfl
        · exact h j k hlt
        · exact ha hp
      · simp only [Function.update_of_ne hj] at hk
        exact h j k hk
    · exact h

/-- In a run in which every job has its events in order. -/
theorem Ordered.covers (h : Ordered size tr) :
    (recorded (Ledger.next size) .empty tr).Covers ∧
      (recorded (Ledger.next size) .empty tr).Counts tr :=
  MeetsRecorded.invariant (I := fun tr l => l.Covers ∧ l.Counts tr)
    ⟨fun _ k hk => absurd hk (Nat.not_lt_zero k),
      by simp [Group.processed, Ledger.empty], Nat.zero_le _⟩
    (fun _ _ _ _ hi ha => ⟨hi.1.next ha, hi.2.next⟩) h

theorem Ordered.processed_le (h : Ordered size tr) : processed tr ≤ requested tr := by
  obtain ⟨hcovers, hcounts⟩ := h.covers
  rw [hcounts.processed]
  exact hcovers.sum_le.trans hcounts.announced

theorem Ordered.before {before after : List (System w n J T × Action n J T)}
    (h : Ordered size (before ++ after)) : Ordered size before := (meetsRecorded_append.mp h).1

/-- **The counter of the group.** If every job has its `job_requested` before its
`job_processed`, no more of these are ever fired than of those, and the counter is their
difference; and at rest, if the first loads were quiet, it is the sum of the workers' counts. -/
theorem counter_sound (h : Run (System.step size) System.init tr s) :
    (Ordered size tr →
      (∀ before after, tr = before ++ after → processed before ≤ requested before) ∧
        s.jobCounter = BitVec.ofNat w (requested tr - processed tr)) ∧
      (Meets System.QuietLoad tr → s.AtRest →
        requested tr = processed tr + ∑ id, (s.mems id).remained.toNat ∧
          s.jobCounter = BitVec.ofNat w (∑ id, (s.mems id).remained.toNat)) := by
  refine ⟨?_, counter_rest h⟩
  intro hordered
  constructor
  · intro before after heq
    subst heq
    exact hordered.before.processed_le
  · have hle := hordered.processed_le
    exact (tallied_run h).difference (by omega)

end

/-! ## A concrete run -/

instance [DecidableEq T] (l : Ledger n J T) (s : System w n J T) (a : Action n J T) :
    Decidable (l.Announces s a) :=
  match a with
  | .work id => inferInstanceAs (Decidable (s.threads id = .jobProcessed → _ ∈ _))
  | .call .. | .run _ => isTrue trivial

instance [DecidableEq T] (size : QueueSize w) (tr : List (System w n J T × Action n J T)) :
    Decidable (Ordered size tr) :=
  decidableMeetsRecorded ..

/-- The worker sleeps, is woken by the first request and runs its job after the request has
returned; the second job is left in the queue when it sleeps again. -/
def oneProcessed : List (Action 1 Nat Bool) :=
  List.replicate 4 (.work (Fin.last 0)) ++ .call true 7 :: List.replicate 8 (.run true) ++
    List.replicate 7 (.work (Fin.last 0)) ++ List.replicate 3 (.work (Fin.last 0)) ++
    .call true 8 :: List.replicate 8 (.run true)

theorem counter_sound_one : ∃ (tr : _) (s : System 64 1 Nat Bool),
    Run (System.step Worker.twoJobs) System.init tr s ∧ tr.map Prod.snd = oneProcessed ∧
      requested tr = 2 ∧ processed tr = 1 ∧
      (∀ before after, tr = before ++ after → processed before ≤ requested before) ∧
      s.jobCounter = 1 ∧ ∑ id, (s.mems id).remained.toNat = 1 := by
  have hrun : ∃ (tr : _) (s : System 64 1 Nat Bool),
      Run (System.step Worker.twoJobs) System.init tr s ∧ tr.map Prod.snd = oneProcessed ∧
      Ordered Worker.twoJobs tr ∧ Meets System.QuietLoad tr ∧ s.AtRest ∧ requested tr = 2 ∧
      processed tr = 1 :=
    Run.of_trace_any _ (by decide)
  obtain ⟨tr, s, h, ha, hordered, hquiet, hrest, hrequested, hprocessed⟩ := hrun
  obtain ⟨hle, hcounter⟩ := (counter_sound h).1 hordered
  obtain ⟨hsum, -⟩ := (counter_sound h).2 hquiet hrest
  rw [hrequested, hprocessed] at hcounter hsum
  exact ⟨tr, s, h, ha, hrequested, hprocessed, hle, hcounter, by omega⟩

end Vee.Group
