import Vee.Group.System
import Vee.Worker.Handshake

/- The handshake of the group's callers with its workers.

   Every worker of the group keeps the handshake with the callers that are in its
   `nothrow_request` (`Coordinated`), so one that answers 0 has refused the job, its
   queue being full. Between two workers a caller is in the loop of the group, and no
   handshake takes notice of it (`Coordinated.aside`). -/
namespace Vee.Group
open Transition
open Lockfree (Next)
open Worker (Memory RequestPc RequestResult RequestMove WorkerPc WorkMove QueueSize Job Handshake
  Pending)

variable {w n : Nat} {J T : Type*}

/-- Where the caller is in `nothrow_request` of worker `id`. -/
def Pc.requesting (id : Fin n) : Pc w n J → Option (RequestPc w)
  | request _ _ id' pc => if id' = id then some pc else none
  | _ => none

def System.requests (s : System w n J T) (id : Fin n) (t : T) : Option (RequestPc w) :=
  (s.callers t).requesting id

/-- If the step is a worker's first load of `_remained`, no caller of it is pending. -/
def System.QuietLoad (s : System w n J T) : Action n J T → Prop
  | .work id => s.threads id = .load → ∀ t, ¬ Pending (s.requests id t)
  | _ => True

/-- Every worker keeps the handshake with its callers. -/
structure Coordinated (size : QueueSize w) (s : System w n J T) : Prop where
  handshake : ∀ id, Handshake size (s.mems id) (s.threads id) (s.requests id)
  positive : ∀ t job average id old,
    s.callers t = .request job average id (.jobRequested old) → old + 1 ≠ 0

section
variable [DecidableEq T] {size : QueueSize w} {s s' : System w n J T} {a : Action n J T} {t : T}

theorem requests_goto (s : System w n J T) (t : T) (p : Pc w n J) (new : List (Event J T))
    (id : Fin n) :
    (s.goto t p new).requests id = Function.update (s.requests id) t (p.requesting id) := by
  funext u
  by_cases hu : u = t
  · simp [System.requests, System.goto, hu]
  · simp [System.requests, System.goto, hu]

/-- A step of a caller that is in no worker before it, and in none past its entry after it. -/
theorem Coordinated.aside (h : Coordinated size s) {p : Pc w n J} (new : List (Event J T))
    (hs : ∀ id, (s.callers t).requesting id = none)
    (hp : ∀ id pc, p.requesting id = some pc → pc = .enqueue) :
    Coordinated size (s.goto t p new) where
  handshake id := by
    have hcs : s.requests id t = none := hs id
    have hpc := hp id
    rw [requests_goto]
    generalize p.requesting id = c at hpc
    apply (h.handshake id).stay
    · cases c with
      | none => rw [hcs]
      | some pc =>
        rw [hcs, hpc pc rfl]
        exact Iff.rfl
    · rw [hcs]
      simp
    · intro heq
      subst heq
      cases hpc _ rfl
    · intro heq
      subst heq
      cases hpc _ rfl
  positive u job average id old hu := by
    by_cases hut : u = t
    · simp only [System.goto, hut, Function.update_self] at hu
      have hpc := hp id (.jobRequested old) (by rw [hu]; simp [Pc.requesting])
      cases hpc
    · exact h.positive u job average id old (by simpa [System.goto, hut] using hu)

/-- The loop asks no worker before it tests its count. -/
theorem Coordinated.loop (h : Coordinated size s) (job : J) (average id : Nat)
    (hs : ∀ id, (s.callers t).requesting id = none) :
    Coordinated size (s.loop t job average id) := by
  rcases s.loop_goto t job average id with ⟨hid, heq⟩ | ⟨hid, heq⟩
  · rw [heq]
    exact h.aside [] hs (by simp [Pc.requesting])
  · rw [heq]
    exact h.aside _ hs (by simp [Pc.requesting])

/-- Where a step of a worker's `nothrow_request` leaves the caller. -/
theorem afterRequest_goto (s : System w n J T) (t : T) (job : J) (average : Nat) (id : Fin n)
    {next : Next (RequestPc w) (RequestResult w)} (hnext : next ≠ .returned .nullPromise) :
    ∃ p new, s.afterRequest t job average id next = s.goto t p new ∧
      p.requesting id = RequestPc.after next ∧ (∀ j, j ≠ id → p.requesting j = none) := by
  cases next with
  | goto pc =>
    refine ⟨_, _, rfl, by simp [Pc.requesting, RequestPc.after], ?_⟩
    intro j hj
    simp [Pc.requesting, hj.symm]
  | returned result =>
    cases result with
    | count c =>
      simp only [System.afterRequest]
      split
      · rcases s.loop_goto t job average (id + 1) with ⟨hid, heq⟩ | ⟨hid, heq⟩
        · exact ⟨_, _, heq, rfl, fun _ _ => rfl⟩
        · exact ⟨_, _, heq, rfl, fun _ _ => rfl⟩
      · exact ⟨_, _, rfl, rfl, fun _ _ => rfl⟩
    | promiseSatisfied => exact ⟨_, _, rfl, rfl, fun _ _ => rfl⟩
    | nullPromise => exact absurd rfl hnext

/-- A step of a worker's `nothrow_request`. -/
theorem Coordinated.request (h : Coordinated size s) {job : J} {average : Nat} {id : Fin n}
    {pc : RequestPc w} {m : Memory w J} {next : Next (RequestPc w) (RequestResult w)}
    (ht : s.callers t = .request job average id pc)
    (hm : RequestMove size (.task job) (s.mems id) pc m next) :
    Coordinated size ({ s with
      mems := Function.update s.mems id m
      jobCounter := onJobRequested s.jobCounter pc }.afterRequest t job average id next) := by
  have hcs : s.requests id t = some pc := by simp [System.requests, ht, Pc.requesting]
  have hother : ∀ j, j ≠ id → s.requests j t = none := by
    intro j hj
    simp [System.requests, ht, Pc.requesting, hj.symm]
  have hnext : next ≠ .returned .nullPromise := by
    intro heq
    subst heq
    obtain ⟨count, hcount⟩ := (h.handshake id).result hcs hm
    cases hcount
  -- the caller is in no other worker, before the step or after it
  obtain ⟨p, new, heq, hp, hpother⟩ := afterRequest_goto { s with
    mems := Function.update s.mems id m
    jobCounter := onJobRequested s.jobCounter pc } t job average id hnext
  rw [heq]
  refine ⟨?_, ?_⟩
  · intro j
    rw [requests_goto]
    show Handshake size (Function.update s.mems id m j) (s.threads j)
      (Function.update (s.requests j) t (p.requesting j))
    by_cases hj : j = id
    · subst hj
      rw [Function.update_self, hp]
      exact (h.handshake j).request hcs hm
    · rw [Function.update_of_ne hj, hpother j hj, ← hother j hj, Function.update_eq_self]
      exact h.handshake j
  · intro u job' average' j old hu
    by_cases hut : u = t
    · simp only [System.goto, hut, Function.update_self] at hu
      have hpc : p.requesting j = some (.jobRequested old) := by rw [hu]; simp [Pc.requesting]
      obtain rfl : j = id := by
        by_contra hj
        rw [hpother j hj] at hpc
        cases hpc
      rw [hp] at hpc
      cases next with
      | goto pc' =>
        obtain rfl : pc' = .jobRequested old := Option.some.inj hpc
        exact (h.handshake j).positive hcs hm
      | returned result => cases hpc
    · exact h.positive u job' average' j old (by simpa [System.goto, hut] using hu)

theorem Coordinated.step (h : Coordinated size s) (hs : Stepped size s a s')
    (hquiet : s.QuietLoad a) : Coordinated size s' := by
  cases hs with
  | called t job ht => exact h.aside _ (by simp [ht, Pc.requesting]) (by simp [Pc.requesting])
  | loaded t job ht => exact h.loop job _ 0 (by simp [ht, Pc.requesting])
  | admitted t job average id ht hle =>
    refine h.aside [] (by simp [ht, Pc.requesting]) ?_
    intro j pc hpc
    simp only [Pc.requesting] at hpc
    split at hpc
    · exact (Option.some.inj hpc).symm
    · cases hpc
  | passed t job average id ht hlt => exact h.loop job _ _ (by simp [ht, Pc.requesting])
  | request t job average id pc m next ht hm => exact h.request ht hm
  | work id m p hm =>
    refine ⟨?_, h.positive⟩
    intro j
    show Handshake size (Function.update s.mems id m j) (Function.update s.threads id p j)
      (s.requests j)
    by_cases hj : j = id
    · subst hj
      rw [Function.update_self, Function.update_self]
      exact (h.handshake j).work hm hquiet
    · rw [Function.update_of_ne hj, Function.update_of_ne hj]
      exact h.handshake j

omit [DecidableEq T] in
theorem coordinated_init : Coordinated size (System.init : System w n J T) where
  handshake id := by
    constructor
    case counts => exact ⟨∅, by simp [System.init, System.requests, Pc.requesting], by
      simp [System.init, Memory.init, WorkerPc.inHand]⟩
    all_goals simp [System.init, Memory.init, System.requests, Pc.requesting, Pending,
      WorkerPc.slept, WorkerPc.Awake, WorkerPc.Asleep, WorkerPc.InMain]
  positive t job average id old ht := by simp [System.init] at ht

theorem coordinated_run {tr : List (System w n J T × Action n J T)}
    (h : Run (System.step size) System.init tr s) (hquiet : Meets System.QuietLoad tr) :
    Coordinated size s :=
  h.invariant coordinated_init (fun _ _ _ hi ha hs => hi.step (System.step_cases hs) ha) hquiet

/-! ## The steps of others -/

theorem loop_callers (s : System w n J T) {u : T} (hu : t ≠ u) (job : J) (average id : Nat) :
    (s.loop u job average id).callers t = s.callers t := by
  rcases s.loop_goto u job average id with ⟨hid, heq⟩ | ⟨hid, heq⟩ <;>
    simp [heq, System.goto, Function.update_of_ne hu]

/-- The steps of others leave a caller where it is. -/
theorem Stepped.callers (hs : Stepped size s a s') (ha : a ≠ .run t)
    (hcall : ∀ job, a ≠ .call t job) : s'.callers t = s.callers t := by
  cases hs with
  | called u job =>
    have hu : t ≠ u := fun heq => hcall job (by rw [heq])
    simp [System.goto, Function.update_of_ne hu]
  | loaded u job =>
    have hu : t ≠ u := fun heq => ha (by rw [heq])
    exact loop_callers s hu job _ 0
  | admitted u job average id =>
    have hu : t ≠ u := fun heq => ha (by rw [heq])
    simp [System.goto, Function.update_of_ne hu]
  | passed u job average id =>
    have hu : t ≠ u := fun heq => ha (by rw [heq])
    exact loop_callers s hu job average _
  | request u job average id pc m next =>
    have hu : t ≠ u := fun heq => ha (by rw [heq])
    simp only [System.afterRequest]
    split
    · simp [System.goto, Function.update_of_ne hu]
    · split
      · exact loop_callers _ hu job average _
      · simp [System.goto, Function.update_of_ne hu]
    · simp [System.goto, Function.update_of_ne hu]
    · rfl
  | work => rfl

end

/-- The queue of worker `id` is full. -/
def System.Full (size : QueueSize w) (s : System w n J T) (id : Fin n) : Prop :=
  size.slots ≤ (s.mems id).queue.length

instance [Fintype T] (s : System w n J T) : ∀ a, Decidable (s.QuietLoad a)
  | .work id =>
    inferInstanceAs (Decidable (s.threads id = .load → ∀ t, ¬ Pending (s.requests id t)))
  | .call .. | .run _ => isTrue trivial

instance (size : QueueSize w) (s : System w n J T) (id : Fin n) : Decidable (s.Full size id) :=
  inferInstanceAs (Decidable (size.slots ≤ (s.mems id).queue.length))

/-- A queue of one job. -/
def oneJob : QueueSize 64 := ⟨1, by decide, by decide⟩

end Vee.Group
