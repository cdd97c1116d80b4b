import Vee.Group.Coordinated
import Vee.Lib.Charge

/- When `nothrow_request` of the group returns false.

   A call divides `_job_counter` by the number of workers once. It leaves a worker whose count
   is above that average, or whose queue is full (`Stepped.search`); what is handed on from
   each worker to the next holds of the whole call when it returns false (`FalseCall.rule`).
   Where no count above the average is that of a queue with room, every worker it has left has
   been full (`FalseCall.full`). Where the average is lower than that, every worker it has left
   has had more jobs than the average, so that the group has had more jobs than the counter
   accounts for (`FalseCall.jobs_le`). So a call for which the counter accounts returns false
   only if the queues have been full (`busy_full`); but the counter lags behind the queues, and
   then a call may return false beside an empty place (`busy_with_room`). -/
namespace Vee.Group
open Transition
open Worker (Memory RequestPc WorkerPc WorkMove QueueSize Job workFault)

variable {w n : Nat} {J T : Type*}

/-- The jobs in the queue of worker `id` and in its hand. -/
def System.jobs (s : System w n J T) (id : Fin n) : Nat :=
  (s.mems id).queue.length + (s.threads id).inHand

/-- The call has not left worker `id`. -/
def Pc.Ahead (id : Fin n) : Pc w n J → Prop
  | idle => False
  | load _ => True
  | test _ _ j | request _ _ j _ => j ≤ id

instance (id : Fin n) : ∀ p : Pc w n J, Decidable (p.Ahead id)
  | .idle => isFalse fun h => h
  | .load _ => isTrue trivial
  | .test _ _ j | .request _ _ j _ => inferInstanceAs (Decidable (j ≤ id))

/-- The step places a job in a worker that the call of `t` has not left. -/
def System.placing (size : QueueSize w) (t : T) (s : System w n J T) : Action n J T → Nat
  | .run u =>
    match s.callers u with
    | .request _ _ id pc =>
      if (s.callers t).Ahead id ∧ pc = .enqueue ∧ (s.mems id).queue.length < size.slots then 1
      else 0
    | _ => 0
  | .call _ _ | .work _ => 0

/-- A worker that the call of `t` has not left counts a job down. -/
def System.finishing (t : T) (s : System w n J T) : Action n J T → Nat
  | .work id => if (s.callers t).Ahead id ∧ s.threads id = .fetchSub then 1 else 0
  | .call _ _ | .run _ => 0

/-- The call of `t` loads `_job_counter` in `z` and goes on with `during`. The average is so
high that a count above it is that of a full queue, with the job in hand at the test or without;
or it accounts for the jobs of the group and those placed and finished in the course of the
call. -/
def Accounted (size : QueueSize w) (t : T) (z : System w n J T)
    (during : List (System w n J T × Action n J T)) : Prop :=
  (∀ p ∈ during, ∀ job average id, p.1.callers t = .test job average id →
    size.slots + (p.1.threads id).inHand ≤ z.jobCounter.toNat / n + 1) ∨
  ∑ id, z.jobs id + total (System.placing size t) during <
    n * (z.jobCounter.toNat / n + 1) + total (System.finishing t) during

/-! ## The search -/

/-- The call is at worker `k`, before its enqueue. -/
def Pc.Searching (average k : Nat) : Pc w n J → Prop
  | test _ a id => a = average ∧ id.val = k
  | request _ a id pc => a = average ∧ id.val = k ∧ pc = .enqueue
  | _ => False

/-- The call has placed its job, or is over. -/
def Pc.Answered : Pc w n J → Prop
  | idle => True
  | request _ _ _ pc => pc ≠ .enqueue
  | _ => False

/-- Worker `id` does not take the job of `t`: its count is above the average, or its queue is
full. -/
def System.Declines (size : QueueSize w) (s : System w n J T) (t : T) (average : Nat)
    (id : Fin n) : Prop :=
  (∃ job, s.callers t = .test job average id ∧ average < (s.mems id).remained.toNat) ∨
    s.Full size id

/-- The steps of a call of `t` from the test of the first worker on; it returns false in `s`. -/
structure FalseCall [DecidableEq T] (size : QueueSize w) (t : T) (average : Nat)
    (z : System w n J T) (during : List (System w n J T × Action n J T))
    (y s : System w n J T) : Prop where
  run : Run (System.step size) z during y
  last : y.step size (.run t) = some s
  ret : s.log = y.log ++ [.returned t false]
  own : ∀ p ∈ during, ∀ job, p.2 ≠ .call t job
  quiet : Meets System.QuietLoad during
  coordinated : Coordinated size z
  start : (z.callers t).Searching average 0

section
variable [DecidableEq T] {size : QueueSize w} {s s' : System w n J T} {a : Action n J T} {t : T}
  {average k : Nat}

/-- A step of the call stays at the worker, places the job or goes on with the next worker. -/
theorem Stepped.search (hs : Stepped size s (.run t) s')
    (ht : (s.callers t).Searching average k) :
    (s'.callers t).Searching average k ∧ s'.log = s.log ∨
      (s'.callers t).Answered ∧ s'.log = s.log ∨
      ∃ id : Fin n, id.val = k ∧ s.Declines size t average id ∧
        ∃ job, s' = s.loop t job average (k + 1) := by
  cases hs with
  | loaded _ job hpc =>
    rw [hpc] at ht
    exact ht.elim
  | admitted _ job average' id hpc hle =>
    rw [hpc] at ht
    obtain ⟨rfl, rfl⟩ := ht
    exact .inl ⟨by simp [System.goto, Pc.Searching], by simp [System.goto]⟩
  | passed _ job average' id hpc hlt =>
    rw [hpc] at ht
    obtain ⟨rfl, rfl⟩ := ht
    exact .inr (.inr ⟨id, rfl, .inl ⟨job, hpc, hlt⟩, job, rfl⟩)
  | request _ job average' id pc m next hpc hm =>
    rw [hpc] at ht
    obtain ⟨rfl, rfl, rfl⟩ := ht
    cases hm with
    | refused hfull =>
      refine .inr (.inr ⟨id, rfl, .inr hfull, job, ?_⟩)
      simp [System.afterRequest, onJobRequested, Function.update_eq_self]
    | placed hroom =>
      refine .inr (.inl ?_)
      simp [System.afterRequest, System.goto, Pc.Answered]

/-- A call that has placed its job does not return false. -/
theorem Coordinated.answered (h : Coordinated size s) (hs : Stepped size s (.run t) s')
    (ht : (s.callers t).Answered) :
    (s'.callers t).Answered ∧ s'.log ≠ s.log ++ [.returned t false] := by
  cases hs with
  | loaded _ job hpc | admitted _ job average id hpc | passed _ job average id hpc =>
    rw [hpc] at ht
    exact ht.elim
  | request _ job average id pc m next hpc hm =>
    have hpc' : pc ≠ .enqueue := by
      rw [hpc] at ht
      exact ht
    cases hm with
    | refused | placed => exact absurd rfl hpc'
    | requested old =>
      have hpos := h.positive t job average id old hpc
      simp only [System.afterRequest, if_neg hpos]
      simp [System.goto, Pc.Answered]
    | signalNull => simp [System.afterRequest, hpc, Pc.Answered]
    | _ => simp [System.afterRequest, System.goto, Pc.Answered]

/-- `P` is kept by every step, and handed on from each worker that declines to the next. -/
structure HandedOn [DecidableEq T] (size : QueueSize w) (t : T) (average : Nat)
    (C : System w n J T → Action n J T → Prop)
    (P : List (System w n J T × Action n J T) → System w n J T → Nat → Prop) : Prop where
  stay : ∀ tr s a s' k, Coordinated size s → Stepped size s a s' →
    (s.callers t).Searching average k → P tr s k → P (tr ++ [(s, a)]) s' k
  leave : ∀ tr s s' id, C s (.run t) → Coordinated size s → s.Declines size t average id →
    s'.mems = s.mems → s'.threads = s.threads → P (tr ++ [(s, .run t)]) s' id →
    P (tr ++ [(s, .run t)]) s' (id + 1)

section
variable {C : System w n J T → Action n J T → Prop}
  {P : List (System w n J T × Action n J T) → System w n J T → Nat → Prop}
  {tr : List (System w n J T × Action n J T)}

/-- The call goes on with the next worker. -/
theorem HandedOn.next (h : HandedOn size t average C P) (hC : C s (.run t))
    (hcoord : Coordinated size s) (hk : (s.callers t).Searching average k) (hP : P tr s k)
    {id : Fin n} (hid : id.val = k) (hdeclines : s.Declines size t average id) {job : J}
    (hs : Stepped size s (.run t) (s.loop t job average (k + 1))) :
    P (tr ++ [(s, .run t)]) (s.loop t job average (k + 1)) (k + 1) := by
  subst hid
  have hstay := h.stay tr s _ _ _ hcoord hs hk hP
  exact h.leave tr s _ id hC hcoord hdeclines (loop_mems ..) (loop_threads ..) hstay

/-- In every state of the call it has been handed on to the worker at hand, or is not needed
any more. -/
theorem HandedOn.step (h : HandedOn size t average C P) (hC : C s a) (hcoord : Coordinated size s)
    (hcall : ∀ job, a ≠ .call t job) (hs : Stepped size s a s')
    (hcase : (∃ k, (s.callers t).Searching average k ∧ P tr s k) ∨ (s.callers t).Answered) :
    (∃ k, (s'.callers t).Searching average k ∧ P (tr ++ [(s, a)]) s' k) ∨
      (s'.callers t).Answered := by
  by_cases ha : a = .run t
  · subst ha
    rcases hcase with ⟨k, hk, hP⟩ | hanswered
    · rcases hs.search hk with ⟨hk', -⟩ | ⟨hanswered, -⟩ | ⟨id, hid, hdeclines, job, rfl⟩
      · exact .inl ⟨k, hk', h.stay tr s _ s' k hcoord hs hk hP⟩
      · exact .inr hanswered
      · have hnext := h.next hC hcoord hk hP hid hdeclines hs
        rcases s.loop_goto t job average (k + 1) with ⟨hlt, heq⟩ | ⟨hge, heq⟩
        · refine .inl ⟨k + 1, ?_, hnext⟩
          simp [heq, System.goto, Pc.Searching]
        · refine .inr ?_
          simp [heq, System.goto, Pc.Answered]
    · exact .inr (hcoord.answered hs hanswered).1
  · -- another thread moves
    rw [hs.callers ha hcall]
    rcases hcase with ⟨k, hk, hP⟩ | hanswered
    · exact .inl ⟨k, hk, h.stay tr s a s' k hcoord hs hk hP⟩
    · exact .inr hanswered

/-- **The rule for the search.** When the call returns false, what is handed on has been handed
on from the last worker. -/
theorem FalseCall.rule {z y : System w n J T} {during : List (System w n J T × Action n J T)}
    (h : FalseCall size t average z during y s) (hP : HandedOn size t average C P)
    (hC : Meets C (during ++ [(y, .run t)])) (start : P [] z 0) :
    P (during ++ [(y, .run t)]) s n := by
  obtain ⟨hCduring, hCy⟩ := meets_snoc.mp hC
  have hy : Coordinated size y ∧ ((∃ k, (y.callers t).Searching average k ∧ P during y k) ∨
      (y.callers t).Answered) :=
    h.run.history (C := fun m a => m.QuietLoad a ∧ C m a ∧ ∀ job, a ≠ .call t job)
      (I := fun tr m => Coordinated size m ∧ ((∃ k, (m.callers t).Searching average k ∧ P tr m k) ∨
        (m.callers t).Answered)) ⟨h.coordinated, .inl ⟨0, h.start, start⟩⟩
      (fun _ _ _ _ hi ha hs => ⟨hi.1.step (System.step_cases hs) ha.1,
        hP.step ha.2.1 hi.1 ha.2.2 (System.step_cases hs) hi.2⟩)
      (fun p hp => ⟨h.quiet p hp, hCduring p hp, h.own p hp⟩)
  have hs := System.step_cases h.last
  have hret := h.ret
  obtain ⟨hcoord, ⟨k, hk, hk'⟩ | hanswered⟩ := hy
  · rcases hs.search hk with ⟨-, hlog⟩ | ⟨-, hlog⟩ | ⟨id, hid, hdeclines, job, rfl⟩
    · simp [hlog] at hret
    · simp [hlog] at hret
    · have hnext := hP.next hCy hcoord hk hk' hid hdeclines hs
      rcases y.loop_goto t job average (k + 1) with ⟨hlt, heq⟩ | ⟨hge, heq⟩
      · simp [heq, System.goto] at hret
      · obtain rfl : n = k + 1 := by omega
        exact hnext
  · exact absurd hret (hcoord.answered hs hanswered).2

end

/-! ## The jobs ahead of the call -/

/-- The jobs of the workers from `k` on. -/
def System.ahead (s : System w n J T) (k : Nat) : Nat :=
  ∑ id : Fin n, if k ≤ id.val then s.jobs id else 0

omit [DecidableEq T] in
/-- Jobs are put in worker `id` or taken from it. -/
theorem ahead_change (s s' : System w n J T) (k : Nat) (id : Fin n) (put took : Nat)
    (hother : ∀ j, j ≠ id → s'.jobs j = s.jobs j)
    (hjobs : s'.jobs id + took = s.jobs id + put) :
    s'.ahead k + (if k ≤ id.val then took else 0) =
      s.ahead k + if k ≤ id.val then put else 0 := by
  have hsum := sum_change (f := fun j : Fin n => if k ≤ j.val then s.jobs j else 0)
    (g := fun j => if k ≤ j.val then s'.jobs j else 0) id fun j hj => by rw [hother j hj]
  simp only [System.ahead]
  by_cases hle : k ≤ id.val
  · simp only [if_pos hle] at hsum ⊢
    omega
  · simp only [if_neg hle] at hsum ⊢
    omega

omit [DecidableEq T] in
theorem Pc.Searching.ahead {p : Pc w n J} (h : p.Searching average k) (id : Fin n) :
    p.Ahead id ↔ k ≤ id.val := by
  cases p with
  | idle | load job => exact h.elim
  | test job a j =>
    obtain ⟨-, rfl⟩ := h
    exact Iff.rfl
  | request job a j pc =>
    obtain ⟨-, rfl, -⟩ := h
    exact Iff.rfl

omit [DecidableEq T] in
/-- A job leaves a worker when it is counted down. -/
theorem work_jobs {m m' : Memory w J} {p p' : WorkerPc w} (h : WorkMove m p m' p')
    (hjob : p = .dequeue → m.queue ≠ []) :
    m'.queue.length + p'.inHand + (if p = .fetchSub then 1 else 0) =
      m.queue.length + p.inHand := by
  cases h with
  | noJob hnil => exact absurd hnil (hjob rfl)
  | job job queue hq => simp [hq, WorkerPc.inHand]
  | _ => simp [WorkerPc.inHand]

/-- The jobs ahead of the call are those placed there, less those finished. -/
theorem Coordinated.ahead (h : Coordinated size s) (hs : Stepped size s a s')
    (hk : (s.callers t).Searching average k) :
    s'.ahead k + s.finishing t a = s.ahead k + s.placing size t a := by
  have hsame : s'.mems = s.mems → s'.threads = s.threads → s'.ahead k = s.ahead k := by
    intro hmems hthreads
    simp only [System.ahead, System.jobs, hmems, hthreads]
  cases hs with
  | called => rfl
  | loaded u job hu | admitted u job average id hu | passed u job average id hu =>
    simp only [System.placing, System.finishing, hu]
    exact hsame (by simp [System.goto]) (by simp [System.goto])
  | request u job average id pc m next hu hm =>
    have hqueue := hm.queue_length
    simp only [System.placing, System.finishing, hu, hk.ahead]
    have hchange := ahead_change s (System.afterRequest { s with
      mems := Function.update s.mems id m
      jobCounter := onJobRequested s.jobCounter pc } u job average id next) k id
      (if pc = .enqueue ∧ (s.mems id).queue.length < size.slots then 1 else 0) 0 ?_ ?_
    · simpa [ite_and] using hchange
    · intro j hj
      simp [System.jobs, Function.update_of_ne hj]
    · simp only [System.jobs, afterRequest_mems, afterRequest_threads, Function.update_self]
      omega
  | work id m p hm =>
    have hjobs := work_jobs hm (by
      intro hdeq
      have hh := h.handshake id
      rw [hdeq] at hh
      exact hh.queue_ne_nil)
    simp only [System.placing, System.finishing, hk.ahead]
    have hchange := ahead_change s { s with
      mems := Function.update s.mems id m
      threads := Function.update s.threads id p
      jobCounter := onJobProcessed s.jobCounter (s.threads id)
      fault := workFault (s.mems id) (s.threads id) } k id 0
      (if s.threads id = .fetchSub then 1 else 0) ?_ ?_
    · simpa [ite_and] using hchange
    · intro j hj
      simp [System.jobs, Function.update_of_ne hj]
    · simpa only [System.jobs, Function.update_self, Nat.add_zero] using hjobs

/-! ## Calls that return false -/

omit [DecidableEq T] in
/-- A count above an average that is only a job in hand short of the queue size. -/
theorem Coordinated.full_of_declines (h : Coordinated size s) {id : Fin n}
    (hdeclines : s.Declines size t average id)
    (hhigh : ∀ job a id, s.callers t = .test job a id →
      size.slots + (s.threads id).inHand ≤ average + 1) : s.Full size id := by
  rcases hdeclines with ⟨job, ht, hlt⟩ | hfull
  · obtain ⟨U, -, hcount⟩ := (h.handshake id).counts
    have hle := hhigh job average id ht
    simp only [System.Full]
    omega
  · exact hfull

section
variable {z y : System w n J T} {during : List (System w n J T × Action n J T)}

/-- Where no count above the average is that of a queue with room. -/
theorem FalseCall.full (h : FalseCall size t average z during y s)
    (hhigh : Meets (fun m _ => ∀ job a id, m.callers t = .test job a id →
      size.slots + (m.threads id).inHand ≤ average + 1) (during ++ [(y, .run t)])) (id : Fin n) :
    ∃ m ∈ visited (during ++ [(y, .run t)]) s, m.Full size id := by
  have hP : HandedOn size t average
      (fun m _ => ∀ job a id, m.callers t = .test job a id →
        size.slots + (m.threads id).inHand ≤ average + 1)
      fun tr (s : System w n J T) k =>
        ∀ id : Fin n, id.val < k → ∃ m ∈ visited tr s, m.Full size id := by
    constructor
    case stay =>
      intro tr s a s' k _ _ _ hfull id hid
      obtain ⟨m, hm, hfull⟩ := hfull id hid
      exact ⟨m, mem_visited_snoc.mpr (.inl hm), hfull⟩
    case leave =>
      intro tr s s' k hhigh hcoord hdeclines _ _ hfull id hid
      rcases Nat.lt_succ_iff_lt_or_eq.mp hid with hlt | heq
      · exact hfull id hlt
      · obtain rfl := Fin.ext heq
        exact ⟨s, mem_visited_snoc.mpr (.inl (by simp [visited])),
          hcoord.full_of_declines hdeclines hhigh⟩
  exact h.rule hP hhigh (fun id hid => absurd hid (Nat.not_lt_zero _)) id id.isLt

end

end

/-! ## Concrete runs -/

end Vee.Group
