import Vee.Worker.Requests

/- What becomes of the jobs of a worker over starts and shutdowns.

   A job is in the queue, in the hands of the thread that has dequeued it, or run, and the
   three together are the jobs placed, in the order they were placed (`InOrder`). This holds
   in every run: callers may start and shut down the worker at any time, and a thread that
   is told to stop leaves the jobs behind it in the queue. It needs no more than that one
   thread at a time is in `_worker_main` (`SingleRunner`), since a second one would share
   `_current_job` with it. -/
namespace Vee.Worker
open Transition
open Lockfree (Next)

variable {w : Nat} {J T : Type*}

/-- The job that a thread has dequeued and not run yet, if there is one. -/
def System.InHand (s : System w J T) (hand : List (Job J)) : Prop :=
  (∃ k, s.threads k = .run ∧ hand = s.mem.currentJob.toList) ∨
    (∀ k, s.threads k ≠ .run) ∧ hand = []

/-- The jobs placed are those run, the one in hand and those in the queue, in this order. -/
def System.InOrder (s : System w J T) : Prop :=
  ∃ hand, s.InHand hand ∧ placedJobs s.log = ranJobs s.log ++ hand ++ s.mem.queue

section
variable {s s' : System w J T} {hand : List (Job J)}

theorem System.InHand.length_le (h : s.InHand hand) : hand.length ≤ 1 := by
  rcases h with ⟨k, -, rfl⟩ | ⟨-, rfl⟩
  · cases s.mem.currentJob <;> simp
  · simp

/-- The hands are those of the thread in `_worker_main`. -/
theorem System.InHand.taken (h : s.InHand hand) (hrunner : SingleRunner s) {k : Nat}
    (hk : (s.threads k).InMain) : hand = (s.threads k).taken s.mem := by
  rcases h with ⟨j, hj, rfl⟩ | ⟨hnone, rfl⟩
  · obtain rfl := hrunner.main j k (by rw [hj]; trivial) hk
    rw [hj]
    rfl
  · have hne := hnone k
    generalize s.threads k = p at hne
    cases p with
    | run => exact absurd rfl hne
    | _ => rfl

/-- And where no other thread is at its job, the hands are those of thread `k`. -/
theorem inHand_taken {k : Nat} (honly : ∀ j, s.threads j = .run → j = k) :
    s.InHand ((s.threads k).taken s.mem) := by
  by_cases hk : s.threads k = .run
  · refine .inl ⟨k, hk, ?_⟩
    rw [hk]
    rfl
  · refine .inr ⟨?_, ?_⟩
    · intro j hj
      obtain rfl := honly j hj
      exact hk hj
    · generalize s.threads k = p at hk
      cases p with
      | run => exact absurd rfl hk
      | _ => rfl

/-- A step of a caller, which places the jobs of its events. -/
theorem System.InOrder.caller (h : s.InOrder) (new : List (Event w J T)) {t : T}
    (hthreads : s'.threads = s.threads) (hlog : s'.log = s.log ++ new)
    (hnew : ∀ e ∈ new, e.caller = some t) (hjob : s'.mem.currentJob = s.mem.currentJob)
    (hqueue : s'.mem.queue = s.mem.queue ++ placedJobs new) : s'.InOrder := by
  obtain ⟨hand, hhand, horder⟩ := h
  have hran : ranJobs new = [] := by
    refine List.filterMap_eq_nil_iff.mpr fun e he => ?_
    have hcaller := hnew e he
    cases e <;> simp_all [Event.caller]
  refine ⟨hand, ?_, ?_⟩
  · simpa [InHand, hthreads, hjob] using hhand
  · rw [hlog, placedJobs_append, ranJobs_append, hran, hqueue, horder]
    simp

/-- A step of the thread in `_worker_main`: a job moves from the queue into its hands, and
from there to the jobs run. -/
theorem System.InOrder.work (h : s.InOrder) (hrunner : SingleRunner s) {k : Nat} {m : Memory w J}
    {p : WorkerPc w} (hm : WorkMove s.mem (s.threads k) m p) (hmem : s'.mem = m)
    (hthreads : s'.threads = Function.update s.threads k p)
    (hlog : s'.log = s.log ++ ranEvents s.mem (s.threads k)) : s'.InOrder := by
  obtain ⟨hand, hhand, horder⟩ := h
  have hk := hm.inMain
  have hself : s'.threads k = p := by rw [hthreads, Function.update_self]
  obtain rfl := hhand.taken hrunner hk
  have honly : ∀ j, s'.threads j = .run → j = k := by
    intro j hj
    by_contra hjk
    rw [hthreads, Function.update_of_ne hjk] at hj
    exact hjk (hrunner.main j k (by rw [hj]; trivial) hk)
  refine ⟨_, inHand_taken honly, ?_⟩
  rw [hself, hlog, hmem]
  have hjob := hrunner.job k
  generalize s.threads k = pc at hm hjob horder
  cases hm <;> simp_all [placedJobs_append, ranJobs_append, ranEvents, WorkerPc.taken]

/-- A thread that is launched has no job yet. -/
theorem System.InOrder.launch (h : s.InOrder) (hrunner : SingleRunner s)
    (hthreads : s'.threads = Function.update s.threads s.launched .load) (hmem : s'.mem = s.mem)
    (hlog : s'.log = s.log) : s'.InOrder := by
  obtain ⟨hand, hhand, horder⟩ := h
  have hunborn := hrunner.unborn s.launched (Nat.le_refl _)
  have hsame : ∀ k, s'.threads k = .run ↔ s.threads k = .run := by
    intro k
    by_cases hk : k = s.launched
    · simp [hthreads, hk, hunborn]
    · rw [hthreads, Function.update_of_ne hk]
  refine ⟨hand, ?_, by rw [hlog, hmem, horder]⟩
  simpa only [InHand, ne_eq, hsame, hmem] using hhand

variable [DecidableEq T] {size : QueueSize w} {a : Action J T}

theorem System.InOrder.step (h : s.InOrder) (hrunner : SingleRunner s)
    (hs : Stepped size s a s') : s'.InOrder := by
  cases hs with
  | call t call ht =>
    exact h.caller (t := t) [.called t call] rfl rfl (by simp [Event.caller]) rfl
      (by simp [System.goto, placedJobs])
  | request t who pc pc' m ht hm =>
    exact h.caller _ rfl rfl (fun e he => placedEvents_caller he) hm.currentJob (hm.balance t).1
  | answered t who pc m count ht hm =>
    have hqueue : m.queue = s.mem.queue := by cases hm <;> rfl
    cases who with
    | user job throwing =>
      obtain ⟨r, heq, -, -⟩ := answer_user { s with mem := m } t count job throwing
      rw [heq]
      exact h.caller (t := t) [.returned t (.request job throwing) r] rfl rfl
        (by simp [Event.caller]) hm.currentJob (by simp [System.goto, placedJobs, hqueue])
    | shutdown sync =>
      simp only [answer]
      split
      · exact h.caller (t := t) [.returned t (.shutdown sync) (.threw .workerIsBusy)] rfl rfl
          (by simp [Event.caller]) hm.currentJob (by simp [System.goto, placedJobs, hqueue])
      · exact h.caller (t := t) [] rfl rfl (by simp) hm.currentJob
          (by simp [System.goto, placedJobs, hqueue])
  | satisfied t who pc m ht hm =>
    have hqueue : m.queue = s.mem.queue := by cases hm; rfl
    exact h.caller (t := t) [.returned t who.call (.threw .promiseSatisfied)] rfl rfl
      (by simp [Event.caller]) hm.currentJob (by simp [System.goto, placedJobs, hqueue])
  | nullPromise t who pc m ht hm =>
    have hqueue : m.queue = s.mem.queue := by cases hm; rfl
    exact h.caller (t := t) [] rfl (by simp) (by simp) hm.currentJob (by simp [placedJobs, hqueue])
  | joinableThread t k ht =>
    exact h.caller (t := t) [] rfl (by simp) (by simp) rfl (by simp [placedJobs])
  | launch t ht => exact h.launch hrunner rfl rfl (by simp [goto])
  | work k m p hm => exact h.work hrunner hm rfl rfl rfl
  | started t ht | stopped t sync ht | wake t sync ht | noWake t sync ht
  | tail t sync pc pc' thr ht =>
    exact h.caller (t := t) [] rfl (by simp [System.goto]) (by simp) rfl
      (by simp [System.goto, placedJobs])
  | notStarted t ht | assign t k ht | notStopped t sync ht | tailEnd t sync pc thr result ht =>
    exact h.caller (t := t) _ rfl rfl (by simp [Event.caller]) rfl
      (by simp [System.goto, placedJobs])

/-- **Jobs are run in the order they were placed, none of them twice, and none is dropped.** In
every run, whatever is started and shut down when, the jobs placed are those run, at most one
that a thread is about to run, and those in the queue. -/
theorem runs_in_order {tr : List (System w J T × Action J T)}
    (h : Run (System.step size) System.init tr s) :
    ∃ hand, s.InHand hand ∧ hand.length ≤ 1 ∧
      placedJobs s.log = ranJobs s.log ++ hand ++ s.mem.queue := by
  have hinv := h.invariant (C := fun _ _ => True) (I := fun s => SingleRunner s ∧ s.InOrder)
    ⟨singleRunner_init, [], .inr ⟨by simp [System.init], rfl⟩, rfl⟩
    (fun _ _ _ hi _ hs =>
      ⟨hi.1.step (System.step_cases hs).2, hi.2.step hi.1 (System.step_cases hs).2⟩)
    (fun _ _ => trivial)
  obtain ⟨-, hand, hhand, horder⟩ := hinv
  exact ⟨hand, hhand, hhand.length_le, horder⟩

end

/-- Two jobs are placed and the worker is shut down at the first of them; the thread of the
second `start` has the other one in its hands. -/
def leftBehind : List (Action Nat Bool) :=
  calls false (.request 7 false) 4 ++ calls false (.request 8 false) 3 ++ calls false .start 3 ++
    works 0 2 ++ calls true (.shutdown false) 4 ++ works 0 7 ++ calls false .start 3 ++ works 1 3

theorem runs_in_order_restarted : ∃ (tr : _) (s : System 64 Nat Bool),
    Run (System.step twoJobs) System.init tr s ∧ tr.map Prod.snd = leftBehind ∧
      (ranJobs s.log = [.task 7] ∧ s.threads 0 = .exited ∧ s.threads 1 = .run) ∧
      ∃ hand, s.InHand hand ∧ hand.length ≤ 1 ∧
        placedJobs s.log = ranJobs s.log ++ hand ++ s.mem.queue := by
  have hrun : ∃ (tr : _) (s : System 64 Nat Bool), Run (System.step twoJobs) System.init tr s ∧
      tr.map Prod.snd = leftBehind ∧
      (ranJobs s.log = [.task 7] ∧ s.threads 0 = .exited ∧ s.threads 1 = .run) :=
    Run.of_exec_any _ (by decide)
  obtain ⟨tr, s, hr, ha, hs⟩ := hrun
  exact ⟨tr, s, hr, ha, hs, runs_in_order hr⟩

end Vee.Worker
