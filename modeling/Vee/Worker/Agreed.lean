import Vee.Lib.Census
import Vee.Worker.Serving
import Vee.Worker.Shutdown

/- The handshake of a worker that is shut down.

   The callers still agree with its thread while it is in its main loop, as if the
   worker were running. Once the thread has left the loop they are as with a worker
   that has no thread yet, but for the state: no promise is made, no job is taken, and
   the jobs placed from then on stay in the queue (`Agreed`). -/
namespace Vee.Worker
open Counting
open Lockfree (Next)

variable {w : Nat} {J T : Type*}

/-- What the callers notice of the thread: past its main loop it makes no promise and
takes no job, like one that is not started. -/
def WorkerPc.heard : WorkerPc w → WorkerPc w
  | finalExchange | exited | threw => unborn
  | p => p

/-- The handshake but for the state, of which the callers read only whether it is standby. -/
def Agreed (size : QueueSize w) (m : Memory w J) (p : WorkerPc w)
    (cs : T → Option (RequestPc w)) : Prop :=
  ∃ st, (st = .standby ↔ m.state = .standby) ∧ Handshake size { m with state := st } p.heard cs

section
variable {size : QueueSize w} {m m' : Memory w J} {p p' : WorkerPc w}
  {cs : T → Option (RequestPc w)} {job : Job J}

theorem WorkerPc.heard_over (h : p.Over) : p.heard = .unborn := by
  cases p <;> trivial

theorem WorkerPc.heard_of_not_over (h : ¬ p.Over) : p.heard = p := by
  cases p <;> first | rfl | exact absurd trivial h

theorem WorkerPc.inHand_heard (p : WorkerPc w) : p.heard.inHand = p.inHand := by
  cases p <;> rfl

theorem Handshake.agreed (h : Handshake size m p cs) : Agreed size m p cs := by
  have hover : ¬ p.Over := by
    intro ho
    rcases h.here with rfl | ⟨hmain, hne⟩
    · exact ho
    · exact hne (WorkerPc.over_of_inMain hmain ho)
  refine ⟨m.state, Iff.rfl, ?_⟩
  rw [WorkerPc.heard_of_not_over hover]
  exact h

/-- The callers read of the state whether it is standby and nothing else. -/
theorem RequestMove.withState {pc : RequestPc w} {next : Next (RequestPc w) (RequestResult w)}
    (h : RequestMove size job m pc m' next) {st : State}
    (hst : st = .standby ↔ m.state = .standby) :
    RequestMove size job { m with state := st } pc { m' with state := st } next := by
  cases h with
  | refused hfull => exact .refused hfull
  | placed hroom => exact .placed hroom
  | first hz => exact .first hz
  | counted hnz => exact .counted hnz
  | awake hne => exact .awake fun heq => hne (hst.mp heq)
  | standby heq => exact .standby (hst.mpr heq)
  | spin hp => exact .spin hp
  | ready q hp => exact .ready q hp
  | signal q hp hset => exact .signal q hp hset
  | signalAgain q hp hset => exact .signalAgain q hp hset
  | signalNull hp => exact .signalNull hp
  | requested old => exact .requested old

/-- A thread that stays in its main loop would do the same in a running worker. -/
theorem WorkMove.running (h : WorkMove m p m' p') (hover : ¬ p'.Over) :
    WorkMove { m with state := .running } p { m' with state := .running } p' := by
  cases h with
  | load => exact .load
  | idle r hrun hr => exact .idle r rfl hr
  | busy r hrun hr => exact .busy r rfl hr
  | makePromise => exact .makePromise
  | sleep q => exact .sleep q
  | wake q hset => exact .wake q hset
  | resetPromise q => exact .resetPromise q
  | noJob hq => exact .noJob hq
  | job j queue hq => exact .job j queue hq
  | run => exact .run
  | reset => exact .reset
  | jobProcessed => exact .jobProcessed
  | fetchSub => exact .fetchSub
  | leave | finish | unexpected => exact absurd trivial hover

/-- The thread leaves its main loop. -/
theorem Handshake.leave {r : BitVec w} (h : Handshake size m (.test r) cs) :
    Handshake size m .unborn cs where
  running hne := absurd rfl hne
  here := .inl rfl
  promise := h.promise
  made _ hq := by cases hq
  fresh := h.fresh
  room := h.room
  counts := h.counts
  pending_one := h.pending_one
  pending_counted := h.pending_counted
  signaller := h.signaller
  awake ha := ha.elim
  asleep ha := ha.elim

/-- **Steps of `_worker_main`**, the last ones included. -/
theorem Agreed.work (h : Agreed size m p cs) (hm : WorkMove m p m' p')
    (hload : p = .load → ∀ t, ¬ Pending (cs t)) : Agreed size m' p' cs := by
  obtain ⟨st, hst, hh⟩ := h
  by_cases hover : p'.Over
  -- the thread leaves its loop, or has left it
  · refine ⟨m'.state, Iff.rfl, ?_⟩
    rw [WorkerPc.heard_over hover]
    cases hm with
    | leave r hne => exact hh.leave.start m.state
    | finish hs | unexpected hs => exact Handshake.start hh _
    | _ => exact hover.elim
  · have hmain := hm.inMain
    have hp : ¬ p.Over := by
      intro ho
      rw [WorkerPc.over_of_inMain hmain ho] at hm
      cases hm <;> exact hover trivial
    rw [WorkerPc.heard_of_not_over hp] at hh
    have hborn : p ≠ .unborn := by
      intro heq
      rw [heq] at hmain
      exact hmain
    obtain rfl : st = .running := hh.running hborn
    refine ⟨.running, ?_, ?_⟩
    · rcases hm.state with ⟨-, heq⟩ | ⟨heq, -⟩ | ⟨heq, -⟩
      · rw [heq]
        exact hst
      · exact absurd (heq ▸ trivial) hp
      · exact absurd (heq ▸ trivial) hp
    · rw [WorkerPc.heard_of_not_over hover]
      exact hh.work (hm.running hover) hload

/-- The worker is told to stop. -/
theorem Agreed.stop (h : Agreed size m p cs) (hrun : m.state = .running) :
    Agreed size { m with state := .shutdown } p cs := by
  obtain ⟨st, hst, hh⟩ := h
  refine ⟨st, ?_, hh⟩
  rw [hst, hrun]
  simp

/-- The handle of the thread takes no part in it. -/
theorem Agreed.assign (h : Agreed size m p cs) (thr : Option Nat) :
    Agreed size { m with thr := thr } p cs := by
  obtain ⟨st, hst, hh⟩ := h
  exact ⟨st, hst, hh.assign thr⟩

theorem Agreed.result (h : Agreed size m p cs) {t : T} {pc : RequestPc w} {r : RequestResult w}
    (ht : cs t = some pc) (hm : RequestMove size job m pc m' (.returned r)) :
    ∃ count, r = .count count := by
  obtain ⟨st, hst, hh⟩ := h
  exact hh.result ht (hm.withState hst)

theorem Agreed.positive (h : Agreed size m p cs) {t : T} {pc : RequestPc w} {old : BitVec w}
    (ht : cs t = some pc) (hm : RequestMove size job m pc m' (.goto (.jobRequested old))) :
    old + 1 ≠ 0 := by
  obtain ⟨st, hst, hh⟩ := h
  exact hh.positive ht (hm.withState hst)

/-- The jobs in the queue and in hand are those counted and those placed and not counted. -/
theorem Agreed.counts (h : Agreed size m p cs) :
    ∃ U, Census (· = some .fetchAdd) cs U ∧
      m.remained.toNat + U.card = m.queue.length + p.inHand := by
  obtain ⟨st, -, hh⟩ := h
  obtain ⟨U, hU, hcount⟩ := hh.counts
  rw [p.inHand_heard] at hcount
  exact ⟨U, hU, hcount⟩

/-- The queue has a free place if the count and the jobs not counted leave one. -/
theorem Agreed.room_iff (h : Agreed size m p cs) :
    (∃ U, Census (· = some .fetchAdd) cs U ∧
      m.remained.toNat + U.card < size.slots + p.inHand) ↔ m.queue.length < size.slots := by
  obtain ⟨U, hU, hcount⟩ := h.counts
  refine ⟨?_, ?_⟩
  · intro hroom
    obtain ⟨V, hV, hlt⟩ := hroom
    obtain rfl : U = V := Finset.ext fun t => (hU t).trans (hV t).symm
    omega
  · intro hlt
    exact ⟨U, hU, by omega⟩

variable [DecidableEq T]

/-- A caller in no request stays out of it or starts one. -/
theorem Agreed.aside (h : Agreed size m p cs) {t : T} {c : Option (RequestPc w)}
    (ht : cs t = none) (hc : c = none ∨ c = some .enqueue) :
    Agreed size m p (Function.update cs t c) := by
  obtain ⟨st, hst, hh⟩ := h
  refine ⟨st, hst, ?_⟩
  apply hh.stay <;> rcases hc with rfl | rfl <;> simp [ht, Pending]

/-- **Steps of `nothrow_request`**. -/
theorem Agreed.request (h : Agreed size m p cs) {t : T} {pc : RequestPc w}
    {next : Next (RequestPc w) (RequestResult w)} (ht : cs t = some pc)
    (hm : RequestMove size job m pc m' next) :
    Agreed size m' p (Function.update cs t (RequestPc.after next)) := by
  obtain ⟨st, hst, hh⟩ := h
  refine ⟨st, ?_, hh.request ht (hm.withState hst)⟩
  rw [hm.state]
  exact hst

end

end Vee.Worker
