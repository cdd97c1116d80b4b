import Mathlib.Data.List.Nodup
import Mathlib.Data.List.Perm.Basic

/- Asynchronous requests, and where each of them is.

   A request waits until what it asks for has come to its end. Its handler is then ready, with
   an outcome, is called once, and is done when it returns. Whatever is started, completed and
   called in whatever order, each request that was started is in one of these places, once,
   with the outcome it was given (`Accounted`); and what only requests that are not done
   hold, one each, is held by one of them alone (`Exclusive`). -/
namespace Proactor

/-- The requests by where they are, and two histories: the requests that were started, and the
outcomes that were given. -/
structure Queues (R A : Type*) where
  waiting : List R
  ready : List (R × A)
  called : List (R × A)
  done : List (R × A)
  started : List R
  outcomes : List (R × A)
  deriving DecidableEq, Repr

namespace Queues

variable {R A B : Type*}

/-- No requests. -/
def empty : Queues R A :=
  { waiting := [], ready := [], called := [], done := [], started := [], outcomes := [] }

/-- A request is started. -/
def start (q : Queues R A) (r : R) : Queues R A :=
  { q with waiting := q.waiting ++ [r], started := q.started ++ [r] }

/-- A request is refused: its handler is ready at once. -/
def refuse (q : Queues R A) (r : R) (a : A) : Queues R A :=
  { q with
    ready := q.ready ++ [(r, a)]
    started := q.started ++ [r]
    outcomes := q.outcomes ++ [(r, a)] }

/-- The request `r` at `k` comes to its end. -/
def complete (q : Queues R A) (k : Nat) (r : R) (a : A) : Queues R A :=
  { q with
    waiting := q.waiting.eraseIdx k
    ready := q.ready ++ [(r, a)]
    outcomes := q.outcomes ++ [(r, a)] }

/-- All requests that meet `p` come to their end. -/
def abort (q : Queues R A) (p : R → Bool) (a : A) : Queues R A :=
  { q with
    waiting := q.waiting.filter fun r => !p r
    ready := q.ready ++ (q.waiting.filter p).map (·, a)
    outcomes := q.outcomes ++ (q.waiting.filter p).map (·, a) }

/-- The handler at `k` is called, `e` being its request and outcome. -/
def call (q : Queues R A) (k : Nat) (e : R × A) : Queues R A :=
  { q with ready := q.ready.eraseIdx k, called := q.called ++ [e] }

/-- The call at `k` returns. -/
def finish (q : Queues R A) (k : Nat) (e : R × A) : Queues R A :=
  { q with called := q.called.eraseIdx k, done := q.done ++ [e] }

/-- The requests that have come to their end. -/
def ended (q : Queues R A) : List (R × A) := q.ready ++ (q.called ++ q.done)

/-- The requests that are not done. -/
def live (q : Queues R A) : List R := q.waiting ++ (q.ready ++ q.called).map Prod.fst

/-- Each request is in one place, and has the outcome it was given. -/
structure Accounted (q : Queues R A) : Prop where
  started : q.started.Perm (q.waiting ++ q.ended.map Prod.fst)
  outcomes : q.outcomes.Perm q.ended

/-- No two requests that are not done hold the same. -/
def Exclusive (hold : R → B) (q : Queues R A) : Prop := (q.live.map hold).Nodup

section
variable {α : Type*} {l l' : List α} {k : Nat} {a : α}

/-- An entry of a list is one more than the others. -/
theorem perm_eraseIdx (h : l[k]? = some a) : l.Perm (a :: l.eraseIdx k) := by
  obtain ⟨hk, rfl⟩ := List.getElem?_eq_some_iff.mp h
  exact (List.getElem_cons_eraseIdx_perm hk).symm

/-- Two lists with as many of each are in another order. -/
theorem perm_of_count (h : ∀ [DecidableEq α] (b : α), l.count b = l'.count b) : l.Perm l' := by
  classical
  exact List.perm_iff_count.mpr fun b => h b

end

theorem accounted_empty : Accounted (empty : Queues R A) := ⟨.nil, .nil⟩

section
variable {q : Queues R A} {r : R} {a : A} {p : R → Bool} {k : Nat} {e : R × A} {hold : R → B}

/-! ## Each request is in one place -/

theorem Accounted.start (h : Accounted q) (r : R) : Accounted (q.start r) := by
  refine ⟨perm_of_count ?_, h.outcomes⟩
  intro _ s
  have hs := h.started.count_eq s
  simp only [Queues.start, ended, List.map_append, List.count_append] at hs ⊢
  omega

theorem Accounted.refuse (h : Accounted q) (r : R) (a : A) : Accounted (q.refuse r a) := by
  refine ⟨perm_of_count ?_, perm_of_count ?_⟩
  · intro _ s
    have hs := h.started.count_eq s
    simp only [Queues.refuse, ended, List.map_append, List.map_cons, List.map_nil,
      List.count_append] at hs ⊢
    omega
  · intro _ f
    have hf := h.outcomes.count_eq f
    simp only [Queues.refuse, ended, List.count_append] at hf ⊢
    omega

theorem Accounted.complete (h : Accounted q) (hk : q.waiting[k]? = some r) (a : A) :
    Accounted (q.complete k r a) := by
  refine ⟨perm_of_count ?_, perm_of_count ?_⟩
  · intro _ s
    have hs := h.started.count_eq s
    have hr := (perm_eraseIdx hk).count_eq s
    rw [← List.singleton_append] at hr
    simp only [Queues.complete, ended, List.map_append, List.map_cons, List.map_nil,
      List.count_append] at hs hr ⊢
    omega
  · intro _ f
    have hf := h.outcomes.count_eq f
    simp only [Queues.complete, ended, List.count_append] at hf ⊢
    omega

theorem Accounted.abort (h : Accounted q) (p : R → Bool) (a : A) : Accounted (q.abort p a) := by
  refine ⟨perm_of_count ?_, perm_of_count ?_⟩
  · intro _ s
    have hs := h.started.count_eq s
    have hp := (List.filter_append_perm p q.waiting).count_eq s
    have hfst : ((q.waiting.filter p).map (·, a)).map Prod.fst = q.waiting.filter p := by
      rw [List.map_map]
      exact List.map_id _
    simp only [Queues.abort, ended, List.map_append, hfst, List.count_append] at hs hp ⊢
    omega
  · intro _ f
    have hf := h.outcomes.count_eq f
    simp only [Queues.abort, ended, List.count_append] at hf ⊢
    omega

theorem Accounted.call (h : Accounted q) (hk : q.ready[k]? = some e) : Accounted (q.call k e) := by
  have hended : q.ended.Perm (q.call k e).ended := by
    refine perm_of_count ?_
    intro _ f
    have he := (perm_eraseIdx hk).count_eq f
    rw [← List.singleton_append] at he
    simp only [Queues.call, ended, List.count_append] at he ⊢
    omega
  exact ⟨h.started.trans ((hended.map Prod.fst).append_left _), h.outcomes.trans hended⟩

theorem Accounted.finish (h : Accounted q) (hk : q.called[k]? = some e) :
    Accounted (q.finish k e) := by
  have hended : q.ended.Perm (q.finish k e).ended := by
    refine perm_of_count ?_
    intro _ f
    have he := (perm_eraseIdx hk).count_eq f
    rw [← List.singleton_append] at he
    simp only [Queues.finish, ended, List.count_append] at he ⊢
    omega
  exact ⟨h.started.trans ((hended.map Prod.fst).append_left _), h.outcomes.trans hended⟩

/-! ## What a request holds, it holds alone -/

theorem live_start (q : Queues R A) (r : R) : (q.start r).live.Perm (r :: q.live) := by
  refine perm_of_count ?_
  intro _ s
  rw [← List.singleton_append]
  simp only [Queues.start, live, List.count_append]
  omega

theorem live_complete (hk : q.waiting[k]? = some r) (a : A) :
    (q.complete k r a).live.Perm q.live := by
  refine perm_of_count ?_
  intro _ s
  have hr := (perm_eraseIdx hk).count_eq s
  rw [← List.singleton_append] at hr
  simp only [Queues.complete, live, List.map_append, List.map_cons, List.map_nil,
    List.count_append] at hr ⊢
  omega

theorem live_call (hk : q.ready[k]? = some e) : (q.call k e).live.Perm q.live := by
  refine perm_of_count ?_
  intro _ s
  have he := ((perm_eraseIdx hk).map Prod.fst).count_eq s
  rw [List.map_cons, ← List.singleton_append] at he
  simp only [Queues.call, live, List.map_append, List.map_cons, List.map_nil,
    List.count_append] at he ⊢
  omega

theorem live_finish (hk : q.called[k]? = some e) : q.live.Perm (e.1 :: (q.finish k e).live) := by
  refine perm_of_count ?_
  intro _ s
  have he := ((perm_eraseIdx hk).map Prod.fst).count_eq s
  rw [List.map_cons, ← List.singleton_append] at he
  rw [← List.singleton_append]
  simp only [Queues.finish, live, List.map_append, List.count_append] at he ⊢
  omega

theorem Exclusive.start (h : Exclusive hold q) (hr : hold r ∉ q.live.map hold) :
    Exclusive hold (q.start r) :=
  ((live_start q r).map hold).nodup_iff.mpr (List.nodup_cons.mpr ⟨hr, h⟩)

theorem Exclusive.complete (h : Exclusive hold q) (hk : q.waiting[k]? = some r) (a : A) :
    Exclusive hold (q.complete k r a) :=
  ((live_complete hk a).map hold).nodup_iff.mpr h

theorem Exclusive.call (h : Exclusive hold q) (hk : q.ready[k]? = some e) :
    Exclusive hold (q.call k e) :=
  ((live_call hk).map hold).nodup_iff.mpr h

/-- With the request that is done goes what it held. -/
theorem Exclusive.finish (h : Exclusive hold q) (hk : q.called[k]? = some e) :
    Exclusive hold (q.finish k e) ∧ hold e.1 ∉ (q.finish k e).live.map hold := by
  have hcons := ((live_finish hk).map hold).nodup_iff.mp h
  rw [List.map_cons, List.nodup_cons] at hcons
  exact ⟨hcons.2, hcons.1⟩

/-- What a request that waits holds, no other one holds. -/
theorem Exclusive.others (h : Exclusive hold q) (hk : q.waiting[k]? = some r) {s : R}
    (hs : s ∈ q.waiting.eraseIdx k ∨ s ∈ (q.ready ++ q.called).map Prod.fst) :
    hold s ≠ hold r := by
  have hlive : q.live.Perm (r :: (q.waiting.eraseIdx k ++ (q.ready ++ q.called).map Prod.fst)) :=
    (perm_eraseIdx hk).append_right _
  have hcons := (hlive.map hold).nodup_iff.mp h
  rw [List.map_cons, List.nodup_cons] at hcons
  intro heq
  apply hcons.1
  rw [← heq]
  exact List.mem_map_of_mem (List.mem_append.mpr hs)

end

end Queues

end Proactor
