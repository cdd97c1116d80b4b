import Vee.Worker.Serving

/- What a worker that is not shut down reports of its jobs.

   Jobs are run in the order in which they were placed, and every caller's request
   accounts for the job it has placed (`Accounted`). While the handshake holds the
   count a request returns is that of a job that was placed, and is not zero, so a
   failed request is one whose job was not placed (`quiet_truthful`). Without a quiet
   start the counter can wrap, and a request that placed its job returns 0
   (`wrapped_count_lies`). -/
namespace Vee.Worker
open Transition
open Lockfree (Next)

variable {w : Nat} {J T : Type*}

/-! ## What the log says -/

/-- The caller of the event. -/
def Event.caller : Event w J T → Option T
  | .called t _ | .placed t _ | .returned t _ _ => some t
  | .ran _ => none

/-- The jobs placed in the queue, in order. -/
def placedJobs (log : List (Event w J T)) : List (Job J) :=
  log.filterMap fun
    | .placed _ job => some job
    | _ => none

/-- The jobs run, in order. -/
def ranJobs (log : List (Event w J T)) : List (Job J) :=
  log.filterMap fun
    | .ran job => some job
    | _ => none

/-- The result says that the request failed. -/
def Result.Failed : Result w → Prop
  | .count result => result = 0
  | .threw _ => True
  | .done _ => False

section
variable [DecidableEq T]

/-- The last event of caller `t`. -/
def lastOf (t : T) (log : List (Event w J T)) : Option (Event w J T) :=
  (log.filter fun e => decide (e.caller = some t)).getLast?

/-- The jobs that caller `t` placed. -/
def placedBy (t : T) (log : List (Event w J T)) : List (Job J) :=
  log.filterMap fun
    | .placed u job => if u = t then some job else none
    | _ => none

/-- The jobs of the requests of caller `t` that returned a count other than zero. -/
def acceptedBy (t : T) (log : List (Event w J T)) : List (Job J) :=
  log.filterMap fun
    | .returned u (.request job _) (.count result) =>
      if u = t ∧ result ≠ 0 then some (.task job) else none
    | _ => none

/-- A request that placed its job returned a count other than zero, and one that
returned zero or threw placed nothing since it was called. -/
def Truthful (log : List (Event w J T)) : Prop :=
  ∀ before t job throwing r after,
    log = before ++ .returned t (.request job throwing) r :: after →
    (lastOf t before = some (.placed t (.task job)) → ∃ result, result ≠ 0 ∧ r = .count result) ∧
    (r.Failed → lastOf t before = some (.called t (.request job throwing)))

theorem lastOf_self {t : T} {log : List (Event w J T)} {e : Event w J T} (h : e.caller = some t) :
    lastOf t (log ++ [e]) = some e := by
  simp [lastOf, h]

theorem lastOf_other {t : T} {log new : List (Event w J T)}
    (h : ∀ e ∈ new, e.caller ≠ some t) : lastOf t (log ++ new) = lastOf t log := by
  have hnil : (new.filter fun e => decide (e.caller = some t)) = [] := by
    simpa [List.filter_eq_nil_iff] using h
  simp [lastOf, hnil]

theorem truthful_nil : Truthful ([] : List (Event w J T)) := by
  intro before t job throwing r after h
  simp at h

/-- New events keep the log truthful if each result among them is truthful. -/
theorem Truthful.append {log new : List (Event w J T)} (h : Truthful log)
    (hnew : ∀ before t job throwing r after,
      new = before ++ .returned t (.request job throwing) r :: after →
      (lastOf t (log ++ before) = some (.placed t (.task job)) →
        ∃ result, result ≠ 0 ∧ r = .count result) ∧
      (r.Failed → lastOf t (log ++ before) = some (.called t (.request job throwing)))) :
    Truthful (log ++ new) := by
  intro before t job throwing r after hsplit
  -- the result is among the new events, or it was in the log before
  rcases List.append_eq_append_iff.mp hsplit with ⟨rest, hbefore, hrest⟩ | ⟨rest, hlog, hafter⟩
  · subst hbefore
    exact hnew rest t job throwing r after hrest
  · cases rest with
    | nil =>
      have hb : before = log := by simpa using hlog.symm
      subst hb
      simpa using hnew [] t job throwing r after hafter.symm
    | cons e rest =>
      obtain ⟨rfl, -⟩ := List.cons.inj hafter
      exact h before t job throwing r rest hlog

theorem Truthful.append_other {log new : List (Event w J T)} (h : Truthful log)
    (hnew : ∀ t job throwing r, .returned t (.request job throwing) r ∉ new) :
    Truthful (log ++ new) := by
  refine h.append ?_
  intro before t job throwing r after hsplit
  exact absurd (by simp [hsplit]) (hnew t job throwing r)

end

/-! ## Jobs placed, in hand and run -/

/-- The job the thread has dequeued and not run yet. -/
def WorkerPc.taken (m : Memory w J) : WorkerPc w → List (Job J)
  | run => m.currentJob.toList
  | _ => []

/-- The job the caller has placed in the request it is in. -/
def CallerPc.inFlight : CallerPc w J → List (Job J)
  | request _ .enqueue => []
  | request who _ => [who.job]
  | _ => []

section
variable [DecidableEq T]

/-- Every job placed has been run, is in hand or is in the queue, in this order, and
every caller knows of its own. -/
structure Accounted (k : Nat) (s : System w J T) : Prop where
  order : placedJobs s.log = ranJobs s.log ++ (s.threads k).taken s.mem ++ s.mem.queue
  accepted : ∀ t, placedBy t s.log = acceptedBy t s.log ++ (s.callers t).inFlight
  positive : ∀ t who old, s.callers t = .request who (.jobRequested old) → old + 1 ≠ 0

variable {size : QueueSize w} {k : Nat} {s s' : System w J T} {a : Action J T}

omit [DecidableEq T] in
theorem placedJobs_append (log new : List (Event w J T)) :
    placedJobs (log ++ new) = placedJobs log ++ placedJobs new := List.filterMap_append

omit [DecidableEq T] in
theorem ranJobs_append (log new : List (Event w J T)) :
    ranJobs (log ++ new) = ranJobs log ++ ranJobs new := List.filterMap_append

omit [DecidableEq T] in
@[simp] theorem placedJobs_ran (jobs : List (Job J)) :
    placedJobs (jobs.map (.ran : Job J → Event w J T)) = [] := by
  simp [placedJobs]

omit [DecidableEq T] in
@[simp] theorem ranJobs_ran (jobs : List (Job J)) :
    ranJobs (jobs.map (.ran : Job J → Event w J T)) = jobs := by
  simp [ranJobs, List.filterMap_map]

theorem placedBy_append (t : T) (log new : List (Event w J T)) :
    placedBy t (log ++ new) = placedBy t log ++ placedBy t new := List.filterMap_append

theorem acceptedBy_append (t : T) (log new : List (Event w J T)) :
    acceptedBy t (log ++ new) = acceptedBy t log ++ acceptedBy t new := List.filterMap_append

/-- The events of another caller. -/
theorem placedBy_other {t : T} {new : List (Event w J T)} (h : ∀ e ∈ new, e.caller ≠ some t) :
    placedBy t new = [] ∧ acceptedBy t new = [] := by
  refine ⟨?_, ?_⟩
  · refine List.filterMap_eq_nil_iff.mpr fun e he => ?_
    have hne := h e he
    cases e <;> simp_all [Event.caller]
  · refine List.filterMap_eq_nil_iff.mpr fun e he => ?_
    have hne := h e he
    split <;> simp_all [Event.caller]

theorem Accounted.caller (h : Accounted k s) (new : List (Event w J T)) {t : T} {p : CallerPc w J}
    (hcallers : s'.callers = Function.update s.callers t p) (hthreads : s'.threads = s.threads)
    (hlog : s'.log = s.log ++ new) (hnew : ∀ e ∈ new, e.caller = some t)
    (hjob : s'.mem.currentJob = s.mem.currentJob)
    (hqueue : s'.mem.queue = s.mem.queue ++ placedJobs new)
    (hbalance : (s.callers t).inFlight ++ placedBy t new = acceptedBy t new ++ p.inFlight)
    (hp : ∀ who old, p = .request who (.jobRequested old) → old + 1 ≠ 0) : Accounted k s' where
  order := by
    have hran : ranJobs new = [] := by
      refine List.filterMap_eq_nil_iff.mpr fun e he => ?_
      have hcaller := hnew e he
      cases e <;> simp_all [Event.caller]
    have htaken : (s.threads k).taken s'.mem = (s.threads k).taken s.mem := by
      cases s.threads k <;> simp [WorkerPc.taken, hjob]
    rw [hlog, hthreads, htaken, placedJobs_append, ranJobs_append, hran, hqueue, h.order]
    simp
  accepted u := by
    rw [hlog, placedBy_append, acceptedBy_append, h.accepted u, List.append_assoc,
      List.append_assoc]
    by_cases hu : u = t
    · rw [hcallers, hu, Function.update_self, hbalance]
    · have hother : ∀ e ∈ new, e.caller ≠ some u := fun e he heq =>
        hu (Option.some.inj (heq.symm.trans (hnew e he)))
      obtain ⟨hplaced, haccepted⟩ := placedBy_other hother
      rw [hcallers, Function.update_of_ne hu, hplaced, haccepted]
      simp
  positive u who old hu := by
    by_cases hut : u = t
    · rw [hcallers, hut, Function.update_self] at hu
      exact hp who old hu
    · rw [hcallers, Function.update_of_ne hut] at hu
      exact h.positive u who old hu

omit [DecidableEq T] in
theorem ranEvents_caller {m : Memory w J} {p : WorkerPc w} {e : Event w J T}
    (he : e ∈ ranEvents m p) : e.caller = none := by
  cases p <;> simp_all [ranEvents]
  obtain ⟨job, -, rfl⟩ := he
  rfl

omit [DecidableEq T] in
theorem placedEvents_caller {t : T} {job : Job J} {pc : RequestPc w} {next}
    {e : Event w J T} (he : e ∈ placedEvents t job pc next) : e.caller = some t := by
  cases pc <;> cases next <;> simp_all [placedEvents, Event.caller]

/-- A step of `nothrow_request` after which it goes on. -/
theorem RequestMove.balance {who : Requester J} {m m' : Memory w J} {pc pc' : RequestPc w} (t : T)
    (h : RequestMove size who.job m pc m' (.goto pc')) :
    m'.queue = m.queue ++ placedJobs (placedEvents t who.job pc (.goto pc')) ∧
      (CallerPc.request who pc).inFlight ++ placedBy t (placedEvents t who.job pc (.goto pc')) =
        acceptedBy t (placedEvents t who.job pc (.goto pc')) ++
          (CallerPc.request who pc').inFlight := by
  cases h <;> simp [placedEvents, placedJobs, placedBy, acceptedBy, CallerPc.inFlight]

/-- The result of a request. -/
theorem answer_user (s : System w J T) (t : T) (count : BitVec w) (job : J) (throwing : Bool) :
    ∃ r, s.answer t count (.user job throwing) =
        s.goto t .idle [.returned t (.request job throwing) r] ∧
      (count = 0 → r.Failed) ∧ (count ≠ 0 → r = .count count) := by
  simp only [System.answer]
  split
  · rename_i hfail
    exact ⟨_, rfl, fun _ => trivial, fun hc => absurd hfail.1 hc⟩
  · exact ⟨_, rfl, id, fun _ => rfl⟩

/-- What a request that returns has accepted. -/
theorem acceptedBy_returned {t : T} {count : BitVec w} {job : J} {throwing : Bool} {r : Result w}
    (hfail : count = 0 → r.Failed) (hcount : count ≠ 0 → r = .count count) :
    acceptedBy t [.returned t (.request job throwing) r] =
      if count = 0 then [] else [.task job] := by
  by_cases hc : count = 0
  · have hr := hfail hc
    cases r <;> simp_all [acceptedBy, Result.Failed]
  · rw [hcount hc, if_neg hc]
    exact List.filterMap_cons_some (if_pos ⟨rfl, hc⟩)

theorem Accounted.step (h : Accounted k s) (hserv : Serving size k s) (hs : Stepped size s a s') :
    Accounted k s' := by
  cases hs with
  | call t call ht =>
    refine h.caller [.called t call] (t := t) (p := call.enter) rfl rfl rfl ?_ rfl ?_ ?_ ?_
    · simp [Event.caller]
    · simp [System.goto, placedJobs]
    · cases call <;> simp [ht, Call.enter, CallerPc.inFlight, placedBy, acceptedBy]
    · cases call <;> simp [Call.enter]
  | request t who pc pc' m ht hm =>
    obtain ⟨hqueue, hbalance⟩ := hm.balance t
    refine h.caller _ (t := t) rfl rfl rfl (fun e he => placedEvents_caller he) hm.currentJob hqueue
      (by rw [ht]; exact hbalance) ?_
    intro who' old hpc
    obtain ⟨rfl, rfl⟩ := CallerPc.request.inj hpc
    exact hserv.handshake.positive (System.requests_request ht) hm
  | answered t who pc m count ht hm =>
    have hqueue : m.queue = s.mem.queue := by cases hm <;> rfl
    have hjob := hm.currentJob
    cases who with
    | shutdown sync => exact absurd (by rw [ht]; trivial) (hserv.outside t)
    | user job throwing =>
      -- a refused job was not placed, and a counted one is answered with its count
      have hinFlight : (CallerPc.request (.user job throwing) pc : CallerPc w J).inFlight =
          if count = 0 then [] else [.task job] := by
        cases hm with
        | refused => simp [CallerPc.inFlight]
        | requested old =>
          rw [if_neg (h.positive t _ old ht)]
          rfl
      obtain ⟨r, heq, hfail, hcount⟩ := answer_user { s with mem := m } t count job throwing
      rw [heq]
      refine h.caller _ (t := t) rfl rfl rfl ?_ hjob ?_ ?_ (by simp)
      · simp [Event.caller]
      · simp [System.goto, placedJobs, hqueue]
      · rw [ht, hinFlight, acceptedBy_returned hfail hcount]
        simp [placedBy, CallerPc.inFlight]
  | satisfied t who pc m ht hm | nullPromise t who pc m ht hm =>
    have hcs : s.requests t = some pc := System.requests_request ht
    obtain ⟨count, hcount⟩ := hserv.handshake.result hcs hm
    cases hcount
  | joinableThread t j ht => exact ⟨h.order, h.accepted, h.positive⟩
  | stopped t sync ht | notStopped t sync ht | wake t sync ht | noWake t sync ht
  | tail t sync pc pc' thr ht | tailEnd t sync pc thr result ht =>
    exact absurd (by rw [ht]; trivial) (hserv.outside t)
  | started t ht hst =>
    exact h.caller [] (t := t) rfl rfl rfl (by simp) rfl (by simp [System.goto, placedJobs])
      (by simp [ht, placedBy, acceptedBy, CallerPc.inFlight]) (by simp)
  | notStarted t ht hst =>
    exact h.caller _ (t := t) rfl rfl rfl (by simp [Event.caller]) rfl
      (by simp [System.goto, placedJobs])
      (by simp [ht, placedBy, acceptedBy, CallerPc.inFlight]) (by simp)
  | assign t j ht =>
    exact h.caller _ (t := t) rfl rfl rfl (by simp [Event.caller]) rfl
      (by simp [System.goto, placedJobs])
      (by simp [ht, placedBy, acceptedBy, CallerPc.inFlight]) (by simp)
  | launch t ht =>
    obtain ⟨hunborn, hnext⟩ := hserv.launching ht
    refine ⟨?_, ?_, ?_⟩
    · simpa [System.goto, hnext, hunborn, WorkerPc.taken] using h.order
    · intro u
      by_cases hu : u = t
      · simpa [System.goto, hu, ht, CallerPc.inFlight] using h.accepted t
      · simpa [System.goto, Function.update_of_ne hu] using h.accepted u
    · intro u who old hu
      by_cases hut : u = t
      · simp [System.goto, hut] at hu
      · exact h.positive u who old (by simpa [System.goto, Function.update_of_ne hut] using hu)
  -- a job moves from the queue into the thread's hands, and from there to the jobs run
  | work j m p hm =>
    obtain rfl := hserv.only hm.inMain
    refine ⟨?_, ?_, h.positive⟩
    · have horder := h.order
      have hjob := hserv.runner.job j
      generalize s.threads j = pc at hm hjob horder
      simp only [Function.update_self]
      cases hm <;> simp_all [placedJobs_append, ranJobs_append, ranEvents, WorkerPc.taken]
    · intro t
      have hnone : ∀ e ∈ ranEvents s.mem (s.threads j), e.caller ≠ some t := fun e he => by
        rw [ranEvents_caller he]
        simp
      obtain ⟨hplaced, haccepted⟩ := placedBy_other hnone
      show placedBy t (s.log ++ _) = acceptedBy t (s.log ++ _) ++ _
      rw [placedBy_append, acceptedBy_append, hplaced, haccepted, List.append_nil, List.append_nil]
      exact h.accepted t

/-! ## Results -/

/-- The last event of a caller in `nothrow_request`. -/
def RequestPc.lastEvent (t : T) (job : J) (throwing : Bool) : RequestPc w → Event w J T
  | enqueue => .called t (.request job throwing)
  | _ => .placed t (.task job)

/-- Results are truthful, and every caller's last event tells whether its job is placed. -/
structure Reported (s : System w J T) : Prop where
  truthful : Truthful s.log
  last : ∀ t job throwing pc, s.callers t = .request (.user job throwing) pc →
    lastOf t s.log = some (pc.lastEvent t job throwing)

theorem Reported.caller (h : Reported s) (new : List (Event w J T)) {t : T} {p : CallerPc w J}
    (hcallers : s'.callers = Function.update s.callers t p) (hlog : s'.log = s.log ++ new)
    (hnew : ∀ e ∈ new, e.caller = some t) (htruthful : Truthful s'.log)
    (hp : ∀ job throwing pc, p = .request (.user job throwing) pc →
      lastOf t s'.log = some (pc.lastEvent t job throwing)) : Reported s' where
  truthful := htruthful
  last u job throwing pc hu := by
    by_cases hut : u = t
    · rw [hcallers, hut, Function.update_self] at hu
      rw [hut]
      exact hp job throwing pc hu
    · rw [hcallers, Function.update_of_ne hut] at hu
      have hother : ∀ e ∈ new, e.caller ≠ some u := fun e he heq =>
        hut (Option.some.inj (heq.symm.trans (hnew e he)))
      rw [hlog, lastOf_other hother]
      exact h.last u job throwing pc hu

/-- A step that is neither of a request nor logs the result of one. -/
theorem Reported.quiet (h : Reported s) (new : List (Event w J T)) {t : T} {p : CallerPc w J}
    (hcallers : s'.callers = Function.update s.callers t p) (hlog : s'.log = s.log ++ new)
    (hnew : ∀ e ∈ new, e.caller = some t)
    (hresult : ∀ t job throwing r, .returned t (.request job throwing) r ∉ new)
    (hp : p.requesting = none) : Reported s' := by
  refine h.caller new hcallers hlog hnew ?_ ?_
  · rw [hlog]
    exact h.truthful.append_other hresult
  · intro job throwing pc hpc
    rw [hpc] at hp
    cases hp

theorem Reported.step (h : Reported s) (hserv : Serving size k s) (hacc : Accounted k s)
    (hs : Stepped size s a s') : Reported s' := by
  cases hs with
  | call t call ht =>
    refine h.caller [.called t call] (t := t) (p := call.enter) rfl rfl ?_ ?_ ?_
    · simp [Event.caller]
    · exact h.truthful.append_other (by simp)
    · intro job throwing pc hpc
      cases call with
      | request job' throwing' =>
        obtain ⟨hwho, rfl⟩ := CallerPc.request.inj hpc
        obtain ⟨rfl, rfl⟩ := Requester.user.inj hwho
        exact lastOf_self rfl
      | start | shutdown => cases hpc
  | request t who pc pc' m ht hm =>
    refine h.caller _ (t := t) rfl rfl (fun e he => placedEvents_caller he) ?_ ?_
    · refine h.truthful.append_other ?_
      cases hm <;> simp [placedEvents]
    · intro job throwing pc'' hpc
      obtain ⟨rfl, rfl⟩ := CallerPc.request.inj hpc
      have hlast := h.last t job throwing pc ht
      cases hm with
      | placed => exact lastOf_self rfl
      | _ => simpa [System.goto, placedEvents, RequestPc.lastEvent] using hlast
  | answered t who pc m count ht hm =>
    cases who with
    | shutdown sync => exact absurd (by rw [ht]; trivial) (hserv.outside t)
    | user job throwing =>
      obtain ⟨r, heq, hfail, hcount⟩ := answer_user { s with mem := m } t count job throwing
      have hlast := h.last t job throwing pc ht
      rw [heq]
      refine h.caller _ (t := t) rfl rfl (by simp [Event.caller]) (h.truthful.append ?_) (by simp)
      intro before u job' throwing' r' after hsplit
      obtain rfl : before = [] := by cases before <;> simp_all
      simp only [List.nil_append, List.cons.injEq, Event.returned.injEq,
        Call.request.injEq] at hsplit
      obtain ⟨⟨rfl, ⟨rfl, rfl⟩, rfl⟩, -⟩ := hsplit
      rw [List.append_nil, show ({ s with mem := m } : System w J T).log = s.log from rfl, hlast]
      cases hm with
      | refused => exact ⟨fun hplaced => by simp [RequestPc.lastEvent] at hplaced, fun _ => rfl⟩
      | requested old =>
        have hpos := hacc.positive t _ old ht
        have hr := hcount hpos
        exact ⟨fun _ => ⟨_, hpos, hr⟩, fun hfailed => absurd (by rwa [hr] at hfailed) hpos⟩
  | satisfied t who pc m ht hm | nullPromise t who pc m ht hm =>
    have hcs : s.requests t = some pc := System.requests_request ht
    obtain ⟨count, hcount⟩ := hserv.handshake.result hcs hm
    cases hcount
  | joinableThread t j ht => exact ⟨h.truthful, h.last⟩
  | stopped t sync ht | notStopped t sync ht | wake t sync ht | noWake t sync ht
  | tail t sync pc pc' thr ht | tailEnd t sync pc thr result ht =>
    exact absurd (by rw [ht]; trivial) (hserv.outside t)
  | started t ht hst | launch t ht =>
    exact h.quiet [] (t := t) rfl rfl (by simp) (by simp) rfl
  | notStarted t ht hst | assign t j ht =>
    exact h.quiet _ (t := t) rfl rfl (by simp [Event.caller]) (by simp) rfl
  | work j m p hm =>
    refine ⟨h.truthful.append_other ?_, ?_⟩
    · intro t job throwing r hr
      cases ranEvents_caller hr
    · intro t job throwing pc ht
      have hnone : ∀ e ∈ ranEvents s.mem (s.threads j), e.caller ≠ some t := fun e he => by
        rw [ranEvents_caller he]
        simp
      exact (lastOf_other hnone).trans (h.last t job throwing pc ht)

/-! ## Runs -/

theorem accounted_init : Accounted 0 (System.init : System w J T) where
  order := rfl
  accepted _ := rfl
  positive t who old ht := by simp [System.init] at ht

/-- **A failed request is not executed**, in every run without a shutdown in which the
first load of the count is quiet: results are truthful, and the jobs run are those
placed, in order. -/
theorem quiet_truthful {tr : List (System w J T × Action J T)}
    (h : Run (System.step size) System.init tr s) (hopen : Meets (fun _ a => a.NoShutdown) tr)
    (hquiet : Meets System.QuietLoad tr) : Truthful s.log ∧ ranJobs s.log <+: placedJobs s.log := by
  obtain ⟨-, hacc, hrep⟩ := h.invariant (C := fun s a => a.NoShutdown ∧ s.QuietLoad a)
    (I := fun s => Serving size 0 s ∧ Accounted 0 s ∧ Reported s)
    ⟨serving_init, accounted_init, truthful_nil, by simp [System.init]⟩
    (fun _ _ _ hi ha hs => ⟨hi.1.step (System.step_cases hs).2 ha.1 ha.2,
      hi.2.1.step hi.1 (System.step_cases hs).2, hi.2.2.step hi.1 hi.2.1 (System.step_cases hs).2⟩)
    fun p hp => ⟨hopen p hp, hquiet p hp⟩
  refine ⟨hrep.truthful, ?_⟩
  rw [hacc.order, List.append_assoc]
  exact List.prefix_append _ _

/-- The third request finds the queue full and throws; the thread then runs the first job. -/
def refusedRequest : List (Action Nat Bool) :=
  calls false (.request 7 false) 4 ++ calls true (.request 8 false) 3 ++
    calls true (.request 9 true) 1 ++ calls true .start 3 ++ works 0 7

theorem quiet_truthful_refused : ∃ (tr : _) (s : System 64 Nat Bool),
    Run (System.step twoJobs) System.init tr s ∧ Meets (fun _ a => a.NoShutdown) tr ∧
      Meets System.QuietLoad tr ∧ tr.map Prod.snd = refusedRequest ∧
      (.returned true (.request 9 true) (.threw .workerIsBusy) ∈ s.log ∧ .ran (.task 7) ∈ s.log) ∧
      Truthful s.log ∧ ranJobs s.log <+: placedJobs s.log := by
  have hrun : ∃ (tr : _) (s : System 64 Nat Bool), Run (System.step twoJobs) System.init tr s ∧
      Meets (fun s a => a.NoShutdown ∧ s.QuietLoad a) tr ∧ tr.map Prod.snd = refusedRequest ∧
      (.returned true (.request 9 true) (.threw .workerIsBusy) ∈ s.log ∧ .ran (.task 7) ∈ s.log) :=
    Run.of_execMeets_any _ (by decide)
  obtain ⟨tr, s, hr, hok, ha, hs⟩ := hrun
  have hopen : Meets (fun _ a => a.NoShutdown) tr := fun p hp => (hok p hp).1
  have hquiet : Meets System.QuietLoad tr := fun p hp => (hok p hp).2
  exact ⟨tr, s, hr, hopen, hquiet, ha, hs, quiet_truthful hr hopen hquiet⟩

/-- After a late signal the thread uncounts a job that is not there, and the next
request finds the largest count. -/
def wrappedCount : List (Action Nat Bool) :=
  lateSignal ++ works 0 2 ++ calls true (.request 8 false) 3

theorem wrapped_count_lies : ∃ (tr : _) (s : System 64 Nat Bool),
    Run (System.step twoJobs) System.init tr s ∧ Meets (fun _ a => a.NoShutdown) tr ∧
      tr.map Prod.snd = wrappedCount ∧ ¬ Truthful s.log := by
  have hrun : ∃ (tr : _) (s : System 64 Nat Bool), Run (System.step twoJobs) System.init tr s ∧
      Meets (fun _ a => a.NoShutdown) tr ∧ tr.map Prod.snd = wrappedCount ∧
      (s.log.getLast? = some (.returned true (.request 8 false) (.count 0)) ∧
        lastOf true s.log.dropLast = some (.placed true (.task 8))) :=
    Run.of_execMeets_any _ (by decide)
  obtain ⟨tr, s, hr, hok, ha, hlast, hplaced⟩ := hrun
  refine ⟨tr, s, hr, hok, ha, ?_⟩
  intro htruthful
  have hsplit := (List.dropLast_append_getLast? _ hlast).symm
  obtain ⟨result, hne, heq⟩ := (htruthful _ _ _ _ _ _ hsplit).1 hplaced
  exact hne (Result.count.inj heq).symm

end

end Vee.Worker
