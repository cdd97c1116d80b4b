import Vee.Lib.Charge
import Vee.Worker.Agreed

/- The empty task that `shutdown` sends to wake the worker.

   `shutdown` sends it when it has read that no job is counted, as a `request`, which
   throws when the queue is full. A job is placed before it is counted and others may
   be placed between the reading and the sending, so the queue can be full then:
   `shutdown` throws, with the state at `shutdown` and the thread neither joined nor
   detached (`dummy_refused`). What lies in the queue when it comes to send is told by what
   it was when it read that nothing is counted, and by the jobs placed and taken since
   (`queue_balance`): the jobs that callers had placed and not counted at the reading,
   together with those placed since, must be fewer than the places of the queue and the
   jobs that the thread has had in hand since (`dismissed_iff`). -/
namespace Vee.Worker
open Transition Counting
open Lockfree (Next)

variable {w : Nat} {J T : Type*}

/-- In `start`. -/
def CallerPc.InStart : CallerPc w J → Prop
  | start _ => True
  | _ => False

instance : ∀ p : CallerPc w J, Decidable p.InStart
  | .start _ => isTrue trivial
  | .idle | .request _ _ | .shutdown _ _ => isFalse id

/-- `shutdown` has been called. -/
def System.ShutdownCalled (s : System w J T) : Prop :=
  ∃ t sync, .called t (.shutdown sync) ∈ s.log

/-- There is one call of `shutdown`, after those of `start`. -/
def System.OneShutdown (s : System w J T) : Action J T → Prop
  | .call _ .start => ¬ s.ShutdownCalled
  | .call _ (.shutdown _) => ¬ s.ShutdownCalled ∧ ∀ t, ¬ (s.callers t).InStart
  | .call _ (.request _ _) | .run _ | .work _ => True

/-- If `shutdown` is about to place its dummy, the count and the jobs that are placed and
not counted are fewer than the places of the queue and the job in hand. -/
def System.HasRoom (size : QueueSize w) (s : System w J T) : Action J T → Prop
  | .run t => (∃ sync, s.callers t = .request (.shutdown sync) .enqueue) →
      ∃ U, Census (· = some .fetchAdd) s.requests U ∧
        s.mem.remained.toNat + U.card < size.slots + (s.threads 0).inHand
  | .call _ _ | .work _ => True

/-- The step places a job. -/
def System.placing (size : QueueSize w) (s : System w J T) : Action J T → Nat
  | .run t => if s.requests t = some .enqueue ∧ s.mem.queue.length < size.slots then 1 else 0
  | .call _ _ | .work _ => 0

/-- The thread takes a job out of the queue. -/
def System.taking (s : System w J T) : Action J T → Nat
  | .work k => if s.threads k = .dequeue ∧ 0 < s.mem.queue.length then 1 else 0
  | .call _ _ | .run _ => 0

/-- The jobs that are placed and not counted when `shutdown` reads that no job is counted, and
those placed from there to its own placing, are fewer than the places of the queue, the job in
hand at the reading and those taken from there. -/
def RoomForDummy (size : QueueSize w) (tr : List (System w J T × Action J T)) : Prop :=
  ∀ before m t sync during z after,
    tr = before ++ (m, .run t) :: during ++ (z, .run t) :: after →
    m.callers t = .shutdown sync .loadRemained → m.mem.remained = 0 →
    z.callers t = .request (.shutdown sync) .enqueue →
    ∃ U, Census (· = some .fetchAdd) m.requests U ∧
      U.card + total (System.placing size) during <
        size.slots + (m.threads 0).inHand + total System.taking during

/-- A `shutdown` that has returned found the worker not running, or has joined or
detached its thread. -/
def System.Dismissed (s : System w J T) : Prop :=
  ∀ t sync r, .returned t (.shutdown sync) r ∈ s.log →
    r = .done false ∨ r = .done true ∧ s.mem.thr = none

/-! ## What a call of `shutdown` leaves in the log -/

/-- The call or the end of a `shutdown`. -/
def Event.OfShutdown : Event w J T → Prop
  | called _ (.shutdown _) | returned _ (.shutdown _) _ => True
  | _ => False

/-- No `shutdown` has returned. -/
def System.Silent (s : System w J T) : Prop :=
  ∀ t sync r, .returned t (.shutdown sync) r ∉ s.log

/-- The action is a call of `shutdown` or a step of one. -/
def System.Stops (s : System w J T) : Action J T → Prop
  | .call _ (.shutdown _) => True
  | .run t => (s.callers t).InShutdown
  | _ => False

section
variable {size : QueueSize w} {s s' : System w J T} {a : Action J T}

theorem System.Silent.append (h : s.Silent) {new : List (Event w J T)}
    (hlog : s'.log = s.log ++ new) (hnew : ∀ e ∈ new, ¬ e.OfShutdown) : s'.Silent := by
  intro t sync r hmem
  rw [hlog] at hmem
  rcases List.mem_append.mp hmem with hold | hin
  · exact h t sync r hold
  · exact hnew _ hin trivial

theorem System.Dismissed.append (h : s.Dismissed) {new : List (Event w J T)}
    (hlog : s'.log = s.log ++ new) (hnew : ∀ e ∈ new, ¬ e.OfShutdown)
    (hthr : s'.mem.thr = s.mem.thr) : s'.Dismissed := by
  intro t sync r hmem
  rw [hlog] at hmem
  rw [hthr]
  rcases List.mem_append.mp hmem with hold | hin
  · exact h t sync r hold
  · exact absurd trivial (hnew _ hin)

theorem System.ShutdownCalled.append (h : s.ShutdownCalled) {new : List (Event w J T)}
    (hlog : s'.log = s.log ++ new) : s'.ShutdownCalled := by
  obtain ⟨t, sync, hmem⟩ := h
  refine ⟨t, sync, ?_⟩
  rw [hlog]
  exact List.mem_append_left new hmem

/-! ## Before the call of `shutdown` and after it -/

/-- `shutdown` has not been called. The handle of the thread stands for it once `start`
is over. -/
structure Opened (size : QueueSize w) (s : System w J T) : Prop where
  serving : Serving size 0 s
  uncalled : ¬ s.ShutdownCalled
  silent : s.Silent
  handle : s.mem.thr = none → s.threads 0 = .unborn ∨ ∃ t k, s.callers t = .start (.assign k)

/-- `shutdown` has been called, and the caller in it, if it has not returned, still has
the thread to join or detach. -/
structure Closing (size : QueueSize w) (s : System w J T) : Prop where
  runner : SingleRunner s
  agreed : Agreed size s.mem (s.threads 0) s.requests
  others : ∀ j, j ≠ 0 → ¬ (s.threads j).InMain
  called : s.ShutdownCalled
  outside : ∀ t, ¬ (s.callers t).InStart
  one : ∀ t u, (s.callers t).InShutdown → (s.callers u).InShutdown → t = u
  silent : ∀ t, (s.callers t).InShutdown → s.Silent
  handle : ∀ t, (s.callers t).InShutdown → s.mem.thr ≠ none ∨
    s.threads 0 = .unborn ∧ ∃ sync, s.callers t = .shutdown sync .exchange
  positive : ∀ t sync old, s.callers t = .request (.shutdown sync) (.jobRequested old) →
    old + 1 ≠ 0
  dismissed : s.Dismissed

/-- `shutdown` past its first exchange has a thread to join or detach. -/
theorem Closing.joinable (h : Closing size s) {t : T} (ht : (s.callers t).InShutdown)
    (hpast : ∀ sync, s.callers t ≠ .shutdown sync .exchange) : s.mem.thr ≠ none := by
  rcases h.handle t ht with hthr | ⟨-, sync, hsync⟩
  · exact hthr
  · exact absurd hsync (hpast sync)

theorem opened_init : Opened size (System.init : System w J T) where
  serving := serving_init
  uncalled := by simp [System.ShutdownCalled, System.init]
  silent t sync r := by simp [System.init]
  handle _ := .inl rfl

/-- A worker that runs has its thread in the main function. -/
theorem Closing.born (h : Closing size s) (hrun : s.mem.state = .running) :
    s.threads 0 ≠ .unborn := by
  intro hunborn
  rcases h.runner.held (by rw [hrun]; simp) with ⟨t, ht⟩ | ⟨k, hk⟩
  · exact h.outside t (by rw [ht]; trivial)
  · by_cases hk0 : k = 0
    · rw [hk0, hunborn] at hk
      exact hk
    · exact h.others k hk0 hk

theorem System.inShutdown {t : T} {sync : Bool} {pc : ShutdownPc}
    (ht : s.callers t = .shutdown sync pc) :
    (s.callers t).InShutdown ∧ s.requests t = none := by
  simp [System.requests, ht, CallerPc.InShutdown, CallerPc.requesting]

variable [DecidableEq T]

/-- The other steps log nothing of it. -/
theorem Stepped.log (hs : Stepped size s a s') (ha : ¬ s.Stops a) :
    ∃ new, s'.log = s.log ++ new ∧ ∀ e ∈ new, ¬ e.OfShutdown := by
  cases hs with
  | call t call ht =>
    refine ⟨[.called t call], rfl, ?_⟩
    cases call with
    | shutdown sync => exact absurd trivial ha
    | _ => simp [Event.OfShutdown]
  | request t who pc pc' m ht hm =>
    refine ⟨_, rfl, ?_⟩
    cases pc <;> cases pc' <;> simp [placedEvents, Event.OfShutdown]
  | answered t who pc m count ht hm =>
    cases who with
    | user job throwing =>
      simp only [System.answer]
      split
      · exact ⟨_, rfl, by simp [Event.OfShutdown]⟩
      · exact ⟨_, rfl, by simp [Event.OfShutdown]⟩
    | shutdown sync => exact absurd (show (s.callers t).InShutdown by rw [ht]; trivial) ha
  | satisfied t who pc m ht hm =>
    cases who with
    | user job throwing => exact ⟨_, rfl, by simp [Requester.call, Event.OfShutdown]⟩
    | shutdown sync => exact absurd (show (s.callers t).InShutdown by rw [ht]; trivial) ha
  | nullPromise t who pc m ht hm | joinableThread t j ht =>
    exact ⟨[], (List.append_nil _).symm, by simp⟩
  | started t ht | launch t ht => exact ⟨[], rfl, by simp⟩
  | notStarted t ht | assign t j ht => exact ⟨_, rfl, by simp [Event.OfShutdown]⟩
  | stopped t sync ht | notStopped t sync ht | wake t sync ht | noWake t sync ht
  | tail t sync pc pc' thr ht | tailEnd t sync pc thr result ht =>
    exact absurd (show (s.callers t).InShutdown by rw [ht]; trivial) ha
  | work k m p hm =>
    refine ⟨_, rfl, ?_⟩
    generalize s.threads k = pc at *
    cases pc <;> simp [ranEvents, Event.OfShutdown]

/-- A step of a caller that ends no `shutdown` and leaves the handle alone. -/
theorem Closing.caller (h : Closing size s) (hs : Stepped size s a s') {t : T} {p : CallerPc w J}
    (new : List (Event w J T)) (hcallers : s'.callers = Function.update s.callers t p)
    (hthreads : s'.threads = s.threads) (hlog : s'.log = s.log ++ new)
    (hnew : ∀ e ∈ new, ¬ e.OfShutdown) (hthr : s'.mem.thr = s.mem.thr) (hstart : ¬ p.InStart)
    (hin : p.InShutdown → (s.callers t).InShutdown ∧ s.mem.thr ≠ none)
    (hpos : ∀ sync old, p = .request (.shutdown sync) (.jobRequested old) → old + 1 ≠ 0)
    (hagreed : Agreed size s'.mem (s.threads 0) (Function.update s.requests t p.requesting)) :
    Closing size s' := by
  have hself : s'.callers t = p := by rw [hcallers, Function.update_self]
  have hother : ∀ u, u ≠ t → s'.callers u = s.callers u := fun u hu => by
    rw [hcallers, Function.update_of_ne hu]
  have hback : ∀ u, (s'.callers u).InShutdown → (s.callers u).InShutdown := by
    intro u hu
    rw [hcallers] at hu
    rcases of_update hu with ⟨rfl, hp⟩ | ⟨-, hu⟩
    · exact (hin hp).1
    · exact hu
  constructor
  case runner => exact h.runner.step hs
  case agreed => rwa [hthreads, requests_update hcallers]
  case others => rw [hthreads]; exact h.others
  case called => exact h.called.append hlog
  case outside =>
    intro u hu
    rw [hcallers] at hu
    rcases of_update hu with ⟨-, hp⟩ | ⟨-, hu⟩
    · exact hstart hp
    · exact h.outside u hu
  case one => exact fun u v hu hv => h.one u v (hback u hu) (hback v hv)
  case silent => exact fun u hu => (h.silent u (hback u hu)).append hlog hnew
  case handle =>
    intro u hu
    rw [hthr, hthreads]
    by_cases hut : u = t
    · rw [hut, hself] at hu
      exact .inl (hin hu).2
    · rw [hother u hut]
      exact h.handle u (hback u hu)
  case positive =>
    intro u sync old hu
    by_cases hut : u = t
    · rw [hut, hself] at hu
      exact hpos sync old hu
    · rw [hother u hut] at hu
      exact h.positive u sync old hu
  case dismissed => exact h.dismissed.append hlog hnew hthr

/-- A step of the `shutdown` that does not end it. -/
theorem Closing.inside (h : Closing size s) (hs : Stepped size s a s') {t : T} {sync : Bool}
    {pc : ShutdownPc} (ht : (s.callers t).InShutdown) (hhandle : s.mem.thr ≠ none)
    (hcallers : s'.callers = Function.update s.callers t (.shutdown sync pc))
    (hthreads : s'.threads = s.threads) (hlog : s'.log = s.log ++ [])
    (hthr : s'.mem.thr = s.mem.thr)
    (hagreed : Agreed size s'.mem (s.threads 0) (Function.update s.requests t none)) :
    Closing size s' :=
  h.caller hs [] hcallers hthreads hlog (by simp) hthr id (fun _ => ⟨ht, hhandle⟩) (by simp) hagreed

/-- The step that ends the `shutdown`. -/
theorem Closing.finish (h : Closing size s) (hs : Stepped size s a s') {t : T} {sync : Bool}
    {r : Result w} (ht : (s.callers t).InShutdown) (hreq : s.requests t = none)
    (hcallers : s'.callers = Function.update s.callers t .idle)
    (hthreads : s'.threads = s.threads)
    (hlog : s'.log = s.log ++ [.returned t (.shutdown sync) r])
    (hr : r = .done false ∨ r = .done true ∧ s'.mem.thr = none)
    (hagreed : Agreed size s'.mem (s.threads 0) s.requests) : Closing size s' := by
  -- it was the only one
  have hnone : ∀ u, ¬ (s'.callers u).InShutdown := by
    intro u hu
    rw [hcallers] at hu
    rcases of_update hu with ⟨-, hp⟩ | ⟨hut, hu⟩
    · exact hp
    · exact hut (h.one u t hu ht)
  constructor
  case runner => exact h.runner.step hs
  case agreed =>
    rw [hthreads, requests_update hcallers, requests_aside hreq rfl]
    exact hagreed
  case others => rw [hthreads]; exact h.others
  case called => exact h.called.append hlog
  case outside =>
    intro u hu
    rw [hcallers] at hu
    rcases of_update hu with ⟨-, hp⟩ | ⟨-, hu⟩
    · exact hp
    · exact h.outside u hu
  case one => exact fun u v hu => absurd hu (hnone u)
  case silent => exact fun u hu => absurd hu (hnone u)
  case handle => exact fun u hu => absurd hu (hnone u)
  case positive => exact fun u sync old hu => absurd (by rw [hu]; trivial) (hnone u)
  case dismissed =>
    intro u sync' r' hmem
    rw [hlog] at hmem
    rcases List.mem_append.mp hmem with hold | hin
    · exact absurd hold (h.silent t ht u sync' r')
    · cases List.mem_singleton.mp hin
      exact hr

/-- The steps of `shutdown` past its request, with a thread to join or detach. -/
theorem System.step_handle {t : T} {sync : Bool} {pc : ShutdownPc}
    (ht : s.callers t = .shutdown sync pc) (hpc : pc.Tail) (hthr : s.mem.thr ≠ none)
    (h : s.step size (.run t) = some s') :
    (∃ pc', s' = s.goto t (.shutdown sync pc') []) ∨
      s' = { s with mem := { s.mem with thr := none } }.goto t .idle
        [.returned t (.shutdown sync) (.done true)] := by
  simp only [step, (step_cases h).1, if_true, next, ht] at h
  cases pc with
  | exchange | loadRemained => exact hpc.elim
  | joinable => exact .inl ⟨_, (Option.some.inj h).symm⟩
  | join =>
    simp only [shutdownStep] at h
    split at h
    · exact absurd ‹_› hthr
    · exact .inl ⟨_, (Option.some.inj h).symm⟩
  | joining thread =>
    simp only [shutdownStep] at h
    split at h
    · exact .inr (Option.some.inj h).symm
    · cases h
  | detach =>
    simp only [shutdownStep] at h
    split at h
    · exact absurd ‹_› hthr
    · exact .inr (Option.some.inj h).symm

omit [DecidableEq T] in
theorem WorkMove.thr {m m' : Memory w J} {p p' : WorkerPc w} (h : WorkMove m p m' p') :
    m'.thr = m.thr := by
  cases h <;> rfl

omit [DecidableEq T] in
theorem RequestMove.thr {job : Job J} {m m' : Memory w J} {pc : RequestPc w} {next}
    (h : RequestMove size job m pc m' next) : m'.thr = m.thr := by
  cases h <;> rfl

/-- A step of the thread. -/
theorem Closing.work (h : Closing size s) {k : Nat} {m : Memory w J} {p : WorkerPc w}
    (hs : Stepped size s (.work k) s') (hm : WorkMove s.mem (s.threads k) m p)
    (hquiet : s.QuietLoad (.work k)) (hmem : s'.mem = m) (hcallers : s'.callers = s.callers)
    (hthreads : s'.threads = Function.update s.threads k p) : Closing size s' := by
  obtain rfl : k = 0 := by
    by_contra hk
    exact h.others k hk hm.inMain
  obtain ⟨new, hlog, hnew⟩ := hs.log (by simp [System.Stops])
  have hthr : s'.mem.thr = s.mem.thr := by rw [hmem, hm.thr]
  have hreq : s'.requests = s.requests := by
    funext t
    simp [System.requests, hcallers]
  constructor
  case runner => exact h.runner.step hs
  case agreed =>
    rw [hmem, hthreads, hreq, Function.update_self]
    exact h.agreed.work hm hquiet
  case others =>
    intro j hj
    rw [hthreads, Function.update_of_ne hj]
    exact h.others j hj
  case called => exact h.called.append hlog
  case outside => rw [hcallers]; exact h.outside
  case one => rw [hcallers]; exact h.one
  case silent =>
    intro t ht
    rw [hcallers] at ht
    exact (h.silent t ht).append hlog hnew
  case handle =>
    -- a thread that steps is born
    intro t ht
    rw [hcallers] at ht
    rcases h.handle t ht with hne | ⟨hunborn, -⟩
    · exact .inl (by rwa [hthr])
    · rw [hunborn] at hm
      exact absurd hm.inMain id
  case positive => rw [hcallers]; exact h.positive
  case dismissed => exact h.dismissed.append hlog hnew hthr

theorem Closing.step (h : Closing size s) (hstep : s.step size a = some s')
    (hone : s.OneShutdown a) (hquiet : s.QuietLoad a) (hroom : s.HasRoom size a) :
    Closing size s' := by
  have hs := (System.step_cases hstep).2
  have hs' := hs
  cases hs with
  | call t call ht =>
    have hreq : s.requests t = none := by simp [System.requests, ht, CallerPc.requesting]
    cases call with
    | request job throwing =>
      exact h.caller hs' _ (t := t) rfl rfl rfl (by simp [Event.OfShutdown]) rfl id
        (fun hin => hin.elim) (by simp [Call.enter]) (h.agreed.aside hreq (.inr rfl))
    | start => exact absurd h.called hone
    | shutdown sync => exact absurd h.called hone.1
  | request t who pc pc' m ht hm =>
    have hreq : s.requests t = some pc := System.requests_request ht
    refine h.caller hs' _ (t := t) rfl rfl rfl ?_ hm.thr id ?_ ?_ (h.agreed.request hreq hm)
    · intro e he
      cases pc <;> cases pc' <;> simp_all [placedEvents, Event.OfShutdown]
    · intro hin
      have ht' : (s.callers t).InShutdown := by
        rw [ht]
        cases who <;> exact hin
      exact ⟨ht', h.joinable ht' (by simp [ht])⟩
    · intro sync old hpc
      obtain ⟨-, rfl⟩ := CallerPc.request.inj hpc
      exact h.agreed.positive hreq hm
  | answered t who pc m count ht hm =>
    have hreq : s.requests t = some pc := System.requests_request ht
    have hagreed := h.agreed.request hreq hm
    cases who with
    | user job throwing =>
      simp only [System.answer] at hs' ⊢
      split at hs' <;> rename_i hc
      · rw [if_pos hc]
        exact h.caller hs' _ (t := t) rfl rfl rfl (by simp [Event.OfShutdown]) hm.thr id
          (fun hin => hin.elim) (by simp) hagreed
      · rw [if_neg hc]
        exact h.caller hs' _ (t := t) rfl rfl rfl (by simp [Event.OfShutdown]) hm.thr id
          (fun hin => hin.elim) (by simp) hagreed
    | shutdown sync =>
      have ht' : (s.callers t).InShutdown := by
        rw [ht]
        trivial
      -- the dummy was placed, and its count is not zero
      have hcount : count ≠ 0 := by
        cases hm with
        | refused hfull =>
          have hlt := h.agreed.room_iff.mp (hroom ⟨sync, ht⟩)
          omega
        | requested old => exact h.positive t sync old ht
      simp only [System.answer, if_neg hcount] at hs' ⊢
      exact h.inside hs' ht' (h.joinable ht' (by simp [ht])) rfl rfl rfl hm.thr hagreed
  | satisfied t who pc m ht hm | nullPromise t who pc m ht hm =>
    obtain ⟨count, hcount⟩ := h.agreed.result (System.requests_request ht) hm
    cases hcount
  | started t ht | notStarted t ht | launch t ht | assign t k ht | joinableThread t k ht =>
    exact absurd (by rw [ht]; trivial) (h.outside t)
  | stopped t sync ht hrun =>
    obtain ⟨ht', hreq⟩ := System.inShutdown ht
    have hthr : s.mem.thr ≠ none := by
      rcases h.handle t ht' with hthr | ⟨hunborn, -⟩
      · exact hthr
      · exact absurd hunborn (h.born hrun)
    refine h.inside hs' ht' hthr rfl rfl rfl rfl ?_
    rw [← hreq, Function.update_eq_self]
    exact h.agreed.stop hrun
  | notStopped t sync ht hne =>
    obtain ⟨ht', hreq⟩ := System.inShutdown ht
    exact h.finish hs' ht' hreq rfl rfl rfl (.inl rfl) h.agreed
  | wake t sync ht hz =>
    obtain ⟨ht', hreq⟩ := System.inShutdown ht
    exact h.caller hs' [] (t := t) rfl rfl rfl (by simp) rfl id
      (fun _ => ⟨ht', h.joinable ht' (by simp [ht])⟩) (by simp) (h.agreed.aside hreq (.inr rfl))
  | noWake t sync ht hnz =>
    obtain ⟨ht', hreq⟩ := System.inShutdown ht
    exact h.inside hs' ht' (h.joinable ht' (by simp [ht])) rfl rfl rfl rfl
      (h.agreed.aside hreq (.inl rfl))
  | tail t sync pc pc' thr ht hpc | tailEnd t sync pc thr result ht hpc =>
    obtain ⟨ht', hreq⟩ := System.inShutdown ht
    have hpast : ∀ sync, s.callers t ≠ .shutdown sync .exchange := by
      intro sync' heq
      rw [ht] at heq
      obtain ⟨-, rfl⟩ := CallerPc.shutdown.inj heq
      exact hpc
    have hthr := h.joinable ht' hpast
    rcases System.step_handle ht hpc hthr hstep with ⟨pc', heq⟩ | heq
    · rw [heq] at hs' ⊢
      exact h.inside hs' ht' hthr rfl rfl rfl rfl (h.agreed.aside hreq (.inl rfl))
    · rw [heq] at hs' ⊢
      exact h.finish hs' ht' hreq rfl rfl rfl (.inr ⟨rfl, rfl⟩) (h.agreed.assign none)
  | work k m p hm => exact h.work hs' hm hquiet rfl rfl rfl

/-- A caller that stores no thread leaves the handle as good as it was. -/
theorem Opened.keep (h : Opened size s) {t : T} {p : CallerPc w J}
    (hcallers : s'.callers = Function.update s.callers t p) (hthreads : s'.threads = s.threads)
    (hthr : s'.mem.thr = s.mem.thr) (ht : ∀ k, s.callers t ≠ .start (.assign k))
    (hnone : s'.mem.thr = none) :
    s'.threads 0 = .unborn ∨ ∃ t k, s'.callers t = .start (.assign k) := by
  rw [hthr] at hnone
  rw [hthreads]
  rcases h.handle hnone with hunborn | ⟨u, k, hu⟩
  · exact .inl hunborn
  · have hut : u ≠ t := by
      intro heq
      rw [heq] at hu
      exact ht k hu
    exact .inr ⟨u, k, by rw [hcallers, Function.update_of_ne hut, hu]⟩

/-- Between the launch of the thread and its storing the caller is at the assignment. -/
theorem Opened.assigned (h : Opened size s) (hs : Stepped size s a s') (ha : ¬ s.Stops a)
    (hnone : s'.mem.thr = none) :
    s'.threads 0 = .unborn ∨ ∃ t k, s'.callers t = .start (.assign k) := by
  cases hs with
  | call t call ht => exact h.keep (t := t) rfl rfl rfl (by simp [ht]) hnone
  | request t who pc pc' m ht hm => exact h.keep (t := t) rfl rfl hm.thr (by simp [ht]) hnone
  | answered t who pc m count ht hm =>
    obtain ⟨p, new, heq, -⟩ := answer_goto { s with mem := m } t count who
    rw [heq] at hnone ⊢
    exact h.keep (t := t) rfl rfl hm.thr (by simp [ht]) hnone
  | satisfied t who pc m ht hm => exact h.keep (t := t) rfl rfl hm.thr (by simp [ht]) hnone
  | nullPromise t who pc m ht hm =>
    have hthr : m.thr = none := hnone
    rw [hm.thr] at hthr
    exact h.handle hthr
  | started t ht | notStarted t ht => exact h.keep (t := t) rfl rfl rfl (by simp [ht]) hnone
  | launch t ht => exact .inr ⟨t, s.launched, Function.update_self ..⟩
  | assign t k ht => cases hnone
  | joinableThread t k ht => exact h.handle hnone
  | stopped t sync ht | notStopped t sync ht | wake t sync ht | noWake t sync ht
  | tail t sync pc pc' thr ht | tailEnd t sync pc thr result ht =>
    exact absurd (System.inShutdown ht).1 ha
  | work k m p hm =>
    have hthr : m.thr = none := hnone
    rw [hm.thr] at hthr
    obtain rfl := h.serving.only hm.inMain
    rcases h.handle hthr with hunborn | hassign
    · rw [hunborn] at hm
      exact absurd hm.inMain id
    · exact .inr hassign

/-- A step before the call of `shutdown`. -/
theorem Opened.step (h : Opened size s) (hs : Stepped size s a s') (hopen : a.NoShutdown)
    (hquiet : s.QuietLoad a) : Opened size s' := by
  have hstops : ¬ s.Stops a := by
    cases a with
    | call t call =>
      cases call with
      | request | start => exact id
      | shutdown sync => exact absurd hopen id
    | run t => exact h.serving.outside t
    | work k => exact id
  obtain ⟨new, hlog, hnew⟩ := hs.log hstops
  refine ⟨h.serving.step hs hopen hquiet, ?_, h.silent.append hlog hnew, h.assigned hs hstops⟩
  intro hcalled
  obtain ⟨t, sync, hmem⟩ := hcalled
  rw [hlog] at hmem
  rcases List.mem_append.mp hmem with hold | hin
  · exact h.uncalled ⟨t, sync, hold⟩
  · exact hnew _ hin trivial

/-- The call of `shutdown`. -/
theorem Opened.close (h : Opened size s) {t : T} {sync : Bool}
    (hs : Stepped size s (.call t (.shutdown sync)) s')
    (hstart : ∀ u, ¬ (s.callers u).InStart) : Closing size s' := by
  have hrunner := h.serving.runner.step hs
  obtain ⟨hreq, hcallers, hmem, hthreads, hlog⟩ : s.requests t = none ∧
      s'.callers = Function.update s.callers t (.shutdown sync .exchange) ∧ s'.mem = s.mem ∧
      s'.threads = s.threads ∧ s'.log = s.log ++ [.called t (.shutdown sync)] := by
    cases hs with
    | call _ _ ht => exact ⟨by rw [System.requests, ht]; rfl, rfl, rfl, rfl, rfl⟩
  have hself : s'.callers t = .shutdown sync .exchange := by rw [hcallers, Function.update_self]
  have honly : ∀ u, (s'.callers u).InShutdown → u = t := by
    intro u hu
    rw [hcallers] at hu
    rcases of_update hu with ⟨hut, -⟩ | ⟨-, hu⟩
    · exact hut
    · exact absurd hu (h.serving.outside u)
  have hsilent : s'.Silent := by
    intro u sync' r hin
    rw [hlog] at hin
    exact h.silent u sync' r (by simpa using hin)
  constructor
  case runner => exact hrunner
  case agreed =>
    rw [hmem, hthreads, requests_update hcallers]
    exact h.serving.handshake.agreed.aside hreq (.inl rfl)
  case others => rw [hthreads]; exact h.serving.others
  case called => exact ⟨t, sync, by simp [hlog]⟩
  case outside =>
    intro u hu
    rw [hcallers] at hu
    rcases of_update hu with ⟨-, hp⟩ | ⟨-, hu⟩
    · exact hp
    · exact hstart u hu
  case one => exact fun u v hu hv => (honly u hu).trans (honly v hv).symm
  case silent => exact fun u _ => hsilent
  case handle =>
    intro u hu
    obtain rfl := honly u hu
    rw [hmem, hthreads]
    by_cases hthr : s.mem.thr = none
    · rcases h.handle hthr with hunborn | ⟨v, k, hv⟩
      · exact .inr ⟨hunborn, sync, hself⟩
      · exact absurd (by rw [hv]; trivial) (hstart v)
    · exact .inl hthr
  case positive =>
    intro u sync' old hu
    obtain rfl := honly u (by rw [hu]; trivial)
    rw [hself] at hu
    cases hu
  case dismissed => exact fun u sync' r hin => absurd hin (hsilent u sync' r)

/-! ## Runs -/

/-- Before the call and after it. -/
def Orderly (size : QueueSize w) (s : System w J T) : Prop := Opened size s ∨ Closing size s

omit [DecidableEq T] in
theorem Orderly.dismissed (h : Orderly size s) : s.Dismissed := by
  rcases h with hopen | hclosing
  · exact fun t sync r hmem => absurd hmem (hopen.silent t sync r)
  · exact hclosing.dismissed

theorem Orderly.step (h : Orderly size s) (hstep : s.step size a = some s')
    (hone : s.OneShutdown a) (hquiet : s.QuietLoad a) (hroom : s.HasRoom size a) :
    Orderly size s' := by
  rcases h with hopen | hclosing
  · have hs := (System.step_cases hstep).2
    by_cases ha : a.NoShutdown
    · exact .inl (hopen.step hs ha hquiet)
    · cases a with
      | call t call =>
        cases call with
        | shutdown sync => exact .inr (hopen.close hs hone.2)
        | request | start => exact absurd trivial ha
      | run | work => exact absurd trivial ha
  · exact .inr (hclosing.step hstep hone hquiet hroom)

/-- Without room the dummy is refused, and `shutdown` throws. -/
theorem Orderly.refuse (h : Orderly size s) (hstep : s.step size a = some s')
    (hroom : ¬ s.HasRoom size a) : ¬ s'.Dismissed := by
  cases a with
  | call t call | work k => exact absurd trivial hroom
  | run t =>
    obtain ⟨⟨sync, ht⟩, hfull⟩ := Classical.not_imp.mp hroom
    rcases h with hopen | hclosing
    · exact absurd (by rw [ht]; trivial) (hopen.serving.outside t)
    rw [hclosing.agreed.room_iff] at hfull
    have hlog : s'.log = s.log ++ [.returned t (.shutdown sync) (.threw .workerIsBusy)] := by
      simp only [System.step, (System.step_cases hstep).1, if_true, System.next, ht, requestStep,
        Fifo.enqueue_full _ (not_lt.mp hfull), System.afterRequest, System.answer] at hstep
      obtain rfl := Option.some.inj hstep
      rfl
    intro hdismissed
    have hmem : .returned t (.shutdown sync) (.threw .workerIsBusy) ∈ s'.log := by simp [hlog]
    have hres := hdismissed t sync _ hmem
    simp at hres

theorem orderly_run {tr : List (System w J T × Action J T)}
    (h : Run (System.step size) System.init tr s) (hone : Meets System.OneShutdown tr)
    (hquiet : Meets System.QuietLoad tr) (hroom : Meets (System.HasRoom size) tr) :
    Orderly size s :=
  h.invariant (C := fun m a => m.OneShutdown a ∧ m.QuietLoad a ∧ m.HasRoom size a)
    (.inl opened_init) (fun _ _ _ hi ha hs => hi.step hs ha.1 ha.2.1 ha.2.2)
    fun p hp => ⟨hone p hp, hquiet p hp, hroom p hp⟩

/-- `shutdown` throws nothing, and returns with the thread joined or detached if it found the
worker running, if and only if there is room for its dummy when it comes to place it. -/
theorem dismissed_iff_room {tr : List (System w J T × Action J T)}
    (h : Run (System.step size) System.init tr s) (hone : Meets System.OneShutdown tr)
    (hquiet : Meets System.QuietLoad tr) :
    (∀ m ∈ visited tr s, m.Dismissed) ↔ Meets (System.HasRoom size) tr := by
  induction h with
  | nil =>
    have hinit : Orderly size (System.init : System w J T) := .inl opened_init
    simpa [visited, meets_nil] using hinit.dismissed
  | @snoc tr m s' a hr hs ih =>
    obtain ⟨hone, hone'⟩ := meets_snoc.mp hone
    obtain ⟨hquiet, hquiet'⟩ := meets_snoc.mp hquiet
    have hiff := ih hone hquiet
    rw [meets_snoc]
    refine ⟨?_, ?_⟩
    · intro hall
      have hmeets := hiff.mp fun x hx => hall x (mem_visited_snoc.mpr (.inl hx))
      refine ⟨hmeets, ?_⟩
      by_contra hfull
      have horderly := orderly_run hr hone hquiet hmeets
      exact horderly.refuse hs hfull (hall s' (mem_visited_snoc.mpr (.inr rfl)))
    · intro hmeets x hx
      rcases mem_visited_snoc.mp hx with hx | rfl
      · exact hiff.mpr hmeets.1 x hx
      · have horderly := orderly_run hr hone hquiet hmeets.1
        exact (horderly.step hs hone' hquiet' hmeets.2).dismissed

/-! ## From the reading of the count to the dummy -/

omit [DecidableEq T] in
theorem RequestMove.placing {t : T} {who : Requester J} {pc : RequestPc w} {m : Memory w J}
    {next} (ht : s.callers t = .request who pc) (hm : RequestMove size who.job s.mem pc m next) :
    m.queue.length = s.mem.queue.length + s.placing size (.run t) := by
  simp only [System.placing, System.requests_request ht, Option.some.injEq]
  exact hm.queue_length

theorem Stepped.balance (hs : Stepped size s a s') :
    s'.mem.queue.length + s.taking a = s.mem.queue.length + s.placing size a := by
  have haside : ∀ t, s.requests t = none → s.placing size (.run t) = 0 := by
    intro t ht
    simp [System.placing, ht]
  cases hs with
  | call => rfl
  | work k m p hm => exact hm.queue_length
  | request t who pc pc' m ht hm | satisfied t who pc m ht hm | nullPromise t who pc m ht hm =>
    exact hm.placing ht
  | answered t who pc m count ht hm =>
    obtain ⟨p, new, heq, -⟩ := answer_goto { s with mem := m } t count who
    rw [heq]
    exact hm.placing ht
  | started t ht | notStarted t ht | launch t ht | assign t k ht | joinableThread t k ht
  | stopped t sync ht | notStopped t sync ht | wake t sync ht | noWake t sync ht
  | tail t sync pc pc' thr ht | tailEnd t sync pc thr result ht =>
    rw [haside t (by simp [System.requests, ht, CallerPc.requesting])]
    rfl

/-- What is in the queue at the end of a run. -/
theorem queue_balance {tr : List (System w J T × Action J T)} {m : System w J T}
    (h : Run (System.step size) m tr s) :
    s.mem.queue.length + total System.taking tr =
      m.mem.queue.length + total (System.placing size) tr := by
  induction h with
  | nil => rfl
  | snoc _ hs ih =>
    have hstep := (System.step_cases hs).2.balance
    simp only [total_append, total_cons, total_nil]
    omega

/-- A caller comes to the enqueue of a dummy from the reading of a count of 0. -/
theorem Stepped.dummy (hs : Stepped size s a s') {t : T} {sync : Bool}
    (ht : s'.callers t = .request (.shutdown sync) .enqueue) :
    s.callers t = .request (.shutdown sync) .enqueue ∨
      a = .run t ∧ s.callers t = .shutdown sync .loadRemained ∧ s.mem.remained = 0 := by
  have hmoved : ∀ {u p}, s'.callers = Function.update s.callers u p →
      p ≠ .request (.shutdown sync) .enqueue →
      s.callers t = .request (.shutdown sync) .enqueue := by
    intro u p hcallers hp
    rw [hcallers] at ht
    by_cases hut : t = u
    · rw [hut, Function.update_self] at ht
      exact absurd ht hp
    · rwa [Function.update_of_ne hut] at ht
  cases hs with
  | call u call => exact .inl (hmoved rfl (by cases call <;> simp [Call.enter]))
  | request u who pc pc' m hu hm => exact .inl (hmoved rfl (by cases hm <;> simp))
  | answered u who pc m count hu hm =>
    cases who with
    | user job throwing =>
      simp only [System.answer] at hmoved
      split at hmoved <;> exact .inl (hmoved rfl (by simp))
    | shutdown sync' =>
      simp only [System.answer] at hmoved
      split at hmoved <;> exact .inl (hmoved rfl (by simp))
  | wake u sync' hu hz =>
    have ht' : Function.update s.callers u (.request (.shutdown sync') .enqueue) t =
        .request (.shutdown sync) .enqueue := ht
    by_cases hut : t = u
    · subst hut
      rw [Function.update_self] at ht'
      cases ht'
      exact .inr ⟨rfl, hu, hz⟩
    · rw [Function.update_of_ne hut] at ht'
      exact .inl ht'
  | nullPromise | joinableThread | work => exact .inl ht
  | satisfied | started | notStarted | launch | assign | stopped | notStopped | noWake | tail
  | tailEnd => exact .inl (hmoved rfl (by simp))

/-- A dummy is placed after a reading of a count of 0. -/
theorem dummy_read {tr : List (System w J T × Action J T)}
    (h : Run (System.step size) System.init tr s) {t : T} {sync : Bool}
    (ht : s.callers t = .request (.shutdown sync) .enqueue) :
    ∃ before m during, tr = before ++ (m, .run t) :: during ∧
      m.callers t = .shutdown sync .loadRemained ∧ m.mem.remained = 0 := by
  induction h with
  | nil => simp [System.init] at ht
  | @snoc tr x s' a _ hs ih =>
    rcases (System.step_cases hs).2.dummy ht with hbefore | ⟨rfl, hload, hz⟩
    · obtain ⟨before, m, during, rfl, hm⟩ := ih hbefore
      exact ⟨before, m, during ++ [(x, a)], by simp, hm⟩
    · exact ⟨tr, x, [], rfl, hload, hz⟩

/-- Between the two the room is counted by what is placed and taken. -/
theorem Agreed.room_since {m z : System w J T} {during : List (System w J T × Action J T)} {t : T}
    {sync : Bool} (hm : Agreed size m.mem (m.threads 0) m.requests)
    (hload : m.callers t = .shutdown sync .loadRemained) (hzero : m.mem.remained = 0)
    (h : Run (System.step size) m ((m, .run t) :: during) z) :
    (∃ U, Census (· = some .fetchAdd) m.requests U ∧
      U.card + total (System.placing size) during <
        size.slots + (m.threads 0).inHand + total System.taking during) ↔
      z.mem.queue.length < size.slots := by
  have hbalance := queue_balance h
  have hplacing : m.placing size (.run t) = 0 := by
    simp [System.placing, System.requests, hload, CallerPc.requesting]
  have htaking : m.taking (.run t) = 0 := rfl
  rw [total_cons, total_cons, hplacing, htaking, Nat.zero_add, Nat.zero_add] at hbalance
  obtain ⟨U, hU, hcount⟩ := hm.counts
  have hnone : m.mem.remained.toNat = 0 := by simp [hzero]
  rw [hnone, Nat.zero_add] at hcount
  refine ⟨?_, ?_⟩
  · intro hroom
    obtain ⟨V, hV, hlt⟩ := hroom
    obtain rfl : U = V := Finset.ext fun u => (hU u).trans (hV u).symm
    omega
  · intro hlt
    exact ⟨U, hU, by omega⟩

omit [DecidableEq T] in
theorem Orderly.agreed (h : Orderly size s) : Agreed size s.mem (s.threads 0) s.requests := by
  rcases h with hopen | hclosing
  · exact hopen.serving.handshake.agreed
  · exact hclosing.agreed

omit [DecidableEq T] in
theorem RoomForDummy.before {tr after : List (System w J T × Action J T)}
    (h : RoomForDummy size (tr ++ after)) : RoomForDummy size tr := by
  intro before m t sync during z rest heq
  exact h before m t sync during z (rest ++ after) (by simp [heq])

/-- There is room at the placing if there is by what was read and has been placed and taken. -/
theorem hasRoom_iff {tr : List (System w J T × Action J T)}
    (h : Run (System.step size) System.init tr s) (hone : Meets System.OneShutdown tr)
    (hquiet : Meets System.QuietLoad tr) :
    Meets (System.HasRoom size) tr ↔ RoomForDummy size tr := by
  refine ⟨?_, ?_⟩
  · intro hroom before m t sync during z after heq hload hzero hz
    rw [heq] at h hone hquiet hroom
    obtain ⟨hone', -⟩ := meets_append.mp hone
    obtain ⟨hquiet', -⟩ := meets_append.mp hquiet
    obtain ⟨hroom', hrest⟩ := meets_append.mp hroom
    obtain ⟨z', hz', hafter⟩ := h.split
    obtain ⟨rfl, -⟩ := hafter.cons
    obtain ⟨m', hm', hduring⟩ := hz'.split
    obtain ⟨rfl, -⟩ := hduring.cons
    have hatz := (orderly_run hz' hone' hquiet' hroom').agreed
    have hatm := (orderly_run hm' (meets_append.mp hone').1 (meets_append.mp hquiet').1
      (meets_append.mp hroom').1).agreed
    rw [hatm.room_since hload hzero hduring, ← hatz.room_iff]
    exact (meets_cons.mp hrest).1 ⟨sync, hz⟩
  · intro hroom
    induction h with
    | nil => exact meets_nil _
    | @snoc tr z s' a hr hs ih =>
      obtain ⟨hone', -⟩ := meets_snoc.mp hone
      obtain ⟨hquiet', -⟩ := meets_snoc.mp hquiet
      have hmeets := ih hone' hquiet' hroom.before
      refine meets_snoc.mpr ⟨hmeets, ?_⟩
      cases a with
      | call | work => trivial
      | run t =>
        intro hdummy
        obtain ⟨sync, hz⟩ := hdummy
        obtain ⟨before, m, during, rfl, hload, hzero⟩ := dummy_read hr hz
        obtain ⟨m', hm', hduring⟩ := hr.split
        obtain ⟨rfl, -⟩ := hduring.cons
        have hatz := (orderly_run hr hone' hquiet' hmeets).agreed
        have hatm := (orderly_run hm' (meets_append.mp hone').1 (meets_append.mp hquiet').1
          (meets_append.mp hmeets).1).agreed
        rw [hatz.room_iff, ← hatm.room_since hload hzero hduring]
        exact hroom before _ t sync during z [] (by simp) hload hzero hz

/-- **The dummy of `shutdown`**. With any callers and any queue size, in a run with one
call of `shutdown`, after those of `start`, and a quiet first load: `shutdown` throws
nothing, and returns with the thread joined or detached if it found the worker running,
if and only if the jobs not counted when it reads that none is counted and those placed from
there leave room for its dummy. -/
theorem dismissed_iff {tr : List (System w J T × Action J T)}
    (h : Run (System.step size) System.init tr s) (hone : Meets System.OneShutdown tr)
    (hquiet : Meets System.QuietLoad tr) :
    (∀ m ∈ visited tr s, m.Dismissed) ↔ RoomForDummy size tr :=
  (dismissed_iff_room h hone hquiet).trans (hasRoom_iff h hone hquiet)

end

/-- The jobs that are placed and not counted, counted. -/
theorem hasRoom_run [Fintype T] {size : QueueSize w} {s : System w J T} {t : T} :
    ((∃ sync, s.callers t = .request (.shutdown sync) .enqueue) →
      s.mem.remained.toNat + (Finset.univ.filter fun u => s.requests u = some .fetchAdd).card <
        size.slots + (s.threads 0).inHand) ↔ s.HasRoom size (.run t) := by
  refine imp_congr_right fun _ => ⟨fun hlt => ⟨_, ?_, hlt⟩, ?_⟩
  · intro u
    simp
  · intro hroom
    obtain ⟨U, hU, hlt⟩ := hroom
    have heq : (Finset.univ.filter fun u => s.requests u = some .fetchAdd) = U := by
      ext u
      simp [hU u]
    rwa [heq]

section
variable [Fintype T] [DecidableEq T] [DecidableEq J]

instance (s : System w J T) : Decidable s.ShutdownCalled :=
  inferInstanceAs (Decidable (∃ t sync, .called t (.shutdown sync) ∈ s.log))

instance (s : System w J T) : ∀ a, Decidable (s.OneShutdown a)
  | .call _ .start => inferInstanceAs (Decidable (¬ s.ShutdownCalled))
  | .call _ (.shutdown _) =>
    inferInstanceAs (Decidable (¬ s.ShutdownCalled ∧ ∀ t, ¬ (s.callers t).InStart))
  | .call _ (.request _ _) | .run _ | .work _ => isTrue trivial

instance (size : QueueSize w) (s : System w J T) : ∀ a, Decidable (s.HasRoom size a)
  | .run _ => decidable_of_iff _ hasRoom_run
  | .call _ _ | .work _ => isTrue trivial

end

/-- A job is placed and not counted when `shutdown` places its dummy beside it. -/
def besideJob : List (Action Nat Bool) :=
  calls false .start 3 ++ works 0 4 ++ calls false (.request 7 false) 1 ++
    calls true (.shutdown true) 10 ++ works 0 9 ++ runs true 1

theorem dismissed_iff_beside : ∃ (tr : _) (s : System 64 Nat Bool),
    Run (System.step twoJobs) System.init tr s ∧ tr.map Prod.snd = besideJob ∧
      .returned true (.shutdown true) (.done true) ∈ s.log ∧
      (∀ m ∈ visited tr s, m.Dismissed) ∧ RoomForDummy twoJobs tr := by
  have hrun : ∃ (tr : _) (s : System 64 Nat Bool), Run (System.step twoJobs) System.init tr s ∧
      Meets (fun m a => m.OneShutdown a ∧ m.QuietLoad a ∧ m.HasRoom twoJobs a) tr ∧
      tr.map Prod.snd = besideJob ∧ .returned true (.shutdown true) (.done true) ∈ s.log :=
    Run.of_execMeets_any _ (by decide)
  obtain ⟨tr, s, hr, hok, ha, hreturned⟩ := hrun
  have hone : Meets System.OneShutdown tr := fun p hp => (hok p hp).1
  have hquiet : Meets System.QuietLoad tr := fun p hp => (hok p hp).2.1
  have hroom : Meets (System.HasRoom twoJobs) tr := fun p hp => (hok p hp).2.2
  have hdummy := (hasRoom_iff hr hone hquiet).mp hroom
  exact ⟨tr, s, hr, ha, hreturned, (dismissed_iff hr hone hquiet).mpr hdummy, hdummy⟩

theorem one_allocated : 1 * 2 < 2 ^ 64 := by decide

/-- A queue of one job. -/
def oneJob : QueueSize 64 := ⟨1, Nat.one_pos, one_allocated⟩

/-- The job takes the only place, and `shutdown` reads that nothing is counted. -/
def beforeCount : List (Action Nat Bool) :=
  calls false .start 3 ++ works 0 4 ++ calls false (.request 7 false) 1 ++
    calls true (.shutdown true) 3

theorem dummy_refused : ∃ (tr : _) (s : System 64 Nat Bool),
    Run (System.step oneJob) System.init tr s ∧ Meets System.OneShutdown tr ∧
      Meets System.QuietLoad tr ∧ tr.map Prod.snd = beforeCount ∧
      .returned true (.shutdown true) (.threw .workerIsBusy) ∈ s.log ∧
      s.mem.state = .shutdown ∧ s.mem.thr = some 0 ∧ ¬ s.Dismissed := by
  have hrun : ∃ (tr : _) (s : System 64 Nat Bool), Run (System.step oneJob) System.init tr s ∧
      Meets (fun m a => m.OneShutdown a ∧ m.QuietLoad a) tr ∧ tr.map Prod.snd = beforeCount ∧
      (.returned true (.shutdown true) (.threw .workerIsBusy) ∈ s.log ∧
        s.mem.state = .shutdown ∧ s.mem.thr = some 0) :=
    Run.of_execMeets_any _ (by decide)
  obtain ⟨tr, s, hr, hok, ha, hthrew, hst, hthr⟩ := hrun
  have hone : Meets System.OneShutdown tr := fun p hp => (hok p hp).1
  have hquiet : Meets System.QuietLoad tr := fun p hp => (hok p hp).2
  refine ⟨tr, s, hr, hone, hquiet, ha, hthrew, hst, hthr, ?_⟩
  intro hdismissed
  have hres := hdismissed true true _ hthrew
  simp at hres

end Vee.Worker
