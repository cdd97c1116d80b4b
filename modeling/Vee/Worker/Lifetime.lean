import Vee.Worker.Dummy

/- What a worker is to the one caller that starts it and shuts it down.

   The owner of a worker calls `start` and `shutdown`, the last time in its destructor,
   while others call `request`. To the owner the worker is off, on, or leaving after a
   `shutdown(false)` (`Life`), and `Life.answer` says what each call may return there and
   what it leads to. Every run with one such caller follows this machine: `start` never
   assigns to a joinable thread, `join` and `detach` never fail, and a `shutdown(true)`
   leaves no thread behind unless the worker was leaving already. The one thing assumed is
   that no `shutdown` has thrown at its own request, since it keeps a joinable thread then. -/
namespace Vee.Worker
open Transition Counting
open Lockfree (Next)

variable {w : Nat} {J T : Type*}

/-- What a worker is to its owner. -/
inductive Life where
  | off
  | on
  /-- detached, and perhaps still in `_worker_main` -/
  | leaving
  deriving DecidableEq, Repr

/-- What a call may return to the owner, and what the worker is then. -/
def Life.answer : Life → Call J → Result w → Option Life
  | l, .request _ _, _ => some l
  | .off, .start, .done true | .leaving, .start, .done true => some .on
  | .on, .start, .done false => some .on
  | .leaving, .start, .done false => some .leaving
  | .on, .shutdown sync, .done true => some (if sync then .off else .leaving)
  | .off, .shutdown _, .done false => some .off
  | .leaving, .shutdown _, .done false => some .leaving
  | _, _, _ => none

def Life.after (l : Life) : Event w J T → Option Life
  | .returned _ call r => l.answer call r
  | _ => some l

/-- What the worker is after the calls of a log, none if it refuses one of them. -/
def lifeOf (log : List (Event w J T)) : Option Life :=
  log.foldl (fun l e => l.bind (·.after e)) (some .off)

/-- Only `c` calls `start` and `shutdown`. -/
def Action.ControlledBy (c : T) : Action J T → Prop
  | .call t .start | .call t (.shutdown _) => t = c
  | _ => True

instance [DecidableEq T] (c : T) : ∀ a : Action J T, Decidable (a.ControlledBy c)
  | .call t .start | .call t (.shutdown _) => inferInstanceAs (Decidable (t = c))
  | .call _ (.request _ _) | .run _ | .work _ => isTrue trivial

/-- In `start` or in `shutdown`, its request included. -/
def CallerPc.Controls : CallerPc w J → Prop
  | idle | request (.user _ _) _ => False
  | _ => True

/-- No `shutdown` has thrown at the request that wakes the worker. -/
def System.Woken (s : System w J T) : Prop :=
  ∀ t sync e, .returned t (.shutdown sync) (.threw e) ∈ s.log → e = .systemError

/-- The worker is what its owner takes it for. -/
def System.Is (s : System w J T) : Life → Prop
  | .off => s.mem.state = .standby ∧ s.mem.thr = none ∧ ∀ k, ¬ (s.threads k).InMain
  | .on => s.mem.state = .running ∧ ∃ k, s.mem.thr = some k ∧ ∀ j, (s.threads j).InMain ↔ j = k
  | .leaving =>
    s.mem.state ≠ .running ∧ s.mem.thr = none ∧
      (s.mem.state = .shutdown ↔ ∃ k, (s.threads k).InMain)

/-! ## The state at each point of a call of the owner -/

/-- The state that the steps of the owner and of the worker's thread depend on. -/
structure View where
  state : State
  thr : Option Nat
  InMain : Nat → Prop

def System.view (s : System w J T) : View :=
  { state := s.mem.state
    thr := s.mem.thr
    InMain := fun k => (s.threads k).InMain }

/-- Between the calls of the owner. -/
def View.Rest (v : View) : Life → Prop
  | .off => v.state = .standby ∧ v.thr = none
  | .on => v.state = .running ∧ ∃ k, v.thr = some k ∧ v.InMain k
  | .leaving => v.state ≠ .running ∧ v.thr = none

/-- The owner has stopped the worker, and `thr` stands for its thread. -/
def View.Stopped (v : View) (l : Life) (k : Nat) : Prop :=
  l = .on ∧ v.state ≠ .running ∧ v.thr = some k ∧ ∀ j, v.InMain j → j = k

/-- The state that the owner's call relies on. -/
def View.Kept (v : View) (l : Life) : CallerPc w J → Prop
  | .idle | .request (.user _ _) _ | .start .exchange | .shutdown _ .exchange => v.Rest l
  | .start .launch => v.state = .running ∧ v.thr = none ∧ l ≠ .on
  | .start (.assign k) => v.state = .running ∧ v.thr = none ∧ l ≠ .on ∧ v.InMain k
  | .request (.shutdown _) _ | .shutdown _ .loadRemained | .shutdown _ .joinable =>
    ∃ k, v.Stopped l k
  | .shutdown sync .join => sync = true ∧ ∃ k, v.Stopped l k
  | .shutdown sync (.joining k) => sync = true ∧ v.Stopped l k
  | .shutdown sync .detach => sync = false ∧ ∃ k, v.Stopped l k

/-- What holds in every state of a run in which `c` is the owner. -/
structure Owned (c : T) (s : System w J T) : Prop where
  runner : SingleRunner s
  others : ∀ t, t ≠ c → ¬ (s.callers t).Controls
  sound : s.Woken → s.fault ≠ some .joinableThread
  kept : s.Woken → ∃ l, lifeOf s.log = some l ∧ s.view.Kept l (s.callers c)

section
variable {s s' : System w J T} {c : T} {l : Life}

theorem lifeOf_append (log new : List (Event w J T)) :
    lifeOf (log ++ new) = new.foldl (fun l e => l.bind (·.after e)) (lifeOf log) := by
  unfold lifeOf
  rw [List.foldl_append]

theorem lifeOf_snoc (log : List (Event w J T)) (e : Event w J T) :
    lifeOf (log ++ [e]) = (lifeOf log).bind (·.after e) := by
  rw [lifeOf_append]
  rfl

theorem lifeOf_returned {log : List (Event w J T)} (h : lifeOf log = some l) (t : T)
    (call : Call J) (r : Result w) :
    lifeOf (log ++ [.returned t call r]) = l.answer call r := by
  rw [lifeOf_snoc, h]
  rfl

/-- Placing and running jobs is nothing to the owner. -/
theorem lifeOf_jobs {log new : List (Event w J T)}
    (hnew : ∀ e ∈ new, ∀ l : Life, l.after e = some l) :
    lifeOf (log ++ new) = lifeOf log := by
  rw [lifeOf_append]
  generalize lifeOf log = l
  induction new with
  | nil => rfl
  | cons e new ih =>
    rw [List.foldl_cons]
    have he : (l.bind (·.after e)) = l := by
      cases l with
      | none => rfl
      | some l => exact hnew e (List.mem_cons_self) l
    rw [he]
    exact ih (fun e' he' => hnew e' (List.mem_cons_of_mem e he'))

theorem System.Woken.before {new : List (Event w J T)} (h : s'.Woken)
    (hlog : s'.log = s.log ++ new) : s.Woken := by
  intro t sync e he
  apply h t sync e
  rw [hlog]
  exact List.mem_append_left new he

/-- A stopped worker has a thread to join or detach. -/
theorem View.Stopped.joinable {v : View} {k : Nat} (h : v.Stopped l k) : v.thr ≠ none := by
  rw [h.2.2.1]
  simp

/-- A state other than `running` ends no rest but that of a worker that is on. -/
theorem View.Rest.off_or_leaving {v : View} (h : v.Rest l) (hstate : v.state ≠ .running) :
    v.thr = none ∧ l ≠ .on := by
  cases l with
  | off => exact ⟨h.2, by simp⟩
  | on => exact absurd h.1 hstate
  | leaving => exact ⟨h.2, by simp⟩

/-- The worker is on when it runs. -/
theorem View.Rest.on {v : View} (h : v.Rest l) (hstate : v.state = .running) :
    l = .on ∧ ∃ k, v.thr = some k ∧ v.InMain k := by
  cases l with
  | off =>
    have hstandby : v.state = .standby := h.1
    rw [hstate] at hstandby
    cases hstandby
  | on => exact ⟨rfl, h.2⟩
  | leaving => exact absurd hstate h.1

/-- The thread's last step keeps what the owner's call relies on. -/
theorem View.Kept.leave {v v' : View} {p : CallerPc w J} (h : v.Kept l p)
    (hshutdown : v.state = .shutdown) (hstate : v'.state = .standby) (hthr : v'.thr = v.thr)
    (hmain : ∀ j, v'.InMain j → v.InMain j) : v'.Kept l p := by
  have hne : v.state ≠ .running := by rw [hshutdown]; simp
  have hne' : v'.state ≠ .running := by rw [hstate]; simp
  have hrest : v.Rest l → v'.Rest l := by
    intro hr
    cases l with
    | off =>
      refine ⟨hstate, ?_⟩
      rw [hthr]
      exact hr.2
    | on => exact absurd hr.1 hne
    | leaving =>
      refine ⟨hne', ?_⟩
      rw [hthr]
      exact hr.2
  have hstopped : ∀ k, v.Stopped l k → v'.Stopped l k := by
    intro k hk
    refine ⟨hk.1, hne', ?_, fun j hj => hk.2.2.2 j (hmain j hj)⟩
    rw [hthr]
    exact hk.2.2.1
  cases p with
  | idle => exact hrest h
  | request who pc =>
    cases who with
    | user job throwing => exact hrest h
    | shutdown sync =>
      obtain ⟨k, hk⟩ := h
      exact ⟨k, hstopped k hk⟩
  | start pc =>
    cases pc with
    | exchange => exact hrest h
    | launch | assign => exact absurd h.1 hne
  | shutdown sync pc =>
    cases pc with
    | exchange => exact hrest h
    | loadRemained | joinable =>
      obtain ⟨k, hk⟩ := h
      exact ⟨k, hstopped k hk⟩
    | join | detach =>
      obtain ⟨hsync, k, hk⟩ := h
      exact ⟨hsync, k, hstopped k hk⟩
    | joining k => exact ⟨h.1, hstopped k h.2⟩

theorem Owned.owner (h : Owned c s) {t : T} (ht : (s.callers t).Controls) : t = c := by
  by_contra hne
  exact h.others t hne ht

/-- Nobody is about to launch a thread while the owner is not. -/
theorem Owned.not_launching (h : Owned c s) (hc : s.callers c ≠ .start .launch) (t : T) :
    ¬ s.Launching t := by
  intro ht
  obtain rfl := h.owner (show (s.callers t).Controls by rw [ht]; trivial)
  exact hc ht

variable [DecidableEq T] {size : QueueSize w} {a : Action J T}

/-- A step of a caller. Of one that is not the owner, the owner sees nothing. -/
theorem Owned.caller (h : Owned c s) (hs : Stepped size s a s') {t : T} {p : CallerPc w J}
    (new : List (Event w J T)) (hcallers : s'.callers = Function.update s.callers t p)
    (hlog : s'.log = s.log ++ new) (hfault : s'.fault ≠ some .joinableThread)
    (hother : t ≠ c → ¬ p.Controls ∧ s'.view = s.view ∧ lifeOf s'.log = lifeOf s.log)
    (hown : t = c → s'.Woken → ∀ l, lifeOf s.log = some l → s.view.Kept l (s.callers c) →
      ∃ l', lifeOf s'.log = some l' ∧ s'.view.Kept l' p) : Owned c s' := by
  constructor
  case runner => exact h.runner.step hs
  case sound => exact fun _ => hfault
  case others =>
    intro u hu
    rw [hcallers]
    by_cases hut : u = t
    · rw [hut, Function.update_self]
      exact (hother (hut ▸ hu)).1
    · rw [Function.update_of_ne hut]
      exact h.others u hu
  case kept =>
    intro hwoken
    obtain ⟨l, hl, hkept⟩ := h.kept (hwoken.before hlog)
    by_cases htc : t = c
    · rw [hcallers, htc, Function.update_self]
      exact hown htc hwoken l hl hkept
    · obtain ⟨-, hview, hlife⟩ := hother htc
      refine ⟨l, by rw [hlife, hl], ?_⟩
      rw [hview, hcallers, Function.update_of_ne (Ne.symm htc)]
      exact hkept

/-- A step of the owner in `start` or `shutdown`. -/
theorem Owned.own (h : Owned c s) (hs : Stepped size s a s') {t : T} {p : CallerPc w J}
    (new : List (Event w J T)) (ht : (s.callers t).Controls)
    (hcallers : s'.callers = Function.update s.callers t p) (hlog : s'.log = s.log ++ new)
    (hfault : s'.fault ≠ some .joinableThread)
    (hown : s'.Woken → ∀ l, lifeOf s.log = some l → s.view.Kept l (s.callers t) →
      ∃ l', lifeOf (s.log ++ new) = some l' ∧ s'.view.Kept l' p) : Owned c s' := by
  obtain rfl := h.owner ht
  refine h.caller hs new hcallers hlog hfault (fun hne => absurd rfl hne) ?_
  intro _ hwoken l hl hkept
  rw [hlog]
  exact hown hwoken l hl hkept

theorem System.step_start {t : T} {pc : StartPc} (ht : s.callers t = .start pc)
    (h : s.step size (.run t) = some s') : s' = s.startStep t pc := by
  simp only [step, (step_cases h).1, if_true, next, ht] at h
  exact (Option.some.inj h).symm

theorem System.step_shutdown {t : T} {sync : Bool} {pc : ShutdownPc}
    (ht : s.callers t = .shutdown sync pc) (h : s.step size (.run t) = some s') :
    s.shutdownStep t sync pc = some s' := by
  simpa only [step, (step_cases h).1, if_true, next, ht] using h

/-! ## The steps of `start` and `shutdown` -/

theorem Owned.start (h : Owned c s) {t : T} {pc : StartPc} (ht : s.callers t = .start pc)
    (hstep : s.step size (.run t) = some s') : Owned c s' := by
  have hs := (System.step_cases hstep).2
  have hnone : s.fault ≠ some .joinableThread := by simp [(System.step_cases hstep).1]
  have hin : (s.callers t).Controls := by rw [ht]; trivial
  have heq := System.step_start ht hstep
  cases pc with
  | exchange =>
    simp only [System.startStep] at heq
    split at heq
    · rename_i hstandby
      subst heq
      apply h.own hs [] hin rfl rfl hnone
      intro _ l hl hkept
      rw [ht] at hkept
      obtain ⟨hthr, hoff⟩ := View.Rest.off_or_leaving hkept
        (show s.view.state ≠ .running by simp [System.view, hstandby])
      exact ⟨l, by rw [List.append_nil, hl], rfl, hthr, hoff⟩
    · rename_i hstate
      subst heq
      apply h.own hs [.returned t .start (.done false)] hin rfl rfl hnone
      intro _ l hl hkept
      rw [ht] at hkept
      rw [lifeOf_returned hl]
      cases l with
      | off => exact absurd hkept.1 hstate
      | on => exact ⟨.on, rfl, hkept⟩
      | leaving => exact ⟨.leaving, rfl, hkept⟩
  | launch =>
    subst heq
    apply h.own hs [] hin rfl rfl hnone
    intro _ l hl hkept
    rw [ht] at hkept
    obtain ⟨hrun, hthr, hoff⟩ := hkept
    refine ⟨l, by rw [List.append_nil, hl], hrun, hthr, hoff, ?_⟩
    show ((Function.update s.threads s.launched .load) s.launched).InMain
    rw [Function.update_self]
    trivial
  | assign k =>
    simp only [System.startStep] at heq
    split at heq
    · subst heq
      apply h.own hs [.returned t .start (.done true)] hin rfl rfl hnone
      intro _ l hl hkept
      rw [ht] at hkept
      obtain ⟨hrun, -, hoff, hk⟩ := hkept
      rw [lifeOf_returned hl]
      refine ⟨.on, ?_, hrun, k, rfl, hk⟩
      cases l with
      | on => exact absurd rfl hoff
      | off | leaving => rfl
    · rename_i hjoinable
      subst heq
      -- the handle was given up before the exchange of this call
      have hfree : s.Woken → s.mem.thr = none := by
        intro hwoken
        obtain ⟨l, -, hkept⟩ := h.kept hwoken
        obtain rfl := h.owner hin
        rw [ht] at hkept
        exact hkept.2.1
      exact ⟨h.runner.step hs, h.others, fun hwoken => absurd (hfree hwoken) hjoinable, h.kept⟩

omit [DecidableEq T] in
/-- Once the thread of a stopped worker has exited, the worker is in standby. -/
theorem Owned.joined (h : Owned c s) {k : Nat} (hc : s.callers c ≠ .start .launch)
    (hstopped : s.view.Stopped l k) (hk : s.threads k = .exited) : s.mem.state = .standby := by
  by_contra hstate
  rcases h.runner.held hstate with ⟨u, hu⟩ | ⟨j, hj⟩
  · exact h.not_launching hc u hu
  · obtain rfl := hstopped.2.2.2 j hj
    rw [hk] at hj
    exact hj

theorem Owned.shutdown (h : Owned c s) {t : T} {sync : Bool} {pc : ShutdownPc}
    (ht : s.callers t = .shutdown sync pc) (hstep : s.step size (.run t) = some s') :
    Owned c s' := by
  have hs := (System.step_cases hstep).2
  have hnone : s.fault ≠ some .joinableThread := by simp [(System.step_cases hstep).1]
  have hin : (s.callers t).Controls := by rw [ht]; trivial
  have heq := System.step_shutdown ht hstep
  cases pc with
  | exchange =>
    obtain rfl := Option.some.inj heq
    split
    · rename_i hrunning
      rw [if_pos hrunning] at hs
      apply h.own hs [] hin rfl rfl hnone
      intro _ l hl hkept
      rw [ht] at hkept
      obtain ⟨hon, k, hthr, hk⟩ := View.Rest.on hkept hrunning
      refine ⟨l, by rw [List.append_nil, hl], k, hon, ?_, hthr, fun j hj => h.runner.main j k hj hk⟩
      simp [System.view, System.goto]
    · rename_i hstate
      rw [if_neg hstate] at hs
      apply h.own hs [.returned t (.shutdown sync) (.done false)] hin rfl rfl hnone
      intro _ l hl hkept
      rw [ht] at hkept
      rw [lifeOf_returned hl]
      cases l with
      | off => exact ⟨.off, rfl, hkept⟩
      | on => exact absurd hkept.1 hstate
      | leaving => exact ⟨.leaving, rfl, hkept⟩
  | loadRemained =>
    obtain rfl := Option.some.inj heq
    apply h.own hs [] hin rfl rfl hnone
    intro _ l hl hkept
    rw [ht] at hkept
    refine ⟨l, by rw [List.append_nil, hl], ?_⟩
    split
    · exact hkept
    · exact hkept
  | joinable =>
    obtain rfl := Option.some.inj heq
    apply h.own hs [] hin rfl rfl hnone
    intro _ l hl hkept
    rw [ht] at hkept
    refine ⟨l, by rw [List.append_nil, hl], ?_⟩
    obtain ⟨k, hk⟩ := hkept
    have hthr : s.mem.thr = some k := hk.2.2.1
    cases sync with
    | true =>
      simp only [hthr, Option.isSome_some, Bool.and_self, if_true]
      exact ⟨rfl, k, hk⟩
    | false =>
      simp only [Bool.false_and, Bool.false_eq_true, if_false]
      exact ⟨rfl, k, hk⟩
  | join =>
    simp only [System.shutdownStep] at heq
    split at heq
    · rename_i hthr
      obtain rfl := Option.some.inj heq
      apply h.own hs [.returned t (.shutdown sync) (.threw .systemError)] hin rfl rfl hnone
      intro _ l hl hkept
      rw [ht] at hkept
      obtain ⟨-, k, hk⟩ := hkept
      exact absurd hthr hk.joinable
    · rename_i k hthr
      obtain rfl := Option.some.inj heq
      apply h.own hs [] hin rfl rfl hnone
      intro _ l hl hkept
      rw [ht] at hkept
      obtain ⟨hsync, j, hj⟩ := hkept
      obtain rfl : j = k := Option.some.inj (hj.2.2.1.symm.trans hthr)
      exact ⟨l, by rw [List.append_nil, hl], hsync, hj⟩
  | joining k =>
    simp only [System.shutdownStep] at heq
    split at heq
    · rename_i hexited
      obtain rfl := Option.some.inj heq
      apply h.own hs [.returned t (.shutdown sync) (.done true)] hin rfl rfl hnone
      intro _ l hl hkept
      obtain rfl := h.owner hin
      have hstandby := h.joined (by simp [ht]) (ht ▸ hkept).2 hexited
      rw [ht] at hkept
      obtain ⟨rfl, rfl, -⟩ := hkept
      exact ⟨.off, by rw [lifeOf_returned hl]; rfl, hstandby, rfl⟩
    · cases heq
  | detach =>
    simp only [System.shutdownStep] at heq
    split at heq
    · rename_i hthr
      obtain rfl := Option.some.inj heq
      apply h.own hs [.returned t (.shutdown sync) (.threw .systemError)] hin rfl rfl hnone
      intro _ l hl hkept
      rw [ht] at hkept
      obtain ⟨-, k, hk⟩ := hkept
      exact absurd hthr hk.joinable
    · obtain rfl := Option.some.inj heq
      apply h.own hs [.returned t (.shutdown sync) (.done true)] hin rfl rfl hnone
      intro _ l hl hkept
      rw [ht] at hkept
      obtain ⟨rfl, k, rfl, hstate, -, -⟩ := hkept
      exact ⟨.leaving, by rw [lifeOf_returned hl]; rfl, hstate, rfl⟩

/-! ## Runs -/

/-- A step of the worker's thread: the owner sees none of it but the last. -/
theorem Owned.work (h : Owned c s) (hs : Stepped size s a s') {k : Nat} {m : Memory w J}
    {p : WorkerPc w} (hm : WorkMove s.mem (s.threads k) m p) (hmem : s'.mem = m)
    (hcallers : s'.callers = s.callers) (hthreads : s'.threads = Function.update s.threads k p)
    (hlog : s'.log = s.log ++ ranEvents s.mem (s.threads k))
    (hfault : s'.fault ≠ some .joinableThread) : Owned c s' := by
  subst hmem
  have hlife : lifeOf s'.log = lifeOf s.log := by
    rw [hlog]
    apply lifeOf_jobs
    intro e he l
    generalize s.threads k = pc at he
    cases pc with
    | run =>
      obtain ⟨job, -, rfl⟩ := List.mem_map.mp he
      rfl
    | _ => cases he
  have hmain : ∀ j, (s'.threads j).InMain → (s.threads j).InMain := by
    intro j hj
    rw [hthreads] at hj
    rcases of_update hj with ⟨rfl, -⟩ | ⟨-, hj⟩
    · exact hm.inMain
    · exact hj
  constructor
  case runner => exact h.runner.step hs
  case others => rw [hcallers]; exact h.others
  case sound => exact fun _ => hfault
  case kept =>
    intro hwoken
    obtain ⟨l, hl, hkept⟩ := h.kept (hwoken.before hlog)
    refine ⟨l, by rw [hlife, hl], ?_⟩
    rw [hcallers]
    rcases hm.state with ⟨hp, hstate⟩ | ⟨-, hshutdown, -, hstandby⟩ | ⟨hk, hstate⟩
    · have hview : s'.view = s.view := by
        unfold System.view
        rw [hstate, hm.thr, hthreads]
        congr
        funext j
        by_cases hjk : j = k
        · rw [hjk, Function.update_self]
          exact propext ⟨fun _ => hm.inMain, fun _ => hp⟩
        · rw [Function.update_of_ne hjk]
      rw [hview]
      exact hkept
    · exact hkept.leave hshutdown hstandby hm.thr hmain
    · exact absurd (h.runner.leaving k hk) hstate

/-- A request of another caller, or of the owner's `shutdown`, changes nothing the owner sees. -/
theorem Owned.request (h : Owned c s) (hs : Stepped size s a s') {t : T} {who : Requester J}
    {pc : RequestPc w} (ht : s.callers t = .request who pc) {p : CallerPc w J}
    (new : List (Event w J T)) (hcallers : s'.callers = Function.update s.callers t p)
    (hthreads : s'.threads = s.threads) (hstate : s'.mem.state = s.mem.state)
    (hthr : s'.mem.thr = s.mem.thr) (hfault : s'.fault ≠ some .joinableThread)
    (hlog : s'.log = s.log ++ new)
    (hcontrols : p.Controls → (CallerPc.request who pc : CallerPc w J).Controls)
    (hown : s'.Woken → lifeOf (s.log ++ new) = lifeOf s.log ∧
      ∀ l, s.view.Kept l (CallerPc.request who pc : CallerPc w J) → s.view.Kept l p)
    (hother : (CallerPc.request who pc : CallerPc w J).Controls ∨
      lifeOf (s.log ++ new) = lifeOf s.log) : Owned c s' := by
  have hview : s'.view = s.view := by
    unfold System.view
    rw [hstate, hthr, hthreads]
  apply h.caller hs new hcallers hlog hfault
  · intro htc
    have hout := h.others t htc
    rw [ht] at hout
    refine ⟨fun hp => hout (hcontrols hp), hview, ?_⟩
    rw [hlog]
    exact hother.resolve_left hout
  · intro htc hwoken l hl hkept
    obtain ⟨hlife, hkeep⟩ := hown hwoken
    rw [← htc, ht] at hkept
    refine ⟨l, by rw [hlog, hlife, hl], ?_⟩
    rw [hview]
    exact hkeep l hkept

/-- A request that ends its call, whatever it ends with. -/
theorem Owned.returned (h : Owned c s) {t : T} {who : Requester J} {pc : RequestPc w}
    (ht : s.callers t = .request who pc) {m : Memory w J} {r : Result w}
    (hs : Stepped size s a ({ s with mem := m }.goto t .idle [.returned t who.call r]))
    (hnone : s.fault = none) (hstate : m.state = s.mem.state) (hthr : m.thr = s.mem.thr)
    (hr : ∀ sync, who = .shutdown sync → ∃ e, r = .threw e ∧ e ≠ .systemError) :
    Owned c ({ s with mem := m }.goto t .idle [.returned t who.call r]) := by
  apply h.request hs ht [.returned t who.call r] rfl rfl hstate hthr (by simp [System.goto, hnone])
    rfl (fun hp => hp.elim)
  · intro hwoken
    cases who with
    | user job throwing =>
      exact ⟨lifeOf_jobs (by simp [Life.after, Requester.call, Life.answer]), fun _ => id⟩
    | shutdown sync =>
      obtain ⟨e, rfl, he⟩ := hr sync rfl
      exact absurd (hwoken t sync e (List.mem_append_right _ (List.mem_singleton_self _))) he
  · cases who with
    | user job throwing =>
      exact .inr (lifeOf_jobs (by simp [Life.after, Requester.call, Life.answer]))
    | shutdown sync => exact .inl trivial

theorem Owned.step (h : Owned c s) (ha : a.ControlledBy c) (hstep : s.step size a = some s') :
    Owned c s' := by
  have hs := (System.step_cases hstep).2
  have hnone := (System.step_cases hstep).1
  cases hs' : hs with
  | call t call ht =>
    apply h.caller hs [.called t call] rfl rfl (by simp [System.goto, hnone])
    · intro htc
      refine ⟨?_, rfl, lifeOf_jobs (by simp [Life.after])⟩
      cases call with
      | request job throwing => exact id
      | start | shutdown sync => exact absurd ha htc
    · intro htc _ l hl hkept
      refine ⟨l, by rw [System.goto, lifeOf_snoc, hl]; rfl, ?_⟩
      rw [← htc, ht] at hkept
      cases call <;> exact hkept
  | request t who pc pc' m ht hm =>
    have hlife : lifeOf (s.log ++ placedEvents t who.job pc (.goto pc')) = lifeOf s.log := by
      apply lifeOf_jobs
      intro e he l
      cases pc <;> simp only [placedEvents, List.mem_singleton, List.not_mem_nil] at he
      subst he
      rfl
    apply h.request hs ht (p := .request who pc') _ rfl rfl hm.state hm.thr
      (by simp [System.goto, hnone]) rfl
    · cases who <;> exact id
    · intro _
      exact ⟨hlife, fun l hl => by cases who <;> exact hl⟩
    · exact .inr hlife
  | answered t who pc m count ht hm =>
    cases who with
    | user job throwing =>
      simp only [System.answer] at hs ⊢
      split
      · rename_i hzero
        rw [if_pos hzero] at hs
        exact h.returned ht hs hnone hm.state hm.thr (by simp)
      · rename_i hzero
        rw [if_neg hzero] at hs
        exact h.returned ht hs hnone hm.state hm.thr (by simp)
    | shutdown sync =>
      simp only [System.answer] at hs ⊢
      split
      · rename_i hzero
        rw [if_pos hzero] at hs
        exact h.returned ht hs hnone hm.state hm.thr (fun _ _ => ⟨_, rfl, by simp⟩)
      · rename_i hzero
        rw [if_neg hzero] at hs
        apply h.request hs ht (p := .shutdown sync .joinable) [] rfl rfl hm.state hm.thr
          (by simp [System.goto, hnone]) rfl id
        · exact fun _ => ⟨by rw [List.append_nil], fun _ => id⟩
        · exact .inl trivial
  | satisfied t who pc m ht hm =>
    exact h.returned ht hs hnone hm.state hm.thr (fun _ _ => ⟨_, rfl, by simp⟩)
  | nullPromise t who pc m ht hm =>
    apply h.request hs ht [] (by rw [← ht, Function.update_eq_self]) rfl hm.state hm.thr (by simp)
      (List.append_nil _).symm id
    · exact fun _ => ⟨by rw [List.append_nil], fun _ => id⟩
    · exact .inr (by rw [List.append_nil])
  | started t ht | notStarted t ht | launch t ht | assign t k ht | joinableThread t k ht =>
    exact h.start ht hstep
  | stopped t sync ht | notStopped t sync ht | wake t sync ht | noWake t sync ht
  | tail t sync pc pc' thr ht | tailEnd t sync pc thr result ht => exact h.shutdown ht hstep
  | work k m p hm =>
    apply h.work hs hm rfl rfl rfl rfl
    show workFault s.mem (s.threads k) ≠ _
    generalize s.threads k = pc
    cases pc <;> simp [workFault]

omit [DecidableEq T] in
theorem owned_init (c : T) : Owned c (System.init : System w J T) where
  runner := singleRunner_init
  others _ _ := id
  sound _ := by simp [System.init]
  kept _ := ⟨.off, rfl, rfl, rfl⟩

omit [DecidableEq T] in
/-- Between its calls the owner takes the worker for what it is. -/
theorem Owned.is (h : Owned c s) (hc : ¬ (s.callers c).Controls)
    (hkept : s.view.Kept l (s.callers c)) : s.Is l := by
  have hlaunching : ∀ t, ¬ s.Launching t :=
    h.not_launching (fun heq => hc (by rw [heq]; trivial))
  have hrest : s.view.Rest l := by
    generalize s.callers c = p at hc hkept
    cases p with
    | idle => exact hkept
    | request who pc =>
      cases who with
      | user job throwing => exact hkept
      | shutdown sync => exact absurd trivial hc
    | start | shutdown => exact absurd trivial hc
  cases l with
  | off => exact ⟨hrest.1, hrest.2, fun k hk => h.runner.main_state k hk hrest.1⟩
  | on =>
    obtain ⟨hrunning, k, hthr, hk⟩ := hrest
    refine ⟨hrunning, k, hthr, fun j => ⟨fun hj => h.runner.main j k hj hk, ?_⟩⟩
    intro hjk
    rw [hjk]
    exact hk
  | leaving =>
    refine ⟨hrest.1, hrest.2, ?_, ?_⟩
    · intro hshutdown
      rcases h.runner.held (by rw [hshutdown]; simp) with ⟨t, ht⟩ | hmain
      · exact absurd ht (hlaunching t)
      · exact hmain
    · intro hmain
      obtain ⟨k, hk⟩ := hmain
      have hne := h.runner.main_state k hk
      have hrunning : s.mem.state ≠ .running := hrest.1
      generalize s.mem.state = state at hne hrunning
      cases state with
      | standby => exact absurd rfl hne
      | running => exact absurd rfl hrunning
      | shutdown => rfl

/-- **The life of a worker.** In every run in which one caller makes all calls of `start` and
`shutdown`, whatever jobs the others request: while no `shutdown` has thrown at its request,
the calls return what the machine says, and the worker is what the machine says. -/
theorem follows_life {tr : List (System w J T × Action J T)}
    (h : Run (System.step size) System.init tr s)
    (hc : Meets (fun _ a => a.ControlledBy c) tr) (hwoken : s.Woken) :
    s.fault ≠ some .joinableThread ∧
      ∃ l, lifeOf s.log = some l ∧ (¬ (s.callers c).Controls → s.Is l) := by
  have hinv : Owned c s :=
    h.invariant (C := fun _ a => a.ControlledBy c) (owned_init c)
      (fun _ _ _ hi ha hs => hi.step ha hs) hc
  obtain ⟨l, hl, hkept⟩ := hinv.kept hwoken
  exact ⟨hinv.sound hwoken, l, hl, fun hidle => hinv.is hidle hkept⟩

/-- The worker is started, shut down with `shutdown(false)`, and shut down again as its
destructor does, which returns at once, with the thread still in `_worker_main`. -/
def destroyed : List (Action Nat Bool) :=
  calls false .start 3 ++ works 0 4 ++ calls true (.request 7 false) 6 ++
    calls false (.shutdown false) 4 ++ calls false (.shutdown true) 1

def destroyedLog : List (Event 64 Nat Bool) :=
  [.called false .start, .returned false .start (.done true), .called true (.request 7 false),
    .placed true (.task 7), .returned true (.request 7 false) (.count 1),
    .called false (.shutdown false), .returned false (.shutdown false) (.done true),
    .called false (.shutdown true), .returned false (.shutdown true) (.done false)]

theorem follows_life_destroyed : ∃ (tr : _) (s : System 64 Nat Bool),
    Run (System.step twoJobs) System.init tr s ∧ tr.map Prod.snd = destroyed ∧
      s.log = destroyedLog ∧ s.threads 0 = .wait 0 ∧ s.fault ≠ some .joinableThread ∧
      ∃ l, lifeOf s.log = some l ∧ (¬ (s.callers false).Controls → s.Is l) := by
  have hrun : ∃ (tr : _) (s : System 64 Nat Bool), Run (System.step twoJobs) System.init tr s ∧
      Meets (fun _ a => a.ControlledBy false) tr ∧ tr.map Prod.snd = destroyed ∧
      (s.log = destroyedLog ∧ s.threads 0 = .wait 0) :=
    Run.of_execMeets_any _ (by decide)
  obtain ⟨tr, s, hr, hok, ha, hlog, hwait⟩ := hrun
  refine ⟨tr, s, hr, ha, hlog, hwait, follows_life hr hok ?_⟩
  intro t sync e he
  rw [hlog] at he
  simp [destroyedLog] at he

/-- A `shutdown` that has thrown at its request leaves the owner a joinable thread: the next
`start` terminates the program. -/
def startedAgain : List (Action Nat Bool) :=
  calls true .start 3 ++ works 0 4 ++ calls false (.request 7 false) 1 ++
    calls true (.shutdown true) 3 ++ runs false 5 ++ works 0 9 ++ calls true .start 3

example : (exec (System.step oneJob) (System.init : System 64 Nat Bool) startedAgain).any
    (·.fault = some .joinableThread) := by
  decide

end

end Vee.Worker
