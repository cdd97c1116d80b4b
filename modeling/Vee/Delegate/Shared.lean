import Vee.Delegate.Registry
import Vee.Lib.Section

/- One delegate used by several threads, with `spin_lock` for its lock.

   Each operation takes `_mtx` and gives it back when it returns or throws; in between it
   looks into the containers and writes them one access at a time, and `operator()` invokes
   one callback after another. The operations are atomic nevertheless (`Section`): in every
   run the calls that have returned, in the order they gave the lock back, are those of one
   registry used by one thread, and each `operator()` has invoked what that registry said
   (`shared_registry`). The operations on two delegates take their locks with `std::lock`,
   which goes by `try_lock`, and are not among these. -/
namespace Vee
open Keyed Transition

namespace Delegate
open Section

variable {F G K T : Type*} [LinearOrder F] [LinearOrder K]

/-- An operation that changes the delegate. -/
inductive Change (F G K : Type*) where
  | register (obj : Callable F G)
  | registerPair (first : K) (second : Callable F G)
  | remove (obj : Callable F G)
  | removeKey (key : K)
  | clear
  deriving DecidableEq

inductive Request (F G K : Type*) where
  | change (c : Change F G K)
  /-- `operator()` -/
  | call
  | empty
  deriving DecidableEq

inductive Reply (F G : Type*) where
  | done (result : Except DelegateError Unit)
  /-- the callbacks that were invoked, in order -/
  | invoked (callbacks : List (Callable F G))
  | emptiness (result : Bool)
  deriving DecidableEq

/-- The points of the operations under the lock. -/
inductive InPc (F G K : Type*) where
  /-- `gen_key` and `_cont.insert` -/
  | insert (obj : Callable F G)
  /-- `_usrcont.insert` -/
  | insertPair (first : K) (second : Callable F G)
  /-- `gen_key` and `_cont.find` -/
  | find (obj : Callable F G)
  | erase (key : F)
  | findKey (key : K)
  | eraseKey (key : K)
  | clearCont
  | clearUsrcont
  /-- the loop over `_cont`, with the callbacks invoked so far -/
  | loopCont (it : Nat) (invoked : List (Callable F G))
  | loopUsrcont (it : Nat) (invoked : List (Callable F G))
  /-- `_cont.empty()` -/
  | testCont
  | testUsrcont
  | unlock (reply : Reply F G)

/-- Where an operation starts once it has the lock. -/
def Request.enter : Request F G K → InPc F G K
  | change (.register obj) => .insert obj
  | change (.registerPair first second) => .insertPair first second
  | change (.remove obj) => .find obj
  | change (.removeKey key) => .findKey key
  | change .clear => .clearCont
  | call => .loopCont 0 []
  | empty => .testCont

/-- One access under the lock. -/
def access (d : Delegate F G K) : InPc F G K → Delegate F G K × InPc F G K
  | .insert obj =>
    match genKey obj with
    | .error e => (d, .unlock (.done (.error e)))
    | .ok key => ({ d with cont := d.cont.insert key obj }, .unlock (.done (.ok ())))
  | .insertPair first second =>
    match d.usrcont.insert first second with
    | (usrcont, false) =>
      ({ d with usrcont := usrcont }, .unlock (.done (.error .keyAlreadyExist)))
    | (usrcont, true) => ({ d with usrcont := usrcont }, .unlock (.done (.ok ())))
  | .find obj =>
    match genKey obj with
    | .error e => (d, .unlock (.done (.error e)))
    | .ok key =>
      match d.cont.find key with
      | none => (d, .unlock (.done (.error .targetNotFound)))
      | some _ => (d, .erase key)
  | .erase key => ({ d with cont := d.cont.erase key }, .unlock (.done (.ok ())))
  | .findKey key =>
    match d.usrcont.find key with
    | none => (d, .unlock (.done (.error .targetNotFound)))
    | some _ => (d, .eraseKey key)
  | .eraseKey key => ({ d with usrcont := d.usrcont.erase key }, .unlock (.done (.ok ())))
  | .clearCont => ({ d with cont := .empty }, .clearUsrcont)
  | .clearUsrcont => ({ d with usrcont := .empty }, .unlock (.done (.ok ())))
  | .loopCont it invoked =>
    match d.cont.entries[it]? with
    | some e => (d, .loopCont (it + 1) (invoked ++ [e.2]))
    | none => (d, .loopUsrcont 0 invoked)
  | .loopUsrcont it invoked =>
    match d.usrcont.entries[it]? with
    | some e => (d, .loopUsrcont (it + 1) (invoked ++ [e.2]))
    | none => (d, .unlock (.invoked invoked))
  | .testCont =>
    (d, if d.cont.entries.isEmpty then .testUsrcont else .unlock (.emptiness false))
  | .testUsrcont => (d, .unlock (.emptiness d.usrcont.entries.isEmpty))
  | .unlock reply => (d, .unlock reply)

/-- The operations of a shared delegate: a thread is idle or waits for the lock with a request,
and reports the request and the reply when it gives the lock back. -/
def shared (F G K : Type*) [LinearOrder F] [LinearOrder K] :
    Code (Request F G K) (Delegate F G K) Unit (Option (Request F G K))
      (Request F G K × InPc F G K) (Request F G K × Reply F G) where
  start req
    | none => some (some req)
    | some _ => none
  enter o := o.map fun req => (req, req.enter)
  outer _ _ := none
  inner d
    | (req, .unlock reply) => .inr (none, [(req, reply)])
    | (req, p) => .inl ((d.access p).1, (req, (d.access p).2))

/-! ## What an operation does as a whole -/

/-- The operation on the operations' own delegate. -/
def Change.op : Change F G K → Op Unit F G K
  | register obj => .register () obj
  | registerPair first second => .registerPair () first second
  | remove obj => .remove () obj
  | removeKey key => .removeKey () key
  | clear => .clear ()

/-- The delegate after a request, and the reply. -/
def serve (d : Delegate F G K) : Request F G K → Delegate F G K × Reply F G
  | .change c => ((step (fun _ => d) c.op).1 (), .done (step (fun _ => d) c.op).2)
  | .call => (d, .invoked d.callbacks)
  | .empty => (d, .emptiness d.isEmpty)

/-- An operation under the lock from its first access to its last. -/
def whole (d : Delegate F G K) (s : Request F G K × InPc F G K) :
    Delegate F G K × Option (Request F G K) × List (Request F G K × Reply F G) :=
  ((d.serve s.1).1, none, [(s.1, (d.serve s.1).2)])

section
variable {d : Delegate F G K} {req : Request F G K}

theorem access_inner {d' : Delegate F G K} {p p' : InPc F G K} (h : d.access p = (d', p'))
    (hp : ∀ reply, p ≠ .unlock reply) :
    (shared F G K).Inner (d, (req, p)) (d', (req, p')) := by
  have hinner : (shared F G K).Inner (d, (req, p)) ((d.access p).1, (req, (d.access p).2)) := by
    cases p with
    | unlock reply => exact absurd rfl (hp reply)
    | _ => rfl
  rw [h] at hinner
  exact hinner

/-- A loop over the entries of a container invokes the callbacks that are left. -/
theorem loop_reaches {α : Type*} {entries : List (α × Callable F G)}
    (loop : Nat → List (Callable F G) → InPc F G K) (after : List (Callable F G) → InPc F G K)
    (hloop : ∀ it invoked reply, loop it invoked ≠ .unlock reply)
    (hnext : ∀ it invoked e, entries[it]? = some e →
      d.access (loop it invoked) = (d, loop (it + 1) (invoked ++ [e.2])))
    (hend : ∀ it invoked, entries[it]? = none → d.access (loop it invoked) = (d, after invoked))
    (l : List (α × Callable F G)) (it : Nat) (hl : entries.drop it = l)
    (invoked : List (Callable F G)) :
    Relation.ReflTransGen (shared F G K).Inner (d, (req, loop it invoked))
      (d, (req, after (invoked ++ l.map Prod.snd))) := by
  induction l generalizing it invoked with
  | nil =>
    have hnone : entries[it]? = none :=
      List.getElem?_eq_none_iff.mpr (List.drop_eq_nil_iff.mp hl)
    rw [List.map_nil, List.append_nil]
    exact .single (access_inner (hend it invoked hnone) (hloop it invoked))
  | cons e l ih =>
    have hat : entries[it]? = some e := by
      rw [← List.head?_drop, hl]
      rfl
    have hrest : entries.drop (it + 1) = l := by
      rw [← List.tail_drop, hl]
      rfl
    have hreach := ih (it + 1) hrest (invoked ++ [e.2])
    rw [List.append_assoc] at hreach
    exact .head (access_inner (hnext it invoked e hat) (hloop it invoked)) hreach

/-- `operator()` goes through both containers. -/
theorem call_reaches : Relation.ReflTransGen (shared F G K).Inner
    (d, (req, .loopCont 0 [])) (d, (req, .unlock (.invoked d.callbacks))) := by
  have hcont : Relation.ReflTransGen (shared F G K).Inner (d, (req, .loopCont 0 []))
      (d, (req, .loopUsrcont 0 (d.cont.entries.map Prod.snd))) :=
    loop_reaches .loopCont (.loopUsrcont 0) (by simp)
      (by intro it invoked e he; simp only [access, he])
      (by intro it invoked he; simp only [access, he]) _ 0 List.drop_zero []
  have husr : Relation.ReflTransGen (shared F G K).Inner
      (d, (req, .loopUsrcont 0 (d.cont.entries.map Prod.snd)))
      (d, (req, .unlock (.invoked d.callbacks))) :=
    loop_reaches .loopUsrcont (fun invoked => .unlock (.invoked invoked)) (by simp)
      (by intro it invoked e he; simp only [access, he])
      (by intro it invoked he; simp only [access, he]) _ 0 List.drop_zero _
  exact hcont.trans husr

/-- An operation comes to its end with what it does as a whole. -/
theorem whole_completes :
    (shared F G K).Completes d (req, req.enter) (whole d (req, req.enter)) := by
  refine ⟨(req, .unlock (d.serve req).2), ?_, rfl⟩
  show Relation.ReflTransGen _ _ ((d.serve req).1, _)
  cases req with
  | change c =>
    cases c with
    | register obj =>
      cases obj with
      | function f => exact .single (access_inner rfl (by simp [Request.enter]))
      | object g => exact .single (access_inner rfl (by simp [Request.enter]))
    | registerPair first second =>
      cases hkey : d.usrcont.find first with
      | none =>
        have haccess : d.access (.insertPair first second) =
            ({ d with usrcont := (d.usrcont.insert first second).1 },
              .unlock (.done (.ok ()))) := by
          simp only [access, Map.insert_of_none hkey]
        have hserve : d.serve (.change (.registerPair first second)) =
            ({ d with usrcont := (d.usrcont.insert first second).1 }, .done (.ok ())) := by
          simp [serve, Change.op, step, registerPair_new hkey]
        rw [hserve]
        exact .single (access_inner haccess (by simp [Request.enter]))
      | some old =>
        have haccess : d.access (.insertPair first second) =
            (d, .unlock (.done (.error .keyAlreadyExist))) := by
          simp only [access, Map.insert_of_some hkey]
        have hserve : d.serve (.change (.registerPair first second)) =
            (d, .done (.error .keyAlreadyExist)) := by
          simp [serve, Change.op, step, registerPair_taken hkey]
        rw [hserve]
        exact .single (access_inner haccess (by simp [Request.enter]))
    | remove obj =>
      cases obj with
      | object g => exact .single (access_inner rfl (by simp [Request.enter]))
      | function f =>
        cases hf : d.cont.find f with
        | none =>
          have haccess : d.access (.find (.function f)) =
              (d, .unlock (.done (.error .targetNotFound))) := by
            simp only [access, genKey, hf]
          have hserve : d.serve (.change (.remove (.function f))) =
              (d, .done (.error .targetNotFound)) := by
            simp [serve, Change.op, step, remove_missing hf]
          rw [hserve]
          exact .single (access_inner haccess (by simp [Request.enter]))
        | some old =>
          have haccess : d.access (.find (.function f)) = (d, .erase f) := by
            simp only [access, genKey, hf]
          have hserve : d.serve (.change (.remove (.function f))) =
              ({ d with cont := d.cont.erase f }, .done (.ok ())) := by
            simp [serve, Change.op, step, remove_found hf]
          rw [hserve]
          exact .head (access_inner haccess (by simp [Request.enter]))
            (.single (access_inner rfl (by simp)))
    | removeKey key =>
      cases hkey : d.usrcont.find key with
      | none =>
        have haccess : d.access (.findKey key) = (d, .unlock (.done (.error .targetNotFound))) := by
          simp only [access, hkey]
        have hserve : d.serve (.change (.removeKey key)) = (d, .done (.error .targetNotFound)) := by
          simp [serve, Change.op, step, removeKey_missing hkey]
        rw [hserve]
        exact .single (access_inner haccess (by simp [Request.enter]))
      | some old =>
        have haccess : d.access (.findKey key) = (d, .eraseKey key) := by
          simp only [access, hkey]
        have hserve : d.serve (.change (.removeKey key)) =
            ({ d with usrcont := d.usrcont.erase key }, .done (.ok ())) := by
          simp [serve, Change.op, step, removeKey_found hkey]
        rw [hserve]
        exact .head (access_inner haccess (by simp [Request.enter]))
            (.single (access_inner rfl (by simp)))
    | clear =>
      exact .head (access_inner rfl (by simp [Request.enter]))
        (.single (access_inner rfl (by simp)))
  | call => exact call_reaches
  | empty =>
    by_cases hcont : d.cont.entries.isEmpty = true
    · have haccess : d.access .testCont = (d, .testUsrcont) := by
        simp only [access, if_pos hcont]
      have hserve : d.serve .empty = (d, .emptiness d.usrcont.entries.isEmpty) := by
        simp [serve, isEmpty, hcont]
      rw [hserve]
      exact .head (access_inner haccess (by simp [Request.enter]))
            (.single (access_inner rfl (by simp)))
    · have haccess : d.access .testCont = (d, .unlock (.emptiness false)) := by
        simp only [access, if_neg hcont]
      have hserve : d.serve .empty = (d, .emptiness false) := by
        simp [serve, isEmpty, hcont]
      rw [hserve]
      exact .single (access_inner haccess (by simp [Request.enter]))
end

/-! ## The requests of all threads, and one registry -/

/-- What the requests that have returned were told, in their order, if one registry served them
one after the other; the registry that leaves. -/
inductive Served : List (Request F G K × Reply F G) → Registry F G K → Prop where
  | nil : Served [] .new
  | change {l : List (Request F G K × Reply F G)} {r : Registry F G K} (h : Served l r)
      (c : Change F G K) :
      Served (l ++ [(.change c, .done (Registry.step (fun _ => r) c.op).2)])
        ((Registry.step (fun _ => r) c.op).1 ())
  | call {l : List (Request F G K × Reply F G)} {r : Registry F G K} (h : Served l r)
      {callbacks : List (Callable F G)} (hinvokes : r.Invokes callbacks) :
      Served (l ++ [(.call, .invoked callbacks)]) r
  | empty {l : List (Request F G K × Reply F G)} {r : Registry F G K} (h : Served l r)
      {result : Bool} (hempty : result = true ↔ r = .new) :
      Served (l ++ [(.empty, .emptiness result)]) r

/-- A registry invokes nothing exactly if nothing is registered. -/
theorem invokes_nil_iff {r : Registry F G K} {calls : List (Callable F G)} (h : r.Invokes calls) :
    calls = [] ↔ r = .new := by
  obtain ⟨functions, keyed, rfl, -, hcount, -, hmem⟩ := h
  rw [List.append_eq_nil_iff, List.map_eq_nil_iff, List.map_eq_nil_iff]
  constructor
  · intro hnil
    obtain ⟨rfl, rfl⟩ := hnil
    have htimes : r.times = fun _ => 0 := by
      funext f
      rw [← hcount f, List.count_nil]
    have hkeyed : r.keyed = fun _ => none := by
      funext k
      refine Option.eq_none_iff_forall_not_mem.mpr ?_
      intro obj hobj
      exact List.not_mem_nil ((hmem k obj).mpr hobj)
    cases r
    rw [Registry.new, Registry.mk.injEq]
    exact ⟨htimes, hkeyed⟩
  · intro hnew
    subst hnew
    constructor
    · refine List.eq_nil_iff_forall_not_mem.mpr ?_
      intro f hf
      exact List.count_eq_zero.mp (hcount f) hf
    · refine List.eq_nil_iff_forall_not_mem.mpr ?_
      intro e he
      have hsome : (none : Option (Callable F G)) = some e.2 := (hmem e.1 e.2).mp he
      cases hsome

/-- A request served as a whole: the delegate stays in step with its registry, and the reply is
the registry's. -/
theorem Served.serve {l : List (Request F G K × Reply F G)} {r : Registry F G K}
    {d : Delegate F G K} (h : Served l r) (hd : Holds d r) (req : Request F G K) :
    ∃ r', Served (l ++ [(req, (d.serve req).2)]) r' ∧ Holds (d.serve req).1 r' := by
  cases req with
  | change c =>
    obtain ⟨hholds, hanswer⟩ := delegates_simulate (fun _ => d) (fun _ => r) c.op fun _ => hd
    refine ⟨_, ?_, hholds ()⟩
    show Served (l ++ [(_, .done (step (fun _ => d) c.op).2)]) _
    rw [hanswer]
    exact h.change c
  | call => exact ⟨r, h.call hd.invokes, hd⟩
  | empty => exact ⟨r, h.empty (isEmpty_iff.trans (invokes_nil_iff hd.invokes)), hd⟩

variable [DecidableEq T]

/-- With every request in one step, those that have returned were served by one registry. -/
theorem coarse_served
    {tr : List (Coarse (Delegate F G K) Unit (Option (Request F G K))
      (Request F G K × Reply F G) T × Action (Request F G K) T)}
    {m : Coarse (Delegate F G K) Unit (Option (Request F G K)) (Request F G K × Reply F G) T}
    (h : Run (Coarse.step (shared F G K) whole) (Coarse.init new () none) tr m) :
    ∃ r, Served (m.log.map Prod.snd) r ∧ Holds m.guarded r := by
  induction h with
  | nil => exact ⟨.new, .nil, holds_new⟩
  | @snoc _ m m' a _ hs ih =>
    obtain ⟨r, hserved, hholds⟩ := ih
    cases a with
    | start t req =>
      obtain ⟨o, -, rfl⟩ := Option.map_eq_some_iff.mp hs
      exact ⟨r, hserved, hholds⟩
    | run t =>
      rw [Coarse.step] at hs
      cases hpc : m.pcs t with
      | none =>
        simp only [hpc, shared, Option.map_none] at hs
        cases hs
      | some req =>
        simp only [hpc, shared, Option.map_some, Option.some.injEq] at hs
        subst hs
        simp only [List.map_append]
        exact hserved.serve hholds req

/-- **A shared delegate is atomic.** In every run of any number of threads, whatever the
interleaving of their accesses, the requests that have returned were served by one registry
one after the other, in the order in which they gave the lock back: each change threw what the
registry throws, each `operator()` invoked what it had registered, and `empty` was true exactly
if that was nothing. Whenever the lock is free the delegate holds what the registry says, and
at most one thread is inside, a callback that invokes included. -/
theorem shared_registry
    {tr : List (Fine (Delegate F G K) Unit (Option (Request F G K)) (Request F G K × InPc F G K)
      (Request F G K × Reply F G) T × Action (Request F G K) T)}
    {x : Fine (Delegate F G K) Unit (Option (Request F G K)) (Request F G K × InPc F G K)
      (Request F G K × Reply F G) T}
    (h : Run (Fine.step (shared F G K)) (Fine.init new () none) tr x) :
    (∃ r, Served (x.log.map Prod.snd) r ∧ (x.lock = false → Holds x.guarded r)) ∧
      ∀ t u p q, x.pcs t = .inside p → x.pcs u = .inside q → t = u := by
  have hwhole : ∀ (d : Delegate F G K) (o : Option (Request F G K)) s, True →
      (shared F G K).enter o = some s →
        (shared F G K).Completes d s (whole d s) ∧ True := by
    intro d o s _ henter
    obtain ⟨req, -, rfl⟩ := Option.map_eq_some_iff.mp henter
    exact ⟨whole_completes, trivial⟩
  obtain ⟨tr', m, hrun, hmatches⟩ := atomic (I := fun _ => True) trivial hwhole h
  obtain ⟨r, hserved, hholds⟩ := coarse_served hrun
  refine ⟨⟨r, ?_, ?_⟩, hmatches.one⟩
  · rw [hmatches.log]
    exact hserved
  · intro hfree
    rw [hmatches.free hfree]
    exact hholds

/-- A thread that invokes waits for one that registers, and another change waits in turn until
the callback has returned. -/
def waiting : List (Action (Request Nat Nat Nat) Bool) :=
  [.start true (.change (.register (.function 5))), .start false .call, .run true, .run false,
    .run true, .run true, .run false, .start true (.change (.remove (.function 5))),
    .run false, .run true] ++
    List.replicate 3 (.run false) ++ List.replicate 4 (.run true)

theorem shared_registry_waiting :
    ∃ (tr : _) (x : Fine (Delegate Nat Nat Nat) Unit (Option (Request Nat Nat Nat))
        (Request Nat Nat Nat × InPc Nat Nat Nat) (Request Nat Nat Nat × Reply Nat Nat) Bool),
      Run (Fine.step (shared Nat Nat Nat)) (Fine.init new () none) tr x ∧
      tr.map Prod.snd = waiting ∧
      x.log = [(true, .change (.register (.function 5)), .done (.ok ())),
        (false, .call, .invoked [.function 5]),
        (true, .change (.remove (.function 5)), .done (.ok ()))] ∧
      ∃ r, Served (x.log.map Prod.snd) r ∧ (x.lock = false → Holds x.guarded r) := by
  have hrun : ∃ (tr : _) (x : Fine (Delegate Nat Nat Nat) Unit (Option (Request Nat Nat Nat))
        (Request Nat Nat Nat × InPc Nat Nat Nat) (Request Nat Nat Nat × Reply Nat Nat) Bool),
      Run (Fine.step (shared Nat Nat Nat)) (Fine.init new () none) tr x ∧
      tr.map Prod.snd = waiting ∧
      x.log = [(true, .change (.register (.function 5)), .done (.ok ())),
        (false, .call, .invoked [.function 5]),
        (true, .change (.remove (.function 5)), .done (.ok ()))] :=
    Run.of_exec_any _ (by decide)
  obtain ⟨tr, x, hr, ha, hlog⟩ := hrun
  exact ⟨tr, x, hr, ha, hlog, (shared_registry hr).1⟩

end Delegate

end Vee
