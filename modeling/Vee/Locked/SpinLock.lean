import Mathlib.Data.Fintype.Basic
import Vee.Lib.Transition

/- `vee::lock::spin_lock` (vee/lock.h) and the clients of one lock.

   A lock is an atomic flag; each step is one access to it. A client holds the lock once for
   each `lock` it has completed and each `try_lock` that returned true to it, less its
   unlocks. `try_lock` returns what the flag was before it set it, so it says true where
   the lock was held and takes a free lock while it says false: the lock excludes and
   keeps its contract in the runs without `try_lock`, and in no others (`excludes_iff`). -/
namespace Vee.Locked
open Transition

/-- `spin_lock`: its `_lock` is set or clear. -/
structure SpinLock where
  lock : Bool
  deriving DecidableEq, Repr

namespace SpinLock

/-- The constructor clears the flag. -/
def new : SpinLock := ⟨false⟩

/-- `_lock.test_and_set(order)`: the flag is set, and what it was is returned. -/
def testAndSet (l : SpinLock) : SpinLock × Bool := (⟨true⟩, l.lock)

/-- One turn of `lock`; the loop goes on while it returns true. -/
def lockTurn (l : SpinLock) : SpinLock × Bool := l.testAndSet

/-- `try_lock` -/
def tryLock (l : SpinLock) : SpinLock × Bool := l.testAndSet

/-- `unlock`: the flag is cleared, whoever calls. -/
def unlock (_ : SpinLock) : SpinLock := ⟨false⟩

end SpinLock

/-- A lock, the clients that are in `lock`'s loop, and how often each client holds the lock. -/
structure Clients (C : Type*) where
  lock : SpinLock
  locking : C → Bool
  holds : C → Nat

/-- Call `lock`, take a turn of its loop, call `try_lock`, or call `unlock`. -/
inductive LockAction (C : Type*) where
  | lock (c : C)
  | turn (c : C)
  | tryLock (c : C)
  | unlock (c : C)
  deriving DecidableEq, Repr

namespace Clients

variable {C : Type*}

/-- A new lock that nobody holds. -/
def init : Clients C := { lock := .new, locking := fun _ => false, holds := fun _ => 0 }

section
variable [DecidableEq C] (s : Clients C)

/-- The state after a turn of `c` in `lock`'s loop. -/
def turned (c : C) : Clients C :=
  match s.lock.lockTurn with
  | (lock, true) => { s with lock := lock }
  | (lock, false) =>
    { lock := lock
      locking := Function.update s.locking c false
      holds := Function.update s.holds c (s.holds c + 1) }

/-- The state after a `try_lock` of `c`, and what it returned. -/
def tried (c : C) : Clients C × Bool :=
  match s.lock.tryLock with
  | (lock, true) =>
    ({ s with lock := lock, holds := Function.update s.holds c (s.holds c + 1) }, true)
  | (lock, false) => ({ s with lock := lock }, false)

/-- The state after an `unlock` of `c`. -/
def unlocked (c : C) : Clients C :=
  { s with lock := s.lock.unlock, holds := Function.update s.holds c (s.holds c - 1) }

/-- A step of the clients; each unlocks only what it holds. -/
def step : LockAction C → Option (Clients C)
  | .lock c =>
    if s.locking c then none else some { s with locking := Function.update s.locking c true }
  | .turn c => if s.locking c then some (s.turned c) else none
  | .tryLock c => if s.locking c then none else some (s.tried c).1
  | .unlock c => if s.locking c = false ∧ 0 < s.holds c then some (s.unlocked c) else none

/-- At most one client holds the lock. -/
def Exclusive : Prop := ∀ c d, 0 < s.holds c → 0 < s.holds d → c = d

/-- A `try_lock` returns true exactly if its caller becomes a holder, and changes nothing
where it returns false. -/
def Contract : LockAction C → Prop
  | .tryLock c =>
    ((s.tried c).2 = true ↔ s.holds c = 0 ∧ 0 < (s.tried c).1.holds c) ∧
      ((s.tried c).2 = false → (s.tried c).1.lock = s.lock ∧ (s.tried c).1.holds = s.holds)
  | _ => True

/-- The step is no `try_lock`. -/
def Blocking (_ : Clients C) : LockAction C → Prop
  | .tryLock _ => False
  | _ => True

end

/-! ## What holds while nobody calls `try_lock` -/

/-- The flag is set exactly while somebody holds the lock, who then is the only one and holds
it once. -/
structure Held (s : Clients C) : Prop where
  set_iff : s.lock.lock = true ↔ ∃ c, 0 < s.holds c
  exclusive : s.Exclusive
  once : ∀ c, s.holds c ≤ 1

theorem held_init : Held (init : Clients C) where
  set_iff := by simp [init, SpinLock.new]
  exclusive := by
    intro c d hc
    exact absurd hc (Nat.lt_irrefl 0)
  once := by simp [init]

variable {s s' : Clients C} {a : LockAction C}

/-- With the flag clear nobody holds the lock. -/
theorem Held.free (h : Held s) (hclear : s.lock.lock = false) (c : C) : s.holds c = 0 := by
  by_contra hc
  have hset := h.set_iff.mpr ⟨c, Nat.pos_of_ne_zero hc⟩
  rw [hclear] at hset
  cases hset

variable [DecidableEq C]

theorem Held.turned (h : Held s) (c : C) : Held (s.turned c) := by
  cases hflag : s.lock.lock with
  | true =>
    have hs : s.turned c = s := by
      unfold Clients.turned SpinLock.lockTurn SpinLock.testAndSet
      obtain ⟨⟨lock⟩, locking, holds⟩ := s
      obtain rfl : lock = true := hflag
      rfl
    rwa [hs]
  | false =>
    have hs : s.turned c = ⟨⟨true⟩, Function.update s.locking c false,
        Function.update s.holds c (s.holds c + 1)⟩ := by
      simp [Clients.turned, SpinLock.lockTurn, SpinLock.testAndSet, hflag]
    rw [hs]
    have hself : Function.update s.holds c (s.holds c + 1) c = 1 := by
      rw [Function.update_self, h.free hflag c]
    have hother : ∀ d, d ≠ c → Function.update s.holds c (s.holds c + 1) d = 0 := by
      intro d hd
      rw [Function.update_of_ne hd, h.free hflag d]
    have honly : ∀ d, 0 < Function.update s.holds c (s.holds c + 1) d → d = c := by
      intro d hd
      by_contra hne
      rw [hother d hne] at hd
      exact absurd hd (Nat.lt_irrefl 0)
    constructor
    case set_iff => exact iff_of_true rfl ⟨c, Nat.lt_of_lt_of_eq Nat.one_pos hself.symm⟩
    case exclusive =>
      intro d e hd he
      exact (honly d hd).trans (honly e he).symm
    case once =>
      intro d
      by_cases hd : d = c
      · rw [hd]
        exact hself.le
      · exact (hother d hd).le.trans (Nat.zero_le 1)

/-- The only holder gives the lock back. -/
theorem Held.unlocked (h : Held s) {c : C} (hc : 0 < s.holds c) : Held (s.unlocked c) := by
  have hnone : ∀ d, (s.unlocked c).holds d = 0 := by
    intro d
    show Function.update s.holds c (s.holds c - 1) d = 0
    by_cases hd : d = c
    · have honce := h.once c
      rw [hd, Function.update_self]
      omega
    · rw [Function.update_of_ne hd]
      by_contra hne
      exact hd (h.exclusive d c (Nat.pos_of_ne_zero hne) hc)
  constructor
  case set_iff =>
    refine iff_of_false Bool.false_ne_true ?_
    intro hall
    obtain ⟨d, hd⟩ := hall
    exact absurd (hnone d) hd.ne'
  case exclusive =>
    intro d e hd
    rw [hnone d] at hd
    omega
  case once =>
    intro d
    rw [hnone d]
    omega

theorem Held.step (h : Held s) (hblock : s.Blocking a) (hs : s.step a = some s') : Held s' := by
  cases a with
  | lock c =>
    simp only [Clients.step] at hs
    split at hs
    · cases hs
    · obtain rfl := Option.some.inj hs
      exact ⟨h.set_iff, h.exclusive, h.once⟩
  | turn c =>
    simp only [Clients.step] at hs
    split at hs
    · obtain rfl := Option.some.inj hs
      exact h.turned c
    · cases hs
  | tryLock c => exact hblock.elim
  | unlock c =>
    simp only [Clients.step] at hs
    split at hs
    · rename_i hc
      obtain rfl := Option.some.inj hs
      exact h.unlocked hc.2
    · cases hs

theorem held_run {tr : List (Clients C × LockAction C)} (h : Run step init tr s)
    (hblock : Meets Blocking tr) : Held s :=
  Run.invariant (C := Blocking) held_init (fun _ _ _ hi hb hs => hi.step hb hs) h hblock

/-! ## What a `try_lock` breaks -/

/-- A free lock is taken by a `try_lock` that returns false. -/
theorem tried_free (hclear : s.lock.lock = false) (c : C) :
    (s.tried c).2 = false ∧ (s.tried c).1.lock = ⟨true⟩ := by
  simp [tried, SpinLock.tryLock, SpinLock.testAndSet, hclear]

/-- On a lock that is held `try_lock` returns true, and its caller holds the lock as well. -/
theorem tried_taken (hset : s.lock.lock = true) (c : C) :
    (s.tried c).2 = true ∧ (s.tried c).1.holds = Function.update s.holds c (s.holds c + 1) := by
  simp [tried, SpinLock.tryLock, SpinLock.testAndSet, hset]

/-- The first `try_lock` of a run breaks its contract, or leaves two holders. -/
theorem Held.tried (h : Held s) {c : C} (hcontract : s.Contract (.tryLock c)) :
    ¬ (s.tried c).1.Exclusive := by
  intro hex
  obtain ⟨htrue, hfalse⟩ := hcontract
  cases hflag : s.lock.lock with
  | false =>
    obtain ⟨hret, hset⟩ := tried_free hflag c
    have hsame := (hfalse hret).1
    rw [hset] at hsame
    rw [← hsame] at hflag
    cases hflag
  | true =>
    obtain ⟨hret, hholds⟩ := tried_taken hflag c
    obtain ⟨hzero, hpos⟩ := htrue.mp hret
    obtain ⟨d, hd⟩ := h.set_iff.mp hflag
    have hdc : d ≠ c := by
      intro heq
      subst heq
      omega
    refine hdc (hex d c ?_ hpos)
    rwa [hholds, Function.update_of_ne hdc]

/-- **The lock excludes while nobody calls `try_lock`.** In a run of any number of clients
there is at most one holder in every state and every `try_lock` keeps its contract exactly if
there is no `try_lock` in it. -/
theorem excludes_iff {tr : List (Clients C × LockAction C)} (h : Run step init tr s) :
    ((∀ m ∈ visited tr s, m.Exclusive) ∧ Meets Contract tr) ↔ Meets Blocking tr := by
  induction h with
  | nil =>
    refine iff_of_true ⟨?_, meets_nil _⟩ (meets_nil _)
    intro m hm
    obtain rfl : m = init := by simpa [visited] using hm
    exact held_init.exclusive
  | @snoc tr s s' a hr hs ih =>
    simp only [mem_visited_snoc, meets_snoc]
    refine ⟨?_, ?_⟩
    · intro hall
      obtain ⟨hex, hcontract, ha⟩ := hall
      have hblock : Meets Blocking tr := ih.mp ⟨fun m hm => hex m (.inl hm), hcontract⟩
      refine ⟨hblock, ?_⟩
      cases a with
      | tryLock c =>
        simp only [Clients.step] at hs
        split at hs
        · cases hs
        · obtain rfl := Option.some.inj hs
          exact (held_run hr hblock).tried ha (hex _ (.inr rfl))
      | lock c | turn c | unlock c => trivial
    · intro hall
      obtain ⟨hblock, ha⟩ := hall
      obtain ⟨hex, hcontract⟩ := ih.mpr hblock
      refine ⟨?_, hcontract, ?_⟩
      · intro m hcase
        rcases hcase with hm | rfl
        · exact hex m hm
        · exact ((held_run hr hblock).step ha hs).exclusive
      · cases a with
        | tryLock c => exact ha.elim
        | lock c | turn c | unlock c => trivial

/-! ## Concrete runs -/

instance [Fintype C] (s : Clients C) : Decidable s.Exclusive :=
  inferInstanceAs (Decidable (∀ c d, 0 < s.holds c → 0 < s.holds d → c = d))

instance (s : Clients C) : ∀ a, Decidable (s.Blocking a)
  | .tryLock _ => isFalse id
  | .lock _ | .turn _ | .unlock _ => isTrue trivial

/-- A client waits for the other's `unlock`. -/
def contended : List (LockAction Bool) :=
  [.lock true, .turn true, .lock false, .turn false, .unlock true, .turn false]

theorem excludes_iff_contended : ∃ (tr : _) (s : Clients Bool), Run step init tr s ∧
    tr.map Prod.snd = contended ∧ (∀ m ∈ visited tr s, m.Exclusive) ∧ Meets Contract tr ∧
      s.holds false = 1 := by
  have hrun : ∃ (tr : _) (s : Clients Bool), Run step init tr s ∧ Meets Blocking tr ∧
      tr.map Prod.snd = contended ∧ s.holds false = 1 :=
    Run.of_execMeets_any _ (by decide)
  obtain ⟨tr, s, h, hblock, ha, hholds⟩ := hrun
  obtain ⟨hex, hcontract⟩ := (excludes_iff h).mpr hblock
  exact ⟨tr, s, h, ha, hex, hcontract, hholds⟩

/-- One client holds the lock, and the other tries to take it. -/
def tryHeld : List (LockAction Bool) := [.lock true, .turn true, .tryLock false]

theorem try_lock_second_holder : ∃ (tr : _) (s : Clients Bool), Run step init tr s ∧
    tr.map Prod.snd = tryHeld ∧ ¬ s.Exclusive :=
  Run.of_exec_any _ (by decide)

end Clients

end Vee.Locked
