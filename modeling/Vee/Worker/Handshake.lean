import Vee.Lib.Census
import Vee.Worker.SingleRunner

/- The handshake between the callers of `nothrow_request` and the thread that runs
   the worker.

   A caller that counts its job when `_remained` is 0 owes the thread a signal; it
   is pending until it has called `set_value` or has found the worker in standby.
   The thread goes to sleep when its own copy of the count is 0, and takes one
   signal before it runs the next job. `Handshake` says that the two sides agree:
   while the thread is on its way to sleep or asleep there is a pending caller if
   there is a counted job, and while it is awake there is a counted job and no
   pending caller. Every step keeps this but one: the thread's first load of
   `_remained`, which takes a count whose signal may still be pending.

   `T` are the callers and `cs` says where each is in `nothrow_request`, if it is
   in it, so that the same invariant serves a worker alone and in a group. -/
namespace Vee.Worker
open Counting
open Lockfree (Next)

variable {w : Nat} {J T : Type*}

/-- The caller owes the thread a signal, or will once it has read the state. -/
def Pending : Option (RequestPc w) → Prop
  | some .loadState | some .awaitPromise | some .setValue => True
  | _ => False

instance : ∀ c : Option (RequestPc w), Decidable (Pending c)
  | some .loadState | some .awaitPromise | some .setValue => isTrue trivial
  | none | some .enqueue | some .fetchAdd | some (.jobRequested _) => isFalse id

/-- The point a step of `nothrow_request` leaves its caller at, if the call goes on. -/
def RequestPc.after : Next (RequestPc w) (RequestResult w) → Option (RequestPc w)
  | .goto pc => some pc
  | .returned _ => none

/-- The jobs that are out of the queue and still counted. -/
def WorkerPc.inHand : WorkerPc w → Nat
  | run | reset | jobProcessed | fetchSub => 1
  | _ => 0

/-- The thread will sleep, or sleeps, without a signal. -/
def WorkerPc.Asleep (m : Memory w J) : WorkerPc w → Prop
  | test remained => remained = 0
  | makePromise => True
  | sleep p | wait p => m.signals p = 0
  | _ => False

/-- The thread will run a job without sleeping any more. -/
def WorkerPc.Awake (m : Memory w J) : WorkerPc w → Prop
  | test remained => remained ≠ 0
  | sleep p | wait p => m.signals p ≠ 0
  | resetPromise _ | dequeue | run | reset | jobProcessed | fetchSub => True
  | _ => False

/-- The worker has not been shut down, its thread being at `p`, and the callers and
the thread agree on the jobs and the signals. -/
structure Handshake (size : QueueSize w) (m : Memory w J) (p : WorkerPc w)
    (cs : T → Option (RequestPc w)) : Prop where
  running : p ≠ .unborn → m.state = .running
  here : p = .unborn ∨ p.InMain ∧ p ≠ .finalExchange
  promise : m.promise = p.slept
  made : ∀ q, p.slept = some q → q < m.made
  fresh : ∀ q, m.made ≤ q → m.signals q = 0
  room : m.queue.length ≤ size.slots
  /-- a job is placed before it is counted and taken out before it is uncounted -/
  counts : ∃ U : Finset T, (∀ t, t ∈ U ↔ cs t = some .fetchAdd) ∧
    m.remained.toNat + U.card = m.queue.length + p.inHand
  pending_one : ∀ t u, Pending (cs t) → Pending (cs u) → t = u
  pending_counted : ∀ t, Pending (cs t) → m.remained ≠ 0
  signaller : ∀ t, cs t = some .setValue → ∃ q, m.promise = some q ∧ m.signals q = 0
  awake : p.Awake m → m.remained ≠ 0 ∧ ∀ t, ¬ Pending (cs t)
  asleep : p.Asleep m → m.remained ≠ 0 → ∃ t, Pending (cs t)

/-! ## Arithmetic of the counter -/

theorem toNat_add_one {x : BitVec w} (h : x.toNat + 1 < 2 ^ w) : (x + 1).toNat = x.toNat + 1 := by
  have hone : 1 < 2 ^ w := by omega
  have hval : (1 : BitVec w).toNat = 1 := by
    simpa using Nat.mod_eq_of_lt hone
  rw [BitVec.toNat_add, hval, Nat.mod_eq_of_lt h]

theorem add_one_ne_zero {x : BitVec w} (h : x.toNat + 1 < 2 ^ w) : x + 1 ≠ 0 := by
  intro hzero
  have hval := toNat_add_one h
  rw [hzero] at hval
  simp at hval

/-- No count read as 0 has a successor that is 0. -/
theorem QueueSize.one_ne_zero (size : QueueSize w) : (0 : BitVec w) + 1 ≠ 0 := by
  have hsize := size.slots_lt
  have hval : (0 : BitVec w).toNat = 0 := by simp
  exact add_one_ne_zero (by omega)

theorem toNat_ne_zero {x : BitVec w} (h : x ≠ 0) : x.toNat ≠ 0 := by
  intro hzero
  exact h (BitVec.eq_of_toNat_eq (by simpa using hzero))

theorem toNat_sub_one {x : BitVec w} (h : x ≠ 0) : (x - 1).toNat = x.toNat - 1 := by
  have hpos := toNat_ne_zero h
  have hone : (1 : BitVec w).toNat = 1 := by
    have hlt := x.isLt
    simpa using Nat.mod_eq_of_lt (show 1 < 2 ^ w by omega)
  have hle : (1 : BitVec w) ≤ x := by
    rw [BitVec.le_def, hone]
    omega
  rw [BitVec.toNat_sub_of_le hle, hone]

section
variable {size : QueueSize w} {m m' : Memory w J} {p p' : WorkerPc w}
  {cs : T → Option (RequestPc w)} {job : Job J}

theorem WorkerPc.inHand_le (p : WorkerPc w) : p.inHand ≤ 1 := by
  cases p <;> simp [WorkerPc.inHand]

/-- The count does not wrap when a job is counted. -/
theorem Handshake.remained_lt (h : Handshake size m p cs) {t : T} (ht : cs t = some .fetchAdd) :
    m.remained.toNat + 1 < 2 ^ w := by
  obtain ⟨U, hU, hcount⟩ := h.counts
  have hcard : 0 < U.card := Finset.card_pos.mpr ⟨t, (hU t).mpr ht⟩
  have hroom := h.room
  have hhand := p.inHand_le
  have hsize := size.slots_lt
  omega

/-- No call reads a count whose successor is zero. -/
theorem Handshake.positive (h : Handshake size m p cs) {t : T} {pc : RequestPc w} {old : BitVec w}
    (ht : cs t = some pc) (hm : RequestMove size job m pc m' (.goto (.jobRequested old))) :
    old + 1 ≠ 0 := by
  cases hm with
  | counted => exact add_one_ne_zero (h.remained_lt ht)
  | standby | signal => exact size.one_ne_zero

/-- An awake thread finds a job. -/
theorem Handshake.queue_ne_nil (h : Handshake size m .dequeue cs) : m.queue ≠ [] := by
  intro hnil
  obtain ⟨U, -, hcount⟩ := h.counts
  have hpos := toNat_ne_zero (h.awake trivial).1
  simp only [hnil, WorkerPc.inHand, List.length_nil] at hcount
  omega

/-- A thread whose promise is set is awake. -/
theorem WorkerPc.awake_of_set {q : Nat} (hslept : p.slept = some q) (hset : m.signals q ≠ 0) :
    p.Awake m := by
  cases p <;> simp_all [WorkerPc.slept, WorkerPc.Awake]

/-- Where the thread is when a caller is about to signal. -/
theorem Handshake.unsignalled (h : Handshake size m p cs) {t : T} (ht : Pending (cs t)) {q : Nat}
    (hq : m.promise = some q) : m.signals q = 0 := by
  by_contra hset
  have hslept : p.slept = some q := by rw [← h.promise, hq]
  exact (h.awake (WorkerPc.awake_of_set hslept hset)).2 t ht

/-! ## Steps of the callers -/

variable [DecidableEq T] {t : T} {c' : Option (RequestPc w)}

/-- The callers that have placed a job and not counted it, after one caller has moved. -/
theorem uncounted_update {U : Finset T} (hU : ∀ u, u ∈ U ↔ cs u = some .fetchAdd) (t : T)
    (c' : Option (RequestPc w)) :
    ∃ V : Finset T, (∀ u, u ∈ V ↔ Function.update cs t c' u = some .fetchAdd) ∧
      V.card + (if cs t = some .fetchAdd then 1 else 0) =
        U.card + if c' = some .fetchAdd then 1 else 0 :=
  Census.update (P := fun c : Option (RequestPc w) => c = some .fetchAdd) hU t c'

/-- Nobody is about to signal but those that were, and the caller that has moved. -/
theorem signaller_update {u : T} (hu : Function.update cs t c' u = some .setValue) :
    c' = some .setValue ∨ cs u = some .setValue := by
  rcases of_update (P := fun c : Option (RequestPc w) => c = some .setValue) hu with
    ⟨-, hset⟩ | ⟨-, hset⟩
  · exact .inl hset
  · exact .inr hset

/-- A caller that counts nothing, takes no signal on itself and drops none. -/
theorem Handshake.stay (h : Handshake size m p cs) (hpend : Pending c' ↔ Pending (cs t))
    (hcs : cs t ≠ some .fetchAdd) (hc' : c' ≠ some .fetchAdd)
    (hset : c' = some .setValue → ∃ q, m.promise = some q ∧ m.signals q = 0) :
    Handshake size m p (Function.update cs t c') := by
  have hiff : ∀ u, Pending (Function.update cs t c' u) ↔ Pending (cs u) := by
    intro u
    by_cases hu : u = t
    · rw [hu, Function.update_self, hpend]
    · rw [Function.update_of_ne hu]
  obtain ⟨h₁, h₂, h₃, h₄, h₅, h₆, ⟨U, hU, hcount⟩, h₈, h₉, h₁₀, h₁₁, h₁₂⟩ := h
  constructor
  case counts =>
    obtain ⟨V, hV, hcard⟩ := uncounted_update hU t c'
    rw [if_neg hcs, if_neg hc'] at hcard
    exact ⟨V, hV, by omega⟩
  case signaller =>
    intro u hu
    rcases signaller_update hu with hc | hu
    · exact hset hc
    · exact h₁₀ u hu
  all_goals simpa only [hiff]

/-- A caller places its job. -/
theorem Handshake.placed (h : Handshake size m p cs) (ht : cs t = some .enqueue)
    (hroom : m.queue.length < size.slots) :
    Handshake size { m with queue := m.queue ++ [job] } p
      (Function.update cs t (some .fetchAdd)) := by
  have hiff : ∀ u, Pending (Function.update cs t (some .fetchAdd) u) ↔ Pending (cs u) := by
    intro u
    by_cases hu : u = t
    · rw [hu, Function.update_self, ht]
      exact Iff.rfl
    · rw [Function.update_of_ne hu]
  obtain ⟨h₁, h₂, h₃, h₄, h₅, h₆, ⟨U, hU, hcount⟩, h₈, h₉, h₁₀, h₁₁, h₁₂⟩ := h
  constructor
  case counts =>
    obtain ⟨V, hV, hcard⟩ := uncounted_update hU t (some .fetchAdd)
    refine ⟨V, hV, ?_⟩
    simp only [ht, reduceCtorEq, Option.some.injEq, if_false, if_true] at hcard
    simp only [List.length_append, List.length_singleton]
    omega
  case room =>
    simp only [List.length_append, List.length_singleton]
    omega
  case signaller =>
    intro u hu
    rcases signaller_update hu with hc | hu
    · cases hc
    · exact h₁₀ u hu
  case awake =>
    intro hawake
    have hawake' : p.Awake m := by cases p <;> exact hawake
    simpa only [hiff] using h₁₁ hawake'
  case asleep =>
    intro hasleep
    have hasleep' : p.Asleep m := by cases p <;> exact hasleep
    simpa only [hiff] using h₁₂ hasleep'
  all_goals simpa only [hiff]

/-- A caller counts its job, and owes a signal if it is the first. -/
theorem Handshake.counted (h : Handshake size m p cs) (ht : cs t = some .fetchAdd)
    (hfirst : Pending c' ↔ m.remained = 0) (hc' : c' ≠ some .fetchAdd ∧ c' ≠ some .setValue) :
    Handshake size { m with remained := m.remained + 1 } p (Function.update cs t c') := by
  have hlt := h.remained_lt ht
  obtain ⟨h₁, h₂, h₃, h₄, h₅, h₆, ⟨U, hU, hcount⟩, h₈, h₉, h₁₀, h₁₁, h₁₂⟩ := h
  have hnz : m.remained + 1 ≠ 0 := add_one_ne_zero hlt
  have hother : ∀ u, u ≠ t → Function.update cs t c' u = cs u :=
    fun u hu => Function.update_of_ne hu _ _
  have hself : Function.update cs t c' t = c' := Function.update_self ..
  have hpend : ∀ u, Pending (Function.update cs t c' u) → Pending (cs u) ∨ u = t := by
    intro u hu
    rcases of_update hu with ⟨hut, -⟩ | ⟨-, hu⟩
    · exact .inr hut
    · exact .inl hu
  -- a caller that counts the first job is the only one that owes a signal
  have hnone : m.remained = 0 → ∀ u, ¬ Pending (cs u) := fun hz u hu => h₉ u hu hz
  constructor
  case counts =>
    obtain ⟨V, hV, hcard⟩ := uncounted_update hU t c'
    refine ⟨V, hV, ?_⟩
    rw [if_pos ht, if_neg hc'.1] at hcard
    show (m.remained + 1).toNat + V.card = m.queue.length + p.inHand
    rw [toNat_add_one hlt]
    omega
  case pending_one =>
    intro u v hu hv
    rcases hpend u hu with hu' | rfl
    · rcases hpend v hv with hv' | rfl
      · exact h₈ u v hu' hv'
      · rw [hself] at hv
        exact absurd hu' (hnone (hfirst.mp hv) u)
    · rcases hpend v hv with hv' | rfl
      · rw [hself] at hu
        exact absurd hv' (hnone (hfirst.mp hu) v)
      · rfl
  case pending_counted => exact fun _ _ => hnz
  case signaller =>
    intro u hu
    rcases signaller_update hu with hc | hu
    · exact absurd hc hc'.2
    · exact h₁₀ u hu
  case awake =>
    intro hawake
    have hawake' : p.Awake m := by cases p <;> exact hawake
    obtain ⟨hne, hno⟩ := h₁₁ hawake'
    refine ⟨hnz, ?_⟩
    intro u hu
    rcases hpend u hu with hu' | rfl
    · exact hno u hu'
    · rw [hself] at hu
      exact hne (hfirst.mp hu)
  case asleep =>
    intro hasleep _
    have hasleep' : p.Asleep m := by cases p <;> exact hasleep
    by_cases hz : m.remained = 0
    · exact ⟨t, by rw [hself]; exact hfirst.mpr hz⟩
    · obtain ⟨u, hu⟩ := h₁₂ hasleep' hz
      have hut : u ≠ t := by
        intro heq
        subst heq
        rw [ht] at hu
        exact hu
      exact ⟨u, by rwa [hother u hut]⟩
  all_goals assumption

/-- A caller finds the worker in standby: there is no thread to signal. -/
theorem Handshake.standby (h : Handshake size m p cs) (ht : cs t = some .loadState)
    (hst : m.state = .standby) (old : BitVec w) :
    Handshake size m p (Function.update cs t (some (.jobRequested old))) := by
  have hunborn : p = .unborn := by
    by_contra hne
    rw [h.running hne] at hst
    cases hst
  have hpend : ∀ u, Pending (Function.update cs t (some (.jobRequested old)) u) →
      Pending (cs u) := by
    intro u hu
    rcases of_update hu with ⟨-, hu⟩ | ⟨-, hu⟩
    · exact hu.elim
    · exact hu
  obtain ⟨h₁, h₂, h₃, h₄, h₅, h₆, ⟨U, hU, hcount⟩, h₈, h₉, h₁₀, h₁₁, h₁₂⟩ := h
  constructor
  case counts =>
    obtain ⟨V, hV, hcard⟩ := uncounted_update hU t (some (.jobRequested old))
    simp only [ht, reduceCtorEq, Option.some.injEq, if_false] at hcard
    exact ⟨V, hV, by omega⟩
  case pending_one => exact fun u v hu hv => h₈ u v (hpend u hu) (hpend v hv)
  case pending_counted => exact fun u hu => h₉ u (hpend u hu)
  case signaller =>
    intro u hu
    rcases signaller_update hu with hc | hu
    · cases hc
    · exact h₁₀ u hu
  case awake =>
    subst hunborn
    exact fun hawake => hawake.elim
  case asleep =>
    subst hunborn
    exact fun hasleep => hasleep.elim
  all_goals assumption

/-- A caller signals: its signal was the one pending, and the thread is awake. -/
theorem Handshake.signal (h : Handshake size m p cs) (ht : cs t = some .setValue) {q : Nat}
    (hq : m.promise = some q) (old : BitVec w) :
    Handshake size { m with signals := Function.update m.signals q (m.signals q + 1) } p
      (Function.update cs t (some (.jobRequested old))) := by
  have hpt : Pending (cs t) := by
    rw [ht]
    trivial
  have hzero := h.unsignalled hpt hq
  have hslept : p.slept = some q := by rw [← h.promise, hq]
  have hqmade := h.made q hslept
  -- the signal was the only one pending
  have hnone : ∀ u, ¬ Pending (Function.update cs t (some (.jobRequested old)) u) := by
    intro u hu
    rcases of_update hu with ⟨-, hu⟩ | ⟨hut, hu⟩
    · exact hu
    · exact hut (h.pending_one u t hu hpt)
  have hset : ∀ u, Function.update cs t (some (.jobRequested old)) u ≠ some .setValue := by
    intro u hu
    apply hnone u
    rw [hu]
    trivial
  have hcounted := h.pending_counted t hpt
  obtain ⟨h₁, h₂, h₃, h₄, h₅, h₆, ⟨U, hU, hcount⟩, h₈, h₉, h₁₀, h₁₁, h₁₂⟩ := h
  constructor
  case counts =>
    obtain ⟨V, hV, hcard⟩ := uncounted_update hU t (some (.jobRequested old))
    simp only [ht, reduceCtorEq, Option.some.injEq, if_false] at hcard
    refine ⟨V, hV, ?_⟩
    show m.remained.toNat + V.card = m.queue.length + p.inHand
    omega
  case fresh =>
    intro r hr
    have hrq : r ≠ q := by
      intro heq
      subst heq
      exact absurd hqmade (by simpa using hr)
    simpa [Function.update_of_ne hrq] using h₅ r hr
  case pending_one => exact fun u _ hu => absurd hu (hnone u)
  case pending_counted => exact fun u hu => absurd hu (hnone u)
  case signaller => exact fun u hu => absurd hu (hset u)
  case awake => exact fun _ => ⟨hcounted, hnone⟩
  case asleep =>
    intro hasleep
    cases p <;> simp_all [WorkerPc.slept, WorkerPc.Asleep]
  all_goals assumption

/-- **Steps of `nothrow_request`** keep the agreement, and none of them finds the
promise set already or null. -/
theorem Handshake.request (h : Handshake size m p cs) {pc : RequestPc w}
    {next : Next (RequestPc w) (RequestResult w)} (ht : cs t = some pc)
    (hm : RequestMove size job m pc m' next) :
    Handshake size m' p (Function.update cs t (RequestPc.after next)) := by
  cases hm with
  | refused | awake | spin | requested => apply h.stay <;> simp [ht, RequestPc.after, Pending]
  | placed hroom => exact h.placed ht hroom
  | first hz =>
    exact h.counted ht (by simp [RequestPc.after, Pending, hz]) (by simp [RequestPc.after])
  | counted hnz =>
    exact h.counted ht (by simpa [RequestPc.after, Pending] using hnz) (by simp [RequestPc.after])
  | standby hst => exact h.standby ht hst 0
  | ready q hq =>
    have hzero := h.unsignalled (by rw [ht]; trivial) hq
    apply h.stay <;> simp [ht, RequestPc.after, Pending, hq, hzero]
  | signal q hq => exact h.signal ht hq 0
  | signalAgain q hq hset =>
    obtain ⟨r, hr, hzero⟩ := h.signaller t ht
    obtain rfl : q = r := Option.some.inj (hq.symm.trans hr)
    exact absurd hzero hset
  | signalNull hnull =>
    obtain ⟨r, hr, -⟩ := h.signaller t ht
    rw [hnull] at hr
    cases hr

omit [DecidableEq T] in
/-- No call ends in the exception of `set_value` or at a null promise, and one that
counted its job does not return 0. -/
theorem Handshake.result (h : Handshake size m p cs) {pc : RequestPc w} {r : RequestResult w}
    (ht : cs t = some pc) (hm : RequestMove size job m pc m' (.returned r)) :
    ∃ count, r = .count count := by
  cases hm with
  | refused | requested => exact ⟨_, rfl⟩
  | signalAgain q hq hset =>
    obtain ⟨r, hr, hzero⟩ := h.signaller t ht
    obtain rfl : q = r := Option.some.inj (hq.symm.trans hr)
    exact absurd hzero hset
  | signalNull hnull =>
    obtain ⟨r, hr, -⟩ := h.signaller t ht
    rw [hnull] at hr
    cases hr

omit [DecidableEq T] in
/-- A call of `set_value` that throws nothing is the first one on its promise. -/
theorem RequestMove.once {pc : RequestPc w} {next : Next (RequestPc w) (RequestResult w)}
    (h : RequestMove size job m pc m' next) (hnext : next ≠ .returned .promiseSatisfied)
    (hone : ∀ q, m.signals q ≤ 1) (q : Nat) : m'.signals q ≤ 1 := by
  cases h with
  | signal r hr hzero =>
    by_cases hq : q = r
    · simp [hq, hzero]
    · simpa [Function.update_of_ne hq] using hone q
  | signalAgain => exact absurd rfl hnext
  | _ => exact hone q

/-! ## Steps of the thread -/

omit [DecidableEq T] in
theorem WorkMove.signals (h : WorkMove m p m' p') : m'.signals = m.signals := by
  cases h <;> rfl

omit [DecidableEq T] in
/-- The thread goes on without touching the queue, the count or the promise. -/
theorem Handshake.move (h : Handshake size m p cs) (p' : WorkerPc w) (j : Option (Job J))
    (hborn : p ≠ .unborn) (hin : p'.InMain ∧ p' ≠ .finalExchange) (hslept : p'.slept = p.slept)
    (hhand : p'.inHand = p.inHand)
    (hawake : p'.Awake m → m.remained ≠ 0 ∧ ∀ t, ¬ Pending (cs t))
    (hasleep : p'.Asleep m → m.remained ≠ 0 → ∃ t, Pending (cs t)) :
    Handshake size { m with currentJob := j } p' cs where
  running _ := h.running hborn
  here := .inr hin
  promise := by rw [hslept]; exact h.promise
  made := by rw [hslept]; exact h.made
  fresh := h.fresh
  room := h.room
  counts := by rw [hhand]; exact h.counts
  pending_one := h.pending_one
  pending_counted := h.pending_counted
  signaller := h.signaller
  awake ha := hawake (by cases p' <;> exact ha)
  asleep ha := hasleep (by cases p' <;> exact ha)

omit [DecidableEq T] in
/-- The thread makes a promise: nobody has signalled it, and nobody is about to. -/
theorem Handshake.makePromise (h : Handshake size m .makePromise cs) :
    Handshake size { m with promise := some m.made, made := m.made + 1 } (.sleep m.made) cs where
  running _ := h.running (by simp)
  here := .inr ⟨trivial, by simp⟩
  promise := rfl
  made q hq := by
    obtain rfl : m.made = q := Option.some.inj hq
    exact Nat.lt_succ_self _
  fresh q hq := h.fresh q (Nat.le_of_succ_le hq)
  room := h.room
  counts := h.counts
  pending_one := h.pending_one
  pending_counted := h.pending_counted
  signaller t ht := by
    obtain ⟨q, hq, -⟩ := h.signaller t ht
    rw [h.promise] at hq
    cases hq
  awake ha := absurd (h.fresh m.made (Nat.le_refl _)) ha
  asleep _ := h.asleep trivial

omit [DecidableEq T] in
/-- The thread drops the promise it has been woken by. -/
theorem Handshake.resetPromise {q : Nat} (h : Handshake size m (.resetPromise q) cs) :
    Handshake size { m with promise := none } .dequeue cs where
  running _ := h.running (by simp)
  here := .inr ⟨trivial, by simp⟩
  promise := rfl
  made _ hq := by cases hq
  fresh := h.fresh
  room := h.room
  counts := h.counts
  pending_one := h.pending_one
  pending_counted := h.pending_counted
  signaller t ht := absurd (by rw [ht]; trivial) ((h.awake trivial).2 t)
  awake _ := h.awake trivial
  asleep ha := ha.elim

omit [DecidableEq T] in
/-- The thread takes a job out of the queue. -/
theorem Handshake.takeJob {queue : List (Job J)} (h : Handshake size m .dequeue cs)
    (hq : m.queue = job :: queue) :
    Handshake size { m with queue := queue, currentJob := some job } .run cs where
  running _ := h.running (by simp)
  here := .inr ⟨trivial, by simp⟩
  promise := h.promise
  made _ hq := by cases hq
  fresh := h.fresh
  room := by
    have hroom := h.room
    rw [hq, List.length_cons] at hroom
    exact Nat.le_of_succ_le hroom
  counts := by
    obtain ⟨U, hU, hcount⟩ := h.counts
    rw [hq] at hcount
    exact ⟨U, hU, hcount⟩
  pending_one := h.pending_one
  pending_counted := h.pending_counted
  signaller := h.signaller
  awake _ := h.awake trivial
  asleep ha := ha.elim

omit [DecidableEq T] in
/-- The thread uncounts the job it has run: it goes on if there is another one, and
to sleep, with no signal pending, if there is none. -/
theorem Handshake.fetchSub (h : Handshake size m .fetchSub cs) :
    Handshake size { m with remained := m.remained - 1 } (.test (m.remained - 1)) cs where
  running _ := h.running (by simp)
  here := .inr ⟨trivial, by simp⟩
  promise := h.promise
  made _ hq := by cases hq
  fresh := h.fresh
  room := h.room
  counts := by
    obtain ⟨U, hU, hcount⟩ := h.counts
    have hne := (h.awake trivial).1
    have hpos := toNat_ne_zero hne
    refine ⟨U, hU, ?_⟩
    show (m.remained - 1).toNat + U.card = m.queue.length + 0
    rw [toNat_sub_one hne]
    simp only [WorkerPc.inHand] at hcount
    omega
  pending_one := h.pending_one
  pending_counted t ht := absurd ht ((h.awake trivial).2 t)
  signaller := h.signaller
  awake ha := ⟨ha, (h.awake trivial).2⟩
  asleep ha hne := absurd ha hne

omit [DecidableEq T] in
/-- **Steps of `_worker_main`** keep the agreement, if the first load of the count
finds no caller pending. -/
theorem Handshake.work (h : Handshake size m p cs) (hm : WorkMove m p m' p')
    (hload : p = .load → ∀ t, ¬ Pending (cs t)) : Handshake size m' p' cs := by
  cases hm with
  -- the one step that needs a hypothesis: a count is taken whose signal may be pending
  | load =>
    exact h.move (.test m.remained) m.currentJob (by simp) ⟨trivial, by simp⟩ rfl rfl
      (fun ha => ⟨ha, hload rfl⟩) (fun ha hne => absurd ha hne)
  | idle r hrun hr =>
    exact h.move .makePromise m.currentJob (by simp) ⟨trivial, by simp⟩ rfl rfl
      (fun ha => ha.elim) (fun _ => h.asleep hr)
  | busy r hrun hr =>
    exact h.move .dequeue m.currentJob (by simp) ⟨trivial, by simp⟩ rfl rfl
      (fun _ => h.awake hr) (fun ha => ha.elim)
  | leave r hrun => exact absurd (h.running (by simp)) hrun
  | makePromise => exact h.makePromise
  | sleep q =>
    exact h.move (.wait q) m.currentJob (by simp) ⟨trivial, by simp⟩ rfl rfl
      (fun ha => h.awake ha) (fun ha => h.asleep ha)
  | wake q hset =>
    exact h.move (.resetPromise q) m.currentJob (by simp) ⟨trivial, by simp⟩ rfl rfl
      (fun _ => h.awake hset) (fun ha => ha.elim)
  | resetPromise q => exact h.resetPromise
  -- `_epoch` finds a job
  | noJob hnil => exact absurd hnil h.queue_ne_nil
  | job job queue hq => exact h.takeJob hq
  | run =>
    exact h.move .reset m.currentJob (by simp) ⟨trivial, by simp⟩ rfl rfl
      (fun _ => h.awake trivial) (fun ha => ha.elim)
  | reset =>
    exact h.move .jobProcessed none (by simp) ⟨trivial, by simp⟩ rfl rfl
      (fun _ => h.awake trivial) (fun ha => ha.elim)
  | jobProcessed =>
    exact h.move .fetchSub m.currentJob (by simp) ⟨trivial, by simp⟩ rfl rfl
      (fun _ => h.awake trivial) (fun ha => ha.elim)
  | fetchSub => exact h.fetchSub
  | finish | unexpected =>
    rcases h.here with hp | ⟨-, hp⟩
    · cases hp
    · exact absurd rfl hp

end

end Vee.Worker
