import Vee.Lockfree.AtQueueSystem

/- No loss and no duplication in an `atqueue`.

   `Holds` says what the slots hold while calls are in progress, and
   `Holds.move` how one step of one call changes that: a publication adds its
   value, a clearing removes the value its reader took, every other step leaves
   it. Both rest on the holders of slots being alone in them (`Slots`), so the
   balance between the values put in, taken out and held is an invariant of the
   runs whose winning exchanges are all `Clean` (`clean_no_loss`).

   In other runs values are lost: a thread that is stalled between its check and
   its exchange while the index comes round wins a slot that holds a value
   (`stale_exchange_loses`). -/
namespace Vee.Lockfree.AtQueue
open Transition

variable {w n : Nat} {D T : Type*} [DecidableEq T]

/-! ## The values in the slots -/

theorem holding_congr {ptrs : Fin n → Bool} {val val' : Fin n → D}
    (h : ∀ i, ptrs i = true → val i = val' i) : holding ptrs val = holding ptrs val' := by
  apply Multiset.map_congr rfl
  intro i hi
  exact h i (by simpa using hi)

/-- Setting a null slot adds its value. -/
theorem holding_set {ptrs : Fin n → Bool} {val : Fin n → D} {i : Fin n} (h : ptrs i = false) :
    holding (Function.update ptrs i true) val = val i ::ₘ holding ptrs val := by
  have hi : i ∉ Finset.univ.filter fun j => ptrs j = true := by simp [h]
  have hset : (Finset.univ.filter fun j => Function.update ptrs i true j = true) =
      Finset.cons i (Finset.univ.filter fun j => ptrs j = true) hi := by
    ext j
    by_cases hj : j = i
    · simp [hj]
    · simp [hj]
  simp only [holding, hset, Finset.cons_val, Multiset.map_cons]

/-- Clearing a set slot removes its value. -/
theorem holding_clear {ptrs : Fin n → Bool} {val : Fin n → D} {i : Fin n} (h : ptrs i = true) :
    holding ptrs val = val i ::ₘ holding (Function.update ptrs i false) val := by
  have hback : Function.update (Function.update ptrs i false) i true = ptrs := by
    rw [Function.update_idem, ← h, Function.update_eq_self]
  rw [← holding_set (Function.update_self i false ptrs), hback]

/-- `m` is what the slots hold: a slot being read and already taken from holds
what its reader took, any other non-null slot what is stored in it. -/
def Holds (q : AtQueue n D) (pcs : T → Pc w n D) (m : Multiset D) : Prop :=
  ∃ val : Fin n → D,
    (∀ t i v, pcs t = .dequeue (.clear i v) → val i = v) ∧
    (∀ i, q.ptrs i = true → q.cont i = val i ∨ ∃ t, pcs t = .dequeue (.clear i (val i))) ∧
    m = holding q.ptrs val

/-- A reader that has taken its value is still there after another thread's step. -/
theorem taken_update {pcs : T → Pc w n D} {t u : T} {p : Pc w n D} {i : Fin n} {v : D}
    (hu : pcs u = .dequeue (.clear i v)) (ht : pcs t ≠ .dequeue (.clear i v)) :
    Function.update pcs t p u = .dequeue (.clear i v) := by
  rw [Function.update_of_ne, hu]
  intro heq
  subst heq
  exact ht hu

theorem Holds.quiet {q : AtQueue n D} {pcs : T → Pc w n D} {m : Multiset D} (h : Holds q pcs m)
    {t : T} {p : Pc w n D} (ht : ∀ i v, pcs t ≠ .dequeue (.clear i v))
    (hp : ∀ i v, p ≠ .dequeue (.clear i v)) : Holds q (Function.update pcs t p) m := by
  obtain ⟨val, h₁, h₂, hm⟩ := h
  refine ⟨val, ?_, ?_, hm⟩
  · grind [Function.update_apply]
  · intro i hi
    rcases h₂ i hi with h | ⟨u, hu⟩
    · exact Or.inl h
    · exact Or.inr ⟨u, taken_update hu (ht _ _)⟩

theorem Holds.move {moved : D → D} {q q' : AtQueue n D} {pcs : T → Pc w n D} {t : T}
    {p' : Pc w n D} {m : Multiset D} (hs : Slots q pcs) (hm : Move moved q (pcs t) q' p')
    (h : Holds q pcs m) : ∃ m', Holds q' (Function.update pcs t p') m' ∧
      m' + (pcs t).removes = m + (pcs t).adds := by
  generalize hp : pcs t = p at hm
  cases hm with
  | loadRear | free | retry | full | lostRear | reserve | loadFront | seen | empty | lostFront
  | claim =>
    exact ⟨m, h.quiet (by simp [hp]) (by simp), by simp [Pc.adds, Pc.removes]⟩
  | store v i =>
    obtain ⟨val, h₁, h₂, rfl⟩ := h
    -- the slot written is null, so it counts for nothing yet
    have hnull := hs.writer_null t i (by rw [hp]; rfl)
    refine ⟨_, ⟨val, ?_, ?_, rfl⟩, by simp [Pc.adds, Pc.removes]⟩
    · grind [Function.update_apply]
    · intro j hj
      dsimp only at hj ⊢
      have hji : j ≠ i := by
        intro heq
        subst heq
        simp [hnull] at hj
      rcases h₂ j hj with h | ⟨u, hu⟩
      · exact Or.inl (by rwa [Function.update_of_ne hji])
      · exact Or.inr ⟨u, taken_update hu (by simp [hp])⟩
  | publish v i =>
    obtain ⟨val, h₁, h₂, rfl⟩ := h
    have hw : (pcs t).writing = some i := by rw [hp]; rfl
    have hnull := hs.writer_null t i hw
    have hcont := hs.stored t v i hp
    -- slot `i` starts to count, with the value stored in it
    refine ⟨_, ⟨Function.update val i v, ?_, ?_, rfl⟩, ?_⟩
    · intro u j x hu
      have hut : u ≠ t := by
        intro heq
        subst heq
        simp at hu
      rw [Function.update_of_ne hut] at hu
      have hj : j ≠ i := by
        intro heq
        subst heq
        exact hs.disjoint hw (by rw [hu]; rfl)
      rw [Function.update_of_ne hj]
      exact h₁ u j x hu
    · intro j hj
      dsimp only at hj ⊢
      by_cases hji : j = i
      · subst hji
        exact Or.inl (by rw [Function.update_self, hcont])
      · rw [Function.update_of_ne hji] at hj ⊢
        rcases h₂ j hj with h | ⟨u, hu⟩
        · exact Or.inl h
        · exact Or.inr ⟨u, taken_update hu (by simp [hp])⟩
    · have hval : holding q.ptrs (Function.update val i v) = holding q.ptrs val := by
        apply holding_congr
        intro j hj
        rw [Function.update_of_ne]
        intro heq
        subst heq
        simp [hnull] at hj
      rw [holding_set hnull, Function.update_self, hval]
      simp only [Pc.adds, Pc.removes, add_zero]
      rw [← Multiset.singleton_add, add_comm]
  | take i =>
    obtain ⟨val, h₁, h₂, rfl⟩ := h
    have hr : (pcs t).reading = some i := by rw [hp]; rfl
    have hset := hs.reader_set t i hr
    -- the slot still stores its value: a reader that had taken it would be `t` itself
    have hval : q.cont i = val i := by
      rcases h₂ i hset with h | ⟨u, hu⟩
      · exact h
      · have hut := hs.one_reader t u i hr (by rw [hu]; rfl)
        subst hut
        simp [hp] at hu
    refine ⟨_, ⟨val, ?_, ?_, rfl⟩, by simp [Pc.adds, Pc.removes]⟩
    · grind [Function.update_apply]
    · intro j hj
      dsimp only at hj ⊢
      by_cases hji : j = i
      · subst hji
        exact Or.inr ⟨t, by rw [Function.update_self, hval]⟩
      · rcases h₂ j hj with h | ⟨u, hu⟩
        · exact Or.inl (by rwa [Function.update_of_ne hji])
        · exact Or.inr ⟨u, taken_update hu (by simp [hp])⟩
  | clear i out =>
    obtain ⟨val, h₁, h₂, rfl⟩ := h
    have hset := hs.reader_set t i (by rw [hp]; rfl)
    refine ⟨_, ⟨val, ?_, ?_, rfl⟩, ?_⟩
    · grind [Function.update_apply]
    · intro j hj
      dsimp only at hj ⊢
      have hji : j ≠ i := by
        intro heq
        subst heq
        simp at hj
      rw [Function.update_of_ne hji] at hj
      rcases h₂ j hj with h | ⟨u, hu⟩
      · exact Or.inl h
      · exact Or.inr ⟨u, taken_update hu (by simp [hp, Ne.symm hji])⟩
    -- the slot stops to count, and the value returned is the one it counted
    · rw [holding_clear hset, h₁ t i out hp]
      simp only [Pc.adds, Pc.removes, add_zero]
      rw [add_comm, Multiset.singleton_add]

/-! ## The balance over a run -/

/-- The holders are alone in their slots, and the values put in are those taken
out and those the slots hold. -/
structure Ledger (s : System w n D T) : Prop where
  slots : Slots s.mem s.pcs
  balance : ∃ m, Holds s.mem s.pcs m ∧ puts s.log = gots s.log + m

omit [DecidableEq T] in
theorem ledger_init [NeZero n] [Inhabited D] : Ledger (System.init : System w n D T) where
  slots := Slots.init fun _ => rfl
  balance := by
    refine ⟨0, ⟨fun _ => default, ?_, ?_, ?_⟩, rfl⟩
    · intro t i v ht
      cases ht
    · intro i hi
      cases hi
    · simp [System.init, AtQueue.init, holding]

theorem Ledger.step {moved : D → D} {s s' : System w n D T} {a : Action w D T}
    (h : Ledger s) (hc : s.Clean a) (hs : s.step moved a = some s') : Ledger s' := by
  obtain ⟨m, hm, hb⟩ := h.balance
  rcases System.step_cases hs with ⟨t, p, ht, hp, rfl⟩ | ⟨t, p, rfl, hmove, hpcs, hput, hgot⟩
  · have hquiet : p.Quiet ∧ ∀ i v, p ≠ .dequeue (.clear i v) := by
      rcases hp with ⟨v, retries, rfl⟩ | rfl
      · exact ⟨⟨rfl, rfl⟩, by simp⟩
      · exact ⟨⟨rfl, rfl⟩, by simp⟩
    exact ⟨h.slots.quiet hquiet.1, m, hm.quiet (by simp [ht]) hquiet.2, hb⟩
  · obtain ⟨m', hm', hadd⟩ := hm.move h.slots hmove
    refine ⟨?_, ?_⟩
    · rw [hpcs]
      exact h.slots.move hc hmove
    · refine ⟨m', by rwa [hpcs], ?_⟩
      calc puts s'.log = gots s.log + (m + (s.pcs t).adds) := by rw [hput, hb, add_assoc]
        _ = gots s.log + (s.pcs t).removes + m' := by rw [← hadd, add_assoc, add_comm m']
        _ = gots s'.log + m' := by rw [hgot]

omit [DecidableEq T] in
theorem Ledger.noLossNoDup {s : System w n D T} (h : Ledger s) : s.NoLossNoDup := by
  obtain ⟨m, ⟨val, h₁, h₂, rfl⟩, hb⟩ := h.balance
  refine ⟨?_, ?_⟩
  · rw [hb]
    exact Multiset.le_add_right _ _
  · intro hq
    rw [hb, stored]
    congr 1
    apply holding_congr
    intro i hi
    -- no call is in progress, so every slot stores what it counts
    rcases h₂ i hi with h | ⟨t, ht⟩
    · exact h.symm
    · rw [hq t] at ht
      cases ht

/-- **Runs whose winning exchanges are clean lose and duplicate nothing**: at any
capacity, with any threads, in every state reached. -/
theorem clean_no_loss [NeZero n] [Inhabited D] {moved : D → D} {s : System w n D T}
    {tr : List (System w n D T × Action w D T)} (h : Run (System.step moved) System.init tr s)
    (hc : Meets System.Clean tr) : s.NoLossNoDup :=
  (h.invariant ledger_init (fun _ _ _ hi ha hs => hi.step ha hs) hc).noLossNoDup

/-- Thread `t` starts a call and takes the next `k` steps of it. -/
def call (start : Action w D T) (t : T) (k : Nat) : List (Action w D T) :=
  start :: List.replicate k (.run t)

/-- One thread puts in 7 while another is inside `dequeue`, which takes it out. -/
theorem clean_no_loss_handover : ∃ (tr : _) (s : System 64 1 Nat Bool),
    Run (System.step id) System.init tr s ∧ Meets System.Clean tr ∧
      s.log = [.enqueued false 7 true, .dequeued true (some 7)] ∧ s.NoLossNoDup := by
  have hrun : ∃ (tr : _) (s : System 64 1 Nat Bool), Run (System.step id) System.init tr s ∧
      Meets System.Clean tr ∧ tr.map Prod.snd = _ ∧
      s.log = [.enqueued false 7 true, .dequeued true (some 7)] :=
    Run.of_execMeets_any (call (.dequeue true) true 1 ++ call (.enqueue false 7 0) false 5 ++
      List.replicate 4 (.run true)) (by decide)
  obtain ⟨tr, s, hr, hc, -, hlog⟩ := hrun
  exact ⟨tr, s, hr, hc, hlog, clean_no_loss hr hc⟩

/-- Capacity 2. Thread `false` finds slot 0 free and stalls before its exchange;
thread `true` fills the queue, so `_rear` is 0 again; thread `false` wins the
exchange and writes over the value 1, which nobody has taken out. -/
def staleExchange : List (Action 64 Nat Bool) :=
  call (.enqueue false 7 0) false 2 ++ call (.enqueue true 1 0) true 5 ++
    call (.enqueue true 2 0) true 5 ++ List.replicate 3 (Action.run false)

theorem stale_exchange_loses : ∃ (tr : _) (s : System 64 2 Nat Bool),
    Run (System.step id) System.init tr s ∧ tr.map Prod.snd = staleExchange ∧
      ¬ s.NoLossNoDup := by
  apply Run.of_exec_any
  decide

end Vee.Lockfree.AtQueue
