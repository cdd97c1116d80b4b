import Mathlib.Data.Fintype.Option
import Vee.Lib.Census
import Vee.Lib.Record
import Vee.Lockfree.StackSystem

/- The shape of a stack that several threads use.

   Each block is in the pool, below `_top`, or in the hands of one call, so `_top` does not
   exceed the capacity (`Counted`). A position is occupied if it is below `_top` and its
   `push` has published, or if it is above and its `pop` has not cleared it yet (`Shape`);
   that holds as long as each winning exchange of `pop` finds its position as the check
   before it saw it, and nobody at it (`Clean`). An exchange compares `_top` alone, and
   `_top` may have come back to an old value: then a position may be left occupied above
   `_top` with no call in progress (`occupied_above_top`). -/
namespace Vee.Lockfree.Stack
open Transition Counting

variable {n : Nat} {D T : Type*}

/-- The position that the thread has raised `_top` over and has not filled yet. -/
def Pc.pushing : Pc D → Option Nat
  | push (.await _ i) | push (.publish _ i) => some i
  | _ => none

/-- The position that the thread has lowered `_top` below and has not cleared yet. -/
def Pc.popping : Pc D → Option Nat
  | pop (.take i) | pop (.clear i _) => some i
  | _ => none

/-- The thread has a block that is neither in the pool nor below `_top`. -/
def Pc.Carrying : Pc D → Prop
  | push (.store _ _) | push (.fetchAdd _) => True
  | pop (.take _) | pop (.clear _ _) | pop (.putBack _ _) => True
  | _ => False

instance : DecidablePred (Pc.Carrying : Pc D → Prop)
  | .idle | .push (.dequeue _) | .push (.await _ _) | .push (.publish _ _) | .pop .load
  | .pop (.check _) | .pop (.exchange _) => isFalse id
  | .push (.store _ _) | .push (.fetchAdd _) | .pop (.take _) | .pop (.clear _ _)
  | .pop (.putBack _ _) => isTrue trivial

/-- No call is in progress. -/
def System.Quiescent (s : System D T) : Prop := ∀ t, s.pcs t = .idle

/-- If the step is a winning exchange of `pop`, the position it takes is occupied, and no
other call is at it. -/
def System.Clean (s : System D T) : Action D T → Prop
  | .run t => s.pcs t = .pop (.exchange s.mem.top) →
    s.mem.outarr (s.mem.top - 1) ≠ none ∧
      ∀ u, (s.pcs u).pushing ≠ some (s.mem.top - 1) ∧ (s.pcs u).popping ≠ some (s.mem.top - 1)
  | _ => True

/-- Each block is in the pool, below `_top`, or in the hands of one call. -/
structure Counted (n : Nat) (s : System D T) : Prop where
  count : ∃ U : Finset T, Census Pc.Carrying s.pcs U ∧
    s.mem.contQueue.length + s.mem.top + U.card = n
  pushing : ∀ t i, (s.pcs t).pushing = some i → i < n
  /-- `pop` gets to its check and its exchange with a `top` above 0 -/
  nonzero : ∀ t top, s.pcs t = .pop (.check top) ∨ s.pcs t = .pop (.exchange top) → 0 < top

theorem Counted.top_le {s : System D T} (h : Counted n s) : s.mem.top ≤ n := by
  obtain ⟨U, -, hcount⟩ := h.count
  omega

/-- There is room above `_top` for a call that carries a block. -/
theorem Counted.top_lt {s : System D T} (h : Counted n s) {t : T} (ht : (s.pcs t).Carrying) :
    s.mem.top < n := by
  obtain ⟨U, hU, hcount⟩ := h.count
  have hcard := hU.card_pos ht
  omega

/-- Which positions are occupied. -/
structure Shape (s : System D T) : Prop where
  one_push : ∀ t u i, (s.pcs t).pushing = some i → (s.pcs u).pushing = some i → t = u
  one_pop : ∀ t u i, (s.pcs t).popping = some i → (s.pcs u).popping = some i → t = u
  below : ∀ t i, (s.pcs t).pushing = some i → i < s.mem.top
  vacant : ∀ t b i, s.pcs t = .push (.publish b i) → s.mem.outarr i = none
  occupied : ∀ i, s.mem.outarr i ≠ none ↔ (∃ t, (s.pcs t).popping = some i) ∨
    i < s.mem.top ∧ ∀ t, (s.pcs t).pushing ≠ some i
  /-- where `_top` has been raised again over a position that is not cleared, a `push` waits -/
  raised : ∀ t i, (s.pcs t).popping = some i → i < s.mem.top → ∃ u, (s.pcs u).pushing = some i

section
variable [DecidableEq T] {moved : D → D} {s s' : System D T} {a : Action D T} {t : T} {p : Pc D}

/-- What holds at the new point of `t` and at the points of the other threads holds at all. -/
theorem pcs_forall {P : T → Pc D → Prop} (hpcs : s'.pcs = Function.update s.pcs t p)
    (hself : P t p) (hother : ∀ u, u ≠ t → P u (s.pcs u)) : ∀ u, P u (s'.pcs u) := by
  rw [hpcs]
  exact (Function.forall_update_iff s.pcs P).mpr ⟨hself, hother⟩

/-- What the step of `t` leaves alone at `t` is left alone at all threads. -/
theorem pcs_same {β : Type*} {g : Pc D → β} (hpcs : s'.pcs = Function.update s.pcs t p)
    (hself : g p = g (s.pcs t)) : ∀ u, g (s'.pcs u) = g (s.pcs u) :=
  pcs_forall (P := fun u pc => g pc = g (s.pcs u)) hpcs hself fun _ _ => rfl

/-! ## The blocks -/

theorem Counted.stay (h : Counted n s) (hpcs : s'.pcs = Function.update s.pcs t p)
    (hcount : s'.mem.contQueue.length + s'.mem.top + (if p.Carrying then 1 else 0) =
      s.mem.contQueue.length + s.mem.top + if (s.pcs t).Carrying then 1 else 0)
    (hpush : ∀ i, p.pushing = some i → i < n)
    (hpop : ∀ top, p = .pop (.check top) ∨ p = .pop (.exchange top) → 0 < top) :
    Counted n s' := by
  constructor
  case count =>
    obtain ⟨U, hU, hsum⟩ := h.count
    obtain ⟨U', hU', hcard⟩ := hU.update t p
    refine ⟨U', by rwa [hpcs], ?_⟩
    omega
  case pushing =>
    exact pcs_forall (P := fun _ pc => ∀ i, pc.pushing = some i → i < n) hpcs hpush
      fun u _ => h.pushing u
  case nonzero =>
    exact pcs_forall (P := fun _ pc => ∀ top, pc = .pop (.check top) ∨ pc = .pop (.exchange top) →
      0 < top) hpcs hpop fun u _ => h.nonzero u

theorem Counted.step (h : Counted n s) (hs : s.step n moved a = some s') : Counted n s' := by
  rcases System.step_cases hs with ⟨t, p, ht, hp, hmem, hpcs⟩ | ⟨t, p, rfl, hmove, hpcs⟩
  · apply h.stay hpcs
    · rw [hmem, ht]
      rcases hp with ⟨data, rfl⟩ | rfl <;> rfl
    · rcases hp with ⟨data, rfl⟩ | rfl <;> simp [Pc.pushing]
    · rcases hp with ⟨data, rfl⟩ | rfl <;> simp
  · have hpush := h.pushing t
    have hpop := h.nonzero t
    have hlt := h.top_lt (t := t)
    generalize hm : s'.mem = m at hmove
    generalize hpc : s.pcs t = pc at hmove hpush hpop hlt
    cases hmove with
    | fetchAdd b =>
      refine h.stay hpcs ?_ ?_ (by simp)
      · simp [hm, hpc, Pc.Carrying]
        omega
      · simpa [Pc.pushing] using hlt trivial
    | win =>
      have hpos := hpop s.mem.top (.inr rfl)
      refine h.stay hpcs ?_ (by simp [Pc.pushing]) (by simp)
      simp [hm, hpc, Pc.Carrying]
      omega
    | load hne =>
      refine h.stay hpcs (by simp [hm, hpc, Pc.Carrying]) (by simp [Pc.pushing]) ?_
      simp
      omega
    | block data b free hq =>
      refine h.stay hpcs ?_ (by simp [Pc.pushing]) (by simp)
      simp [hm, hpc, hq, Pc.Carrying]
      omega
    | putBack i out hroom =>
      refine h.stay hpcs ?_ (by simp [Pc.pushing]) (by simp)
      simp [hm, hpc, Pc.Carrying]
      omega
    | seen top hset =>
      refine h.stay hpcs (by simp [hm, hpc, Pc.Carrying]) (by simp [Pc.pushing]) ?_
      simpa using hpop top
    | occupied b i hset | vacant b i hnull =>
      refine h.stay hpcs (by simp [hm, hpc, Pc.Carrying]) ?_ (by simp)
      simpa [Pc.pushing] using hpush
    | _ => exact h.stay hpcs (by simp [hm, hpc, Pc.Carrying]) (by simp [Pc.pushing]) (by simp)

omit [DecidableEq T] in
theorem counted_init (cont : Nat → D) : Counted n (System.init n cont : System D T) where
  count := ⟨∅, census_none fun _ => id, by simp [System.init, Memory.init]⟩
  pushing := by simp [System.init, Pc.pushing]
  nonzero := by simp [System.init]

/-! ## The positions -/

/-- Who is to publish where finds the position null. -/
theorem Shape.vacant_step (h : Shape s) (hpcs : s'.pcs = Function.update s.pcs t p)
    (hself : ∀ b i, p = .push (.publish b i) → s'.mem.outarr i = none)
    (hother : ∀ u b i, u ≠ t → s.pcs u = .push (.publish b i) → s.mem.outarr i = none →
      s'.mem.outarr i = none) :
    ∀ u b i, s'.pcs u = .push (.publish b i) → s'.mem.outarr i = none :=
  pcs_forall (P := fun _ pc => ∀ b i, pc = .push (.publish b i) → s'.mem.outarr i = none) hpcs
    hself fun u hut b i hu => hother u b i hut hu (h.vacant u b i hu)

/-- A step that occupies and clears nothing and leaves `_top` and its thread's position
alone. -/
theorem Shape.stay (h : Shape s) (hpcs : s'.pcs = Function.update s.pcs t p)
    (hpush : p.pushing = (s.pcs t).pushing) (hpop : p.popping = (s.pcs t).popping)
    (hvacant : ∀ b i, p = .push (.publish b i) → s.mem.outarr i = none)
    (houtarr : s'.mem.outarr = s.mem.outarr) (htop : s'.mem.top = s.mem.top) : Shape s' := by
  have hpushing := pcs_same (g := Pc.pushing) hpcs hpush
  have hpopping := pcs_same (g := Pc.popping) hpcs hpop
  constructor
  case one_push => simpa only [hpushing] using h.one_push
  case one_pop => simpa only [hpopping] using h.one_pop
  case below => simpa only [hpushing, htop] using h.below
  case vacant =>
    apply h.vacant_step hpcs
    · simpa only [houtarr] using hvacant
    · intro u b i _ _ hnull
      rwa [houtarr]
  case occupied => simpa only [hpushing, hpopping, houtarr, htop] using h.occupied
  case raised => simpa only [hpushing, hpopping, htop] using h.raised

/-- A `push` raises `_top`: the position is its own from now on. -/
theorem Shape.fetchAdd (h : Shape s) {b : Nat} (ht : s.pcs t = .push (.fetchAdd b))
    (hpcs : s'.pcs = Function.update s.pcs t (.push (.await b s.mem.top)))
    (houtarr : s'.mem.outarr = s.mem.outarr) (htop : s'.mem.top = s.mem.top + 1) : Shape s' := by
  have hother : ∀ u, u ≠ t → s'.pcs u = s.pcs u := by
    intro u hu
    rw [hpcs, Function.update_of_ne hu]
  have hself : s'.pcs t = .push (.await b s.mem.top) := by rw [hpcs, Function.update_self]
  have hpop : ∀ u, (s'.pcs u).popping = (s.pcs u).popping := by
    apply pcs_same hpcs
    rw [ht]
    rfl
  have hpush : ∀ u i, (s'.pcs u).pushing = some i ↔
      u = t ∧ i = s.mem.top ∨ (s.pcs u).pushing = some i := by
    intro u i
    by_cases hu : u = t
    · rw [hu, hself, ht]
      simp [Pc.pushing, eq_comm]
    · simp [hother u hu, hu]
  constructor
  case one_push =>
    -- every other `push` has a position below the old `_top`
    intro u v i hu hv
    rcases (hpush u i).mp hu with ⟨rfl, rfl⟩ | hu
    · rcases (hpush v _).mp hv with ⟨rfl, -⟩ | hv
      · rfl
      · exact absurd (h.below v _ hv) (Nat.lt_irrefl _)
    · rcases (hpush v i).mp hv with ⟨rfl, rfl⟩ | hv
      · exact absurd (h.below u _ hu) (Nat.lt_irrefl _)
      · exact h.one_push u v i hu hv
  case one_pop => simpa only [hpop] using h.one_pop
  case below =>
    intro u i hu
    rw [htop]
    rcases (hpush u i).mp hu with ⟨-, rfl⟩ | hu
    · exact Nat.lt_succ_self _
    · exact Nat.lt_succ_of_lt (h.below u i hu)
  case vacant =>
    refine h.vacant_step hpcs (by simp) ?_
    intro u c i _ _ hnull
    rwa [houtarr]
  case occupied =>
    intro i
    rw [houtarr, h.occupied i, htop]
    simp only [hpop, ne_eq, hpush, not_or, not_and]
    refine or_congr_right ?_
    grind
  case raised =>
    intro u i hu hi
    rw [hpop] at hu
    rcases Nat.lt_succ_iff_lt_or_eq.mp (htop ▸ hi) with hlt | rfl
    · obtain ⟨v, hv⟩ := h.raised u i hu hlt
      exact ⟨v, (hpush v i).mpr (.inr hv)⟩
    · exact ⟨t, (hpush t _).mpr (.inl ⟨rfl, rfl⟩)⟩

/-- A `push` fills its position. -/
theorem Shape.publish (h : Shape s) {b i : Nat} (ht : s.pcs t = .push (.publish b i))
    (hpcs : s'.pcs = Function.update s.pcs t .idle)
    (houtarr : s'.mem.outarr = Function.update s.mem.outarr i (some b))
    (htop : s'.mem.top = s.mem.top) : Shape s' := by
  have hother : ∀ u, u ≠ t → s'.pcs u = s.pcs u := by
    intro u hu
    rw [hpcs, Function.update_of_ne hu]
  have hself : s'.pcs t = .idle := by rw [hpcs, Function.update_self]
  have hpop : ∀ u, (s'.pcs u).popping = (s.pcs u).popping := by
    apply pcs_same hpcs
    rw [ht]
    rfl
  have hpush : ∀ u j, (s'.pcs u).pushing = some j ↔ (s.pcs u).pushing = some j ∧ u ≠ t := by
    intro u j
    by_cases hu : u = t
    · simp [hu, hself, Pc.pushing]
    · simp [hother u hu, hu]
  have hti : (s.pcs t).pushing = some i := by rw [ht, Pc.pushing]
  -- the position is vacant, so it is no `pop`'s
  have hvacant := h.vacant t b i ht
  have hnopop : ∀ u, (s.pcs u).popping ≠ some i := by
    intro u hu
    exact (h.occupied i).mpr (.inl ⟨u, hu⟩) hvacant
  constructor
  case one_push =>
    intro u v j hu hv
    exact h.one_push u v j ((hpush u j).mp hu).1 ((hpush v j).mp hv).1
  case one_pop => simpa only [hpop] using h.one_pop
  case below =>
    intro u j hu
    rw [htop]
    exact h.below u j ((hpush u j).mp hu).1
  case vacant =>
    refine h.vacant_step hpcs (by simp) ?_
    intro u c j hut hu hnull
    have hji : j ≠ i := by
      intro heq
      subst heq
      exact hut (h.one_push u t j (by rw [hu, Pc.pushing]) hti)
    rwa [houtarr, Function.update_of_ne hji]
  case occupied =>
    intro j
    rw [htop]
    simp only [hpop, ne_eq, hpush]
    by_cases hji : j = i
    · subst hji
      refine iff_of_true (by simp [houtarr]) (.inr ⟨h.below t j hti, ?_⟩)
      intro u hall
      obtain ⟨hu, hut⟩ := hall
      exact hut (h.one_push u t j hu hti)
    · rw [houtarr, Function.update_of_ne hji, ← ne_eq, h.occupied j]
      refine or_congr_right (and_congr_right fun _ => forall_congr' fun u => not_congr ?_)
      refine ⟨fun hu => ⟨hu, ?_⟩, And.left⟩
      intro heq
      subst heq
      exact hji (Option.some.inj (hu.symm.trans hti))
  case raised =>
    intro u j hu hj
    rw [hpop] at hu
    rw [htop] at hj
    obtain ⟨v, hv⟩ := h.raised u j hu hj
    refine ⟨v, (hpush v j).mpr ⟨hv, ?_⟩⟩
    intro heq
    subst heq
    obtain rfl : j = i := Option.some.inj (hv.symm.trans hti)
    exact hnopop u hu

/-- A `pop` lowers `_top` below an occupied position that is nobody's. -/
theorem Shape.win (h : Shape s) {k : Nat} (hk : s.mem.top = k + 1)
    (ht : s.pcs t = .pop (.exchange s.mem.top)) (hset : s.mem.outarr k ≠ none)
    (hfree : ∀ u, (s.pcs u).pushing ≠ some k ∧ (s.pcs u).popping ≠ some k)
    (hpcs : s'.pcs = Function.update s.pcs t (.pop (.take k)))
    (houtarr : s'.mem.outarr = s.mem.outarr) (htop : s'.mem.top = k) : Shape s' := by
  have hother : ∀ u, u ≠ t → s'.pcs u = s.pcs u := by
    intro u hu
    rw [hpcs, Function.update_of_ne hu]
  have hself : s'.pcs t = .pop (.take k) := by rw [hpcs, Function.update_self]
  have hpush : ∀ u, (s'.pcs u).pushing = (s.pcs u).pushing := by
    apply pcs_same hpcs
    rw [ht]
    rfl
  have hpop : ∀ u i, (s'.pcs u).popping = some i ↔
      u = t ∧ i = k ∨ (s.pcs u).popping = some i := by
    intro u i
    by_cases hu : u = t
    · rw [hu, hself, ht]
      simp [Pc.popping, eq_comm]
    · simp [hother u hu, hu]
  -- a position of a `push` below the old `_top` is not the top one
  have hbelow : ∀ u i, (s.pcs u).pushing = some i → i < k := by
    intro u i hu
    have hlt := h.below u i hu
    have hne : i ≠ k := by
      intro heq
      subst heq
      exact (hfree u).1 hu
    omega
  constructor
  case one_push => simpa only [hpush] using h.one_push
  case one_pop =>
    intro u v i hu hv
    rcases (hpop u i).mp hu with ⟨rfl, rfl⟩ | hu
    · rcases (hpop v _).mp hv with ⟨rfl, -⟩ | hv
      · rfl
      · exact absurd hv (hfree v).2
    · rcases (hpop v i).mp hv with ⟨rfl, rfl⟩ | hv
      · exact absurd hu (hfree u).2
      · exact h.one_pop u v i hu hv
  case below =>
    intro u i hu
    rw [hpush] at hu
    rw [htop]
    exact hbelow u i hu
  case vacant =>
    refine h.vacant_step hpcs (by simp) ?_
    intro u c i _ _ hnull
    rwa [houtarr]
  case occupied =>
    intro i
    rw [houtarr, htop]
    simp only [hpush, hpop]
    by_cases hik : i = k
    · subst hik
      exact iff_of_true hset (.inl ⟨t, .inl ⟨rfl, rfl⟩⟩)
    · have hlt : i < s.mem.top ↔ i < k := by omega
      simp only [h.occupied i, hik, and_false, false_or, hlt]
  case raised =>
    intro u i hu hi
    rw [htop] at hi
    rcases (hpop u i).mp hu with ⟨-, rfl⟩ | hu
    · exact absurd hi (Nat.lt_irrefl _)
    · obtain ⟨v, hv⟩ := h.raised u i hu (by omega)
      exact ⟨v, by rwa [hpush]⟩

/-- A `pop` clears its position. -/
theorem Shape.clear (h : Shape s) {i : Nat} {out : D} (ht : s.pcs t = .pop (.clear i out))
    (hpcs : s'.pcs = Function.update s.pcs t (.pop (.putBack i out)))
    (houtarr : s'.mem.outarr = Function.update s.mem.outarr i none)
    (htop : s'.mem.top = s.mem.top) : Shape s' := by
  have hother : ∀ u, u ≠ t → s'.pcs u = s.pcs u := by
    intro u hu
    rw [hpcs, Function.update_of_ne hu]
  have hself : s'.pcs t = .pop (.putBack i out) := by rw [hpcs, Function.update_self]
  have hpush : ∀ u, (s'.pcs u).pushing = (s.pcs u).pushing := by
    apply pcs_same hpcs
    rw [ht]
    rfl
  have hpop : ∀ u j, (s'.pcs u).popping = some j ↔ (s.pcs u).popping = some j ∧ u ≠ t := by
    intro u j
    by_cases hu : u = t
    · simp [hu, hself, Pc.popping]
    · simp [hother u hu, hu]
  have hti : (s.pcs t).popping = some i := by rw [ht, Pc.popping]
  constructor
  case one_push => simpa only [hpush] using h.one_push
  case one_pop =>
    intro u v j hu hv
    exact h.one_pop u v j ((hpop u j).mp hu).1 ((hpop v j).mp hv).1
  case below =>
    intro u j hu
    rw [hpush] at hu
    rw [htop]
    exact h.below u j hu
  case vacant =>
    refine h.vacant_step hpcs (by simp) ?_
    intro u c j _ _ hnull
    rw [houtarr]
    by_cases hji : j = i
    · rw [hji, Function.update_self]
    · rwa [Function.update_of_ne hji]
  case occupied =>
    intro j
    rw [htop]
    simp only [hpush, hpop]
    by_cases hji : j = i
    · subst hji
      refine iff_of_false (by simp [houtarr]) ?_
      intro hcase
      rcases hcase with ⟨u, hu, hut⟩ | ⟨hlt, hfree⟩
      · exact hut (h.one_pop u t j hu hti)
      · -- `_top` has been raised over the position again: a `push` waits at it
        obtain ⟨v, hv⟩ := h.raised t j hti hlt
        exact hfree v hv
    · rw [houtarr, Function.update_of_ne hji, h.occupied j]
      refine or_congr_left (exists_congr fun u => ⟨fun hu => ⟨hu, ?_⟩, And.left⟩)
      intro heq
      subst heq
      exact hji (Option.some.inj (hu.symm.trans hti))
  case raised =>
    intro u j hu hj
    rw [htop] at hj
    obtain ⟨v, hv⟩ := h.raised u j ((hpop u j).mp hu).1 hj
    exact ⟨v, by rwa [hpush]⟩

theorem Shape.step (h : Shape s) (hcount : Counted n s) (hs : s.step n moved a = some s')
    (hclean : s.Clean a) : Shape s' := by
  rcases System.step_cases hs with ⟨t, p, ht, hp, hmem, hpcs⟩ | ⟨t, p, rfl, hmove, hpcs⟩
  · apply h.stay hpcs
    · rw [ht]
      rcases hp with ⟨data, rfl⟩ | rfl <;> rfl
    · rw [ht]
      rcases hp with ⟨data, rfl⟩ | rfl <;> rfl
    · rcases hp with ⟨data, rfl⟩ | rfl <;> simp
    · rw [hmem]
    · rw [hmem]
  · have hpos := hcount.nonzero t
    have hclean : s.pcs t = .pop (.exchange s.mem.top) → _ := hclean
    generalize hm : s'.mem = m at hmove
    generalize hpc : s.pcs t = pc at hmove hpos hclean
    cases hmove with
    | fetchAdd b => exact h.fetchAdd hpc hpcs (by rw [hm]) (by rw [hm])
    | publish b i => exact h.publish hpc hpcs (by rw [hm]) (by rw [hm])
    | win =>
      obtain ⟨hset, hfree⟩ := hclean rfl
      obtain ⟨k, hk⟩ := Nat.exists_eq_succ_of_ne_zero (hpos s.mem.top (.inr rfl)).ne'
      have hdst : s.mem.top - 1 = k := by omega
      rw [hdst] at hset hfree hpcs
      exact h.win hk hpc hset hfree hpcs (by rw [hm]) (by rw [hm, hdst])
    | clear i out => exact h.clear hpc hpcs (by rw [hm]) (by rw [hm])
    | vacant b i hnull =>
      refine h.stay hpcs (by rw [hpc]; rfl) (by rw [hpc]; rfl) ?_ (by rw [hm]) (by rw [hm])
      intro c j heq
      cases heq
      exact hnull
    | _ =>
      exact h.stay hpcs (by simp [hpc, Pc.pushing]) (by simp [hpc, Pc.popping]) (by simp)
        (by rw [hm]) (by rw [hm])

omit [DecidableEq T] in
theorem shape_init (cont : Nat → D) : Shape (System.init n cont : System D T) := by
  constructor <;> simp [System.init, Memory.init, Pc.pushing, Pc.popping]

omit [DecidableEq T] in
/-- With no call in progress the positions below `_top` are the occupied ones. -/
theorem Shape.rest (h : Shape s) (hrest : s.Quiescent) (i : Nat) :
    s.mem.outarr i ≠ none ↔ i < s.mem.top := by
  rw [h.occupied i]
  simp [hrest _, Pc.pushing, Pc.popping]

theorem counted_run {tr : List (System D T × Action D T)} {cont : Nat → D}
    (h : Run (System.step n moved) (System.init n cont) tr s) : Counted n s :=
  h.invariant (C := fun _ _ => True) (counted_init cont) (fun _ _ _ hi _ hs => hi.step hs)
    (fun _ _ => trivial)

/-- **The shape of the stack.** In every state of every run `_top` and every position a
`push` has obtained stay within the capacity, and where the winning exchanges have been clean
the occupied positions are, with no call in progress, those below `_top`. -/
theorem stack_shape {tr : List (System D T × Action D T)} {cont : Nat → D}
    (h : Run (System.step n moved) (System.init n cont) tr s) :
    (s.mem.top ≤ n ∧ ∀ t i, (s.pcs t).pushing = some i → i < n) ∧
      (Meets System.Clean tr → s.Quiescent → ∀ i, s.mem.outarr i ≠ none ↔ i < s.mem.top) := by
  have hcount := counted_run h
  refine ⟨⟨hcount.top_le, hcount.pushing⟩, ?_⟩
  intro hclean hrest i
  have hshape : Counted n s ∧ Shape s := by
    refine Run.invariant (C := System.Clean) (I := fun x => Counted n x ∧ Shape x)
      ⟨counted_init cont, shape_init cont⟩ ?_ h hclean
    intro x b y hall hb hs
    obtain ⟨hc, hi⟩ := hall
    exact ⟨hc.step hs, hi.step hc hs hb⟩
  exact hshape.2.rest hrest i

end

/-! ## Concrete runs -/

instance [Fintype T] [DecidableEq D] : DecidablePred (System.Quiescent (D := D) (T := T)) :=
  fun s => inferInstanceAs (Decidable (∀ t, s.pcs t = .idle))

instance [Fintype T] [DecidableEq D] (s : System D T) : ∀ a, Decidable (s.Clean a)
  | .push _ _ | .pop _ => isTrue trivial
  | .run t => inferInstanceAs (Decidable (s.pcs t = .pop (.exchange s.mem.top) →
      s.mem.outarr (s.mem.top - 1) ≠ none ∧ ∀ u,
        (s.pcs u).pushing ≠ some (s.mem.top - 1) ∧ (s.pcs u).popping ≠ some (s.mem.top - 1)))

/-- The actions of one call that takes `k` steps. -/
def call (a : Action D T) (t : T) (k : Nat) : List (Action D T) :=
  a :: List.replicate k (Action.run t)

/-- Capacity 2. A `pop` wins its exchange beside a `push`, which raises `_top` over the same
position, waits until it is cleared and fills it. -/
def popBeside : List (Action Nat Bool) :=
  call (.push true 7) true 5 ++ call (.push true 8) true 2 ++ call (.pop false) false 3 ++
    List.replicate 2 (.run true) ++ List.replicate 3 (.run false) ++ List.replicate 2 (.run true)

theorem stack_shape_pushed : ∃ (tr : _) (s : System Nat Bool),
    Run (System.step 2 id) (System.init 2 fun _ => 0) tr s ∧ tr.map Prod.snd = popBeside ∧
      (∃ x ∈ tr, x.2 = .run false ∧ x.1.pcs false = .pop (.exchange x.1.mem.top) ∧
        x.1.pcs true = .push (.fetchAdd 1)) ∧
      s.mem.top = 1 ∧ s.mem.outarr 0 ≠ none ∧ ¬ s.mem.outarr 1 ≠ none := by
  have hrun : ∃ (tr : _) (s : System Nat Bool),
      Run (System.step 2 id) (System.init 2 fun _ => 0) tr s ∧ tr.map Prod.snd = popBeside ∧
        Meets System.Clean tr ∧ s.Quiescent ∧ s.mem.top = 1 ∧
        ∃ x ∈ tr, x.2 = .run false ∧ x.1.pcs false = .pop (.exchange x.1.mem.top) ∧
          x.1.pcs true = .push (.fetchAdd 1) :=
    Run.of_trace_any popBeside (by decide)
  obtain ⟨tr, s, hr, ha, hclean, hrest, htop, hwins⟩ := hrun
  have hshape := (stack_shape hr).2 hclean hrest
  exact ⟨tr, s, hr, ha, hwins, htop, (hshape 0).mpr (by omega), by rw [hshape 1]; omega⟩

/-- Capacity 1. The first `pop` sees `_top` at 1 and the position set; the second takes the
value; a `push` raises `_top` to 1 again and sees the position null; the first `pop` wins
its exchange and clears the position; the `push` then fills it. -/
def raisedAgain : List (Action Nat (Option Bool)) :=
  call (.push none 7) none 5 ++ call (.pop (some false)) (some false) 2 ++
    call (.pop (some true)) (some true) 6 ++ call (.push none 8) none 4 ++
    List.replicate 4 (.run (some false)) ++ [.run none]

theorem occupied_above_top : ∃ (tr : _) (s : System Nat (Option Bool)),
    Run (System.step 1 id) (System.init 1 fun _ => 0) tr s ∧ tr.map Prod.snd = raisedAgain ∧
      s.Quiescent ∧ s.mem.top = 0 ∧ s.mem.outarr 0 ≠ none :=
  Run.of_exec_any _ (by decide)

end Vee.Lockfree.Stack
