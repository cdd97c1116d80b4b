import Mathlib.Logic.Relation
import Vee.Lib.Transition

/- Critical sections: a lock makes atomic what it guards.

   Threads share a state that is guarded by a lock and a state that is not. A thread waits
   outside for the lock by setting its flag over and over, goes through the steps of a
   section, which read and write the guarded state, and clears the flag. In `Fine` each of
   these is a step, and the steps of the others come in between; in `Coarse` a thread that
   waits goes through its whole section in one step. Where each section comes to its end,
   every run of the first is one of the second, taken at the moments the flag is cleared
   (`atomic`). -/
namespace Section
open Transition

variable {A G R O S E T : Type*}

/-- What the threads do: `start` a call, `enter` a section from a point that waits for the
lock, take a step outside, and take one inside or leave the section. -/
structure Code (A G R O S E : Type*) where
  start : A → O → Option O
  enter : O → Option S
  outer : R → O → Option (R × O × List E)
  inner : G → S → (G × S) ⊕ (O × List E)

inductive Point (O S : Type*) where
  | outside (o : O)
  | inside (s : S)
  deriving DecidableEq

inductive Action (A T : Type*) where
  | start (t : T) (a : A)
  | run (t : T)
  deriving DecidableEq

/-- The flag of the lock, the two states, where each thread is, and what they reported. -/
structure Fine (G R O S E T : Type*) where
  lock : Bool
  guarded : G
  rest : R
  pcs : T → Point O S
  log : List (T × E)

/-- The same without a lock, every thread being outside. -/
structure Coarse (G R O E T : Type*) where
  guarded : G
  rest : R
  pcs : T → O
  log : List (T × E)

def Fine.init (g : G) (r : R) (o : O) : Fine G R O S E T :=
  { lock := false, guarded := g, rest := r, pcs := fun _ => .outside o, log := [] }

def Coarse.init (g : G) (r : R) (o : O) : Coarse G R O E T :=
  { guarded := g, rest := r, pcs := fun _ => o, log := [] }

section
variable [DecidableEq T] (c : Code A G R O S E)

/-- One step of one thread. -/
def Fine.step (x : Fine G R O S E T) : Action A T → Option (Fine G R O S E T)
  | .start t a =>
    match x.pcs t with
    | .outside o =>
      (c.start a o).map fun o' => { x with pcs := Function.update x.pcs t (.outside o') }
    | .inside _ => none
  | .run t =>
    match x.pcs t with
    | .outside o =>
      match c.enter o with
      | some s =>
        -- the flag is set and what it was is returned; the loop goes on while that is true
        some (if x.lock then x
          else { x with lock := true, pcs := Function.update x.pcs t (.inside s) })
      | none =>
        (c.outer x.rest o).map fun (r, o', new) =>
          { x with
            rest := r
            pcs := Function.update x.pcs t (.outside o')
            log := x.log ++ new.map (t, ·) }
    | .inside s =>
      match c.inner x.guarded s with
      | .inl (g, s') =>
        some { x with guarded := g, pcs := Function.update x.pcs t (.inside s') }
      | .inr (o, new) =>
        some { x with
          lock := false
          pcs := Function.update x.pcs t (.outside o)
          log := x.log ++ new.map (t, ·) }

/-- One step of one thread, a section being one step; `whole` says what it does. -/
def Coarse.step (whole : G → S → G × O × List E) (x : Coarse G R O E T) :
    Action A T → Option (Coarse G R O E T)
  | .start t a =>
    (c.start a (x.pcs t)).map fun o' => { x with pcs := Function.update x.pcs t o' }
  | .run t =>
    match c.enter (x.pcs t) with
    | some s =>
      some { x with
        guarded := (whole x.guarded s).1
        pcs := Function.update x.pcs t (whole x.guarded s).2.1
        log := x.log ++ (whole x.guarded s).2.2.map (t, ·) }
    | none =>
      (c.outer x.rest (x.pcs t)).map fun (r, o', new) =>
        { x with
          rest := r
          pcs := Function.update x.pcs t o'
          log := x.log ++ new.map (t, ·) }

end

/-! ## Sections that come to their end -/

section
variable (c : Code A G R O S E)

/-- A step that stays in the section. -/
def Code.Inner (x y : G × S) : Prop := c.inner x.1 x.2 = .inl y

/-- The section leaves the guarded state `r.1`, its thread at `r.2.1`, and reports `r.2.2`. -/
def Code.Completes (g : G) (s : S) (r : G × O × List E) : Prop :=
  ∃ s', Relation.ReflTransGen c.Inner (g, s) (r.1, s') ∧ c.inner r.1 s' = .inr r.2

variable {c}

theorem Code.inner_unique : Relator.RightUnique c.Inner := by
  intro x y z hy hz
  exact Sum.inl.inj (hy.symm.trans hz)

/-- A state that the section ends in has no next one. -/
theorem Code.inner_end {g : G} {s : S} {r : O × List E} (h : c.inner g s = .inr r) {y : G × S}
    (hy : Relation.ReflTransGen c.Inner (g, s) y) : y = (g, s) := by
  rcases hy.cases_head with heq | ⟨z, hz, -⟩
  · exact heq.symm
  · have hnext : c.inner g s = .inl z := hz
    rw [h] at hnext
    cases hnext

/-- A section has one end. -/
theorem Code.Completes.unique {g g' : G} {s s' : S} {r : G × O × List E} {e : O × List E}
    (h : c.Completes g s r) (hreach : Relation.ReflTransGen c.Inner (g, s) (g', s'))
    (hend : c.inner g' s' = .inr e) : r = (g', e) := by
  obtain ⟨s'', hr, hlast⟩ := h
  have hsame : (r.1, s'') = (g', s') := by
    rcases Relation.ReflTransGen.total_of_right_unique c.inner_unique hr hreach with hle | hle
    · exact (Code.inner_end hlast hle).symm
    · exact Code.inner_end hend hle
  obtain ⟨hg, rfl⟩ := Prod.mk.inj hsame
  rw [hg, hend] at hlast
  obtain ⟨r₁, r₂⟩ := r
  obtain rfl : r₁ = g' := hg
  rw [Sum.inr.inj hlast]

end

/-! ## Every fine run is a coarse one -/

/-- The fine state `x` is the coarse state `m`, with at most one thread in a section that `m` has
not begun. -/
structure Matches (c : Code A G R O S E) (I : G → Prop) (x : Fine G R O S E T)
    (m : Coarse G R O E T) : Prop where
  rest : x.rest = m.rest
  log : x.log = m.log
  held : x.lock = true ↔ ∃ t s, x.pcs t = .inside s
  one : ∀ t u s s', x.pcs t = .inside s → x.pcs u = .inside s' → t = u
  outside : ∀ t o, x.pcs t = .outside o → m.pcs t = o
  free : x.lock = false → x.guarded = m.guarded
  inside : ∀ t s, x.pcs t = .inside s → ∃ s₀, c.enter (m.pcs t) = some s₀ ∧
    Relation.ReflTransGen c.Inner (m.guarded, s₀) (x.guarded, s)
  inv : I m.guarded

section
variable {c : Code A G R O S E} {I : G → Prop} {x x' : Fine G R O S E T} {m m' : Coarse G R O E T}

theorem Matches.init {g : G} (hg : I g) (r : R) (o : O) :
    Matches (T := T) c I (Fine.init g r o) (Coarse.init g r o) where
  rest := rfl
  log := rfl
  held := by simp [Fine.init]
  one := by simp [Fine.init]
  outside t o' ht := Point.outside.inj ht
  free _ := rfl
  inside t s ht := by simp [Fine.init] at ht
  inv := hg

/-- With the flag clear nobody is inside. -/
theorem Matches.nobody (h : Matches c I x m) (hfree : x.lock = false) (t : T) (s : S) :
    x.pcs t ≠ .inside s := by
  intro ht
  have hset := h.held.mpr ⟨t, s, ht⟩
  rw [hfree] at hset
  cases hset

variable [DecidableEq T] {t : T}

theorem update_inside {pcs : T → Point O S} {o : O} {u : T} {s : S}
    (hu : Function.update pcs t (.outside o) u = .inside s) : u ≠ t ∧ pcs u = .inside s := by
  by_cases hut : u = t
  · rw [hut, Function.update_self] at hu
    cases hu
  · rw [Function.update_of_ne hut] at hu
    exact ⟨hut, hu⟩

theorem update_outside {pcs : T → Point O S} {s : S} {u : T} {o : O}
    (hu : Function.update pcs t (.inside s) u = .outside o) : pcs u = .outside o := by
  by_cases hut : u = t
  · rw [hut, Function.update_self] at hu
    cases hu
  · rw [Function.update_of_ne hut] at hu
    exact hu

/-- A thread outside goes to another point outside. -/
theorem Matches.move (h : Matches c I x m) {o o' : O} (ht : x.pcs t = .outside o)
    (hlock : x'.lock = x.lock) (hguarded : x'.guarded = x.guarded)
    (hpcs : x'.pcs = Function.update x.pcs t (.outside o')) (hguarded' : m'.guarded = m.guarded)
    (hpcs' : m'.pcs = Function.update m.pcs t o') (hrest : x'.rest = m'.rest)
    (hlog : x'.log = m'.log) : Matches c I x' m' where
  rest := hrest
  log := hlog
  held := by
    rw [hlock, h.held, hpcs]
    constructor
    · intro hin
      obtain ⟨u, s, hu⟩ := hin
      have hut : u ≠ t := by
        intro heq
        rw [heq, ht] at hu
        cases hu
      exact ⟨u, s, by rw [Function.update_of_ne hut, hu]⟩
    · intro hin
      obtain ⟨u, s, hu⟩ := hin
      exact ⟨u, s, (update_inside hu).2⟩
  one u v s s' hu hv := by
    rw [hpcs] at hu hv
    exact h.one u v s s' (update_inside hu).2 (update_inside hv).2
  outside u o'' hu := by
    rw [hpcs] at hu
    rw [hpcs']
    by_cases hut : u = t
    · rw [hut, Function.update_self] at hu
      rw [hut, Function.update_self]
      exact Point.outside.inj hu
    · rw [Function.update_of_ne hut] at hu
      rw [Function.update_of_ne hut]
      exact h.outside u o'' hu
  free hfree := by
    rw [hguarded, hguarded']
    exact h.free (hlock ▸ hfree)
  inside u s hu := by
    rw [hpcs] at hu
    obtain ⟨hut, hu⟩ := update_inside hu
    rw [hpcs', Function.update_of_ne hut, hguarded, hguarded']
    exact h.inside u s hu
  inv := by
    rw [hguarded']
    exact h.inv

/-- A thread gets the lock. -/
theorem Matches.acquire (h : Matches c I x m) {o : O} {s : S} (ht : x.pcs t = .outside o)
    (henter : c.enter o = some s) (hfree : x.lock = false) :
    Matches c I { x with lock := true, pcs := Function.update x.pcs t (.inside s) } m where
  rest := h.rest
  log := h.log
  held := iff_of_true rfl ⟨t, s, Function.update_self ..⟩
  one := by
    have honly : ∀ u s', Function.update x.pcs t (.inside s) u = .inside s' → u = t := by
      intro u s' hu
      by_contra hut
      rw [Function.update_of_ne hut] at hu
      exact h.nobody hfree u s' hu
    exact fun u v s' s'' hu hv => (honly u s' hu).trans (honly v s'' hv).symm
  outside u o' hu := h.outside u o' (update_outside hu)
  free hlock := by cases hlock
  inside u s' hu := by
    by_cases hut : u = t
    · simp only [hut, Function.update_self] at hu
      obtain rfl := Point.inside.inj hu
      refine ⟨s, ?_, ?_⟩
      · rw [hut, h.outside t o ht]
        exact henter
      · show Relation.ReflTransGen _ _ (x.guarded, s)
        rw [h.free hfree]
    · simp only [Function.update_of_ne hut] at hu
      exact absurd hu (h.nobody hfree u s')
  inv := h.inv

/-- The thread inside takes a step that stays there. -/
theorem Matches.inner (h : Matches c I x m) {g : G} {s s' : S} (ht : x.pcs t = .inside s)
    (hstep : c.inner x.guarded s = .inl (g, s')) :
    Matches c I { x with guarded := g, pcs := Function.update x.pcs t (.inside s') } m := by
  have hother : ∀ u, u ≠ t → ∀ s'', x.pcs u ≠ .inside s'' :=
    fun u hut s'' hu => hut (h.one u t s'' s hu ht)
  have honly : ∀ u s'', Function.update x.pcs t (.inside s') u = .inside s'' → u = t := by
    intro u s'' hu
    by_contra hut
    rw [Function.update_of_ne hut] at hu
    exact hother u hut s'' hu
  have hset : x.lock = true := h.held.mpr ⟨t, s, ht⟩
  constructor
  case rest => exact h.rest
  case log => exact h.log
  case held => exact iff_of_true hset ⟨t, s', Function.update_self ..⟩
  case one => exact fun u v s₁ s₂ hu hv => (honly u s₁ hu).trans (honly v s₂ hv).symm
  case outside => exact fun u o hu => h.outside u o (update_outside hu)
  case free =>
    intro hfree
    rw [hset] at hfree
    cases hfree
  case inside =>
    intro u s'' hu
    obtain rfl := honly u s'' hu
    simp only [Function.update_self] at hu
    obtain rfl := Point.inside.inj hu
    obtain ⟨s₀, henter, hreach⟩ := h.inside u s ht
    exact ⟨s₀, henter, hreach.tail hstep⟩
  case inv => exact h.inv

variable {whole : G → S → G × O × List E}

/-- The thread inside clears the flag: this is where the coarse run takes the section. -/
theorem Matches.release (h : Matches c I x m)
    (hwhole : ∀ g o s, I g → c.enter o = some s → c.Completes g s (whole g s) ∧ I (whole g s).1)
    {s : S} {o : O} {new : List E} (ht : x.pcs t = .inside s)
    (hend : c.inner x.guarded s = .inr (o, new)) :
    ∃ m', m.step c whole (.run t) = some m' ∧ Matches c I
      { x with
        lock := false
        pcs := Function.update x.pcs t (.outside o)
        log := x.log ++ new.map (t, ·) } m' := by
  obtain ⟨s₀, henter, hreach⟩ := h.inside t s ht
  obtain ⟨hcompletes, hinv⟩ := hwhole m.guarded _ s₀ h.inv henter
  have hwhole' : whole m.guarded s₀ = (x.guarded, (o, new)) := hcompletes.unique hreach hend
  rw [hwhole'] at hinv
  refine ⟨_, by simp only [Coarse.step, henter, hwhole']; rfl, ?_⟩
  have hother : ∀ u, u ≠ t → ∀ s', x.pcs u ≠ .inside s' :=
    fun u hut s' hu => hut (h.one u t s' s hu ht)
  have hnone : ∀ u s', Function.update x.pcs t (.outside o) u ≠ .inside s' :=
    fun u s' hu => hother u (update_inside hu).1 s' (update_inside hu).2
  constructor
  case rest => exact h.rest
  case log => rw [h.log]
  case held =>
    refine iff_of_false Bool.false_ne_true ?_
    intro hin
    obtain ⟨u, s', hu⟩ := hin
    exact hnone u s' hu
  case one => exact fun u v s₁ s₂ hu => absurd hu (hnone u s₁)
  case outside =>
    intro u o' hu
    by_cases hut : u = t
    · simp only [hut, Function.update_self] at hu ⊢
      exact Point.outside.inj hu
    · simp only [Function.update_of_ne hut] at hu ⊢
      exact h.outside u o' hu
  case free => exact fun _ => rfl
  case inside => exact fun u s' hu => absurd hu (hnone u s')
  case inv => exact hinv

/-- A fine step is none of the coarse system, or one. -/
theorem Matches.step (h : Matches c I x m)
    (hwhole : ∀ g o s, I g → c.enter o = some s → c.Completes g s (whole g s) ∧ I (whole g s).1)
    {a : Action A T} (hs : x.step c a = some x') :
    Matches c I x' m ∨ ∃ m', m.step c whole a = some m' ∧ Matches c I x' m' := by
  cases a with
  | start t a =>
    simp only [Fine.step] at hs
    split at hs
    · rename_i o ht
      obtain ⟨o', ho', rfl⟩ := Option.map_eq_some_iff.mp hs
      refine .inr ⟨_, by simp only [Coarse.step, h.outside t o ht, ho']; rfl, ?_⟩
      exact h.move ht rfl rfl rfl rfl rfl h.rest h.log
    · cases hs
  | run t =>
    simp only [Fine.step] at hs
    split at hs
    · rename_i o ht
      split at hs
      · rename_i s henter
        obtain rfl := Option.some.inj hs
        split
        · exact .inl h
        · exact .inl (h.acquire ht henter (by simpa using ‹¬ x.lock = true›))
      · rename_i henter
        obtain ⟨⟨r, o', new⟩, hr, rfl⟩ := Option.map_eq_some_iff.mp hs
        have hr' : c.outer m.rest (m.pcs t) = some (r, o', new) := by
          rw [← h.rest, h.outside t o ht, hr]
        have ho := h.outside t o ht
        refine .inr ⟨_, by simp only [Coarse.step, ho, henter, ho ▸ hr']; rfl, ?_⟩
        exact h.move ht rfl rfl rfl rfl rfl rfl (by rw [h.log])
    · rename_i s ht
      split at hs
      · rename_i g s' hstep
        obtain rfl := Option.some.inj hs
        exact .inl (h.inner ht hstep)
      · rename_i o new hend
        obtain rfl := Option.some.inj hs
        exact .inr (h.release hwhole ht hend)

/-- **A lock makes its sections atomic.** -/
theorem atomic {g : G} {r : R} {o : O} (hg : I g)
    (hwhole : ∀ g o s, I g → c.enter o = some s → c.Completes g s (whole g s) ∧ I (whole g s).1)
    {tr : List (Fine G R O S E T × Action A T)}
    (h : Run (Fine.step c) (Fine.init g r o) tr x) :
    ∃ (tr' : _) (m : Coarse G R O E T),
      Run (Coarse.step c whole) (Coarse.init g r o) tr' m ∧ Matches c I x m := by
  induction h with
  | nil => exact ⟨[], _, .nil, .init hg r o⟩
  | snoc _ hs ih =>
    obtain ⟨tr', m, hrun, hmatches⟩ := ih
    rcases hmatches.step hwhole hs with hstay | ⟨m', hs', hnext⟩
    · exact ⟨tr', m, hrun, hstay⟩
    · exact ⟨_, m', hrun.snoc hs', hnext⟩

end

end Section
