import Mathlib.Data.List.Induction

/- Runs of a transition system whose step is a partial function of the state
   and an action (the action names the thread that moves and what it starts).

   A run is recorded as the list of its steps, each with the state it was taken
   in, so a theorem can speak of every state a run passes through, of the steps
   between two of its events, and of a condition that each of its steps meets.
   `exec` executes a list of actions; a run found by executing one is a run
   (`Run.of_exec`), which is how a concrete interleaving is exhibited. -/
namespace Transition

variable {σ α : Type*}

/-- The state after a list of actions, `none` where one of them is not enabled. -/
def exec (step : σ → α → Option σ) : σ → List α → Option σ
  | s, [] => some s
  | s, a :: as => (step s a).bind fun s' => exec step s' as

/-- `exec` for a list of actions each of which meets `ok` where it is taken, `none` otherwise. -/
def execMeets (step : σ → α → Option σ) (ok : σ → α → Prop) [∀ s a, Decidable (ok s a)] :
    σ → List α → Option σ
  | s, [] => some s
  | s, a :: as => if ok s a then (step s a).bind fun s' => execMeets step ok s' as else none

/-- `Run step s₀ tr s`: the steps `tr`, each with the state it is taken in, lead
from `s₀` to `s`. -/
inductive Run (step : σ → α → Option σ) (s₀ : σ) : List (σ × α) → σ → Prop where
  | nil : Run step s₀ [] s₀
  | snoc {tr : List (σ × α)} {s s' : σ} {a : α} :
      Run step s₀ tr s → step s a = some s' → Run step s₀ (tr ++ [(s, a)]) s'

/-- Every step of the run is taken in a state and by an action that meet `ok`. -/
def Meets (ok : σ → α → Prop) (tr : List (σ × α)) : Prop := ∀ p ∈ tr, ok p.1 p.2

/-- The states a run passes through, its last one included. -/
def visited (tr : List (σ × α)) (s : σ) : List σ := tr.map Prod.fst ++ [s]

theorem meets_nil (ok : σ → α → Prop) : Meets ok ([] : List (σ × α)) := by
  intro p hp
  simp at hp

theorem meets_append {ok : σ → α → Prop} {tr₁ tr₂ : List (σ × α)} :
    Meets ok (tr₁ ++ tr₂) ↔ Meets ok tr₁ ∧ Meets ok tr₂ := by
  simp only [Meets, List.mem_append]
  refine ⟨?_, ?_⟩
  · intro h
    exact ⟨fun p hp => h p (Or.inl hp), fun p hp => h p (Or.inr hp)⟩
  · intro hall p hcase1
    obtain ⟨h₁, h₂⟩ := hall
    rcases hcase1 with hp | hp
    · exact h₁ p hp
    · exact h₂ p hp

theorem meets_snoc {ok : σ → α → Prop} {tr : List (σ × α)} {s : σ} {a : α} :
    Meets ok (tr ++ [(s, a)]) ↔ Meets ok tr ∧ ok s a := by
  rw [meets_append]
  simp [Meets]

theorem meets_cons {ok : σ → α → Prop} {tr : List (σ × α)} {s : σ} {a : α} :
    Meets ok ((s, a) :: tr) ↔ ok s a ∧ Meets ok tr := by
  simp [Meets]

section
variable {step : σ → α → Option σ} {s₀ s s' m : σ} {a : α} {tr tr₁ tr₂ : List (σ × α)}

theorem Run.single (h : step s a = some s') : Run step s [(s, a)] s' := by
  simpa using Run.snoc (Run.nil : Run step s [] s) h

theorem Run.append (h₁ : Run step s₀ tr₁ m) (h₂ : Run step m tr₂ s) :
    Run step s₀ (tr₁ ++ tr₂) s := by
  induction h₂ with
  | nil => simpa using h₁
  | snoc _ hs ih =>
    rw [← List.append_assoc]
    exact Run.snoc ih hs

theorem run_snoc_iff : Run step s₀ (tr ++ [(m, a)]) s ↔ Run step s₀ tr m ∧ step m a = some s := by
  refine ⟨?_, ?_⟩
  · intro h
    generalize htr : tr ++ [(m, a)] = tr' at h
    cases h with
    | nil => simp at htr
    | snoc h hs =>
      obtain ⟨rfl, hp⟩ := List.append_inj' htr rfl
      simp only [List.cons.injEq, Prod.mk.injEq, and_true] at hp
      obtain ⟨rfl, rfl⟩ := hp
      exact ⟨h, hs⟩
  · intro hall
    obtain ⟨h, hs⟩ := hall
    exact Run.snoc h hs

/-- A run over a concatenation passes through the state between the parts. -/
theorem Run.split (h : Run step s₀ (tr₁ ++ tr₂) s) :
    ∃ m, Run step s₀ tr₁ m ∧ Run step m tr₂ s := by
  induction tr₂ using List.reverseRecOn generalizing s with
  | nil => exact ⟨s, by simpa using h, Run.nil⟩
  | append_singleton tr₂ p ih =>
    obtain ⟨x, b⟩ := p
    rw [← List.append_assoc] at h
    obtain ⟨hx, hs⟩ := run_snoc_iff.mp h
    obtain ⟨m, h₁, h₂⟩ := ih hx
    exact ⟨m, h₁, Run.snoc h₂ hs⟩

/-- A run that starts with a given step starts in the state of that step. -/
theorem Run.cons (h : Run step s₀ ((m, a) :: tr) s) :
    s₀ = m ∧ ∃ s₁, step m a = some s₁ ∧ Run step s₁ tr s := by
  have happ : Run step s₀ ([(m, a)] ++ tr) s := by simpa using h
  obtain ⟨s₁, h₁, h₂⟩ := Run.split happ
  obtain ⟨hnil, hs⟩ := run_snoc_iff.mp (by simpa using h₁ : Run step s₀ ([] ++ [(m, a)]) s₁)
  have hm : s₀ = m := by
    generalize htr : ([] : List (σ × α)) = t at hnil
    cases hnil with
    | nil => rfl
    | snoc => simp at htr
  exact ⟨hm, s₁, hs, h₂⟩

/-- A run with a first action starts with it where the run starts. -/
theorem Run.head {as : List α} (h : Run step s₀ tr s) (ha : tr.map Prod.snd = a :: as) :
    ∃ tr', tr = (s₀, a) :: tr' ∧ tr'.map Prod.snd = as := by
  obtain ⟨⟨m, b⟩, tr', rfl, hb, has⟩ := List.map_eq_cons_iff.mp ha
  obtain ⟨rfl, -⟩ := h.cons
  obtain rfl : b = a := hb
  exact ⟨tr', rfl, has⟩

/-- Where all actions but the first meet `ok`, so do the steps after the first. -/
theorem Run.tail {ok : σ → α → Prop} {as : List α} (h : Run step s₀ tr s)
    (ha : tr.map Prod.snd = a :: as) (has : a ∉ as) (hok : Meets (fun m b => b = a ∨ ok m b) tr) :
    ∃ tr', tr = (s₀, a) :: tr' ∧ Meets ok tr' := by
  obtain ⟨tr', rfl, ha'⟩ := h.head ha
  refine ⟨tr', rfl, ?_⟩
  intro p hp
  rcases hok p (List.mem_cons_of_mem _ hp) with heq | hmeets
  · have hmem : p.2 ∈ tr'.map Prod.snd := List.mem_map_of_mem hp
    rw [ha', heq] at hmem
    exact absurd hmem has
  · exact hmeets

/-- The steps of a run between its first action and its last one. -/
theorem Run.bracket {as : List α} {b : α} (h : Run step s₀ tr s)
    (ha : tr.map Prod.snd = a :: as ++ [b]) :
    ∃ during y, tr = (s₀, a) :: during ++ [(y, b)] ∧ during.map Prod.snd = as := by
  obtain ⟨tr', rfl, ha'⟩ := h.head ha
  obtain ⟨during, last, rfl, hd, hlast⟩ := List.map_eq_append_iff.mp ha'
  obtain ⟨⟨y, c⟩, rfl, hy⟩ := List.map_eq_singleton_iff.mp hlast
  obtain rfl : c = b := hy
  exact ⟨during, y, rfl, hd⟩

/-- The state a run starts in is one it passes through. -/
theorem Run.start_mem_visited (h : Run step s₀ tr s) : s₀ ∈ visited tr s := by
  cases tr with
  | nil =>
    generalize htr : ([] : List (σ × α)) = t at h
    cases h with
    | nil => simp [visited]
    | snoc => simp at htr
  | cons p tr =>
    obtain ⟨m, b⟩ := p
    obtain ⟨rfl, -⟩ := h.cons
    simp [visited]

theorem mem_visited_snoc {m' : σ} :
    m' ∈ visited (tr ++ [(m, a)]) s ↔ m' ∈ visited tr m ∨ m' = s := by
  simp [visited, or_assoc]

/-- Executing a list of actions yields a run with those actions. -/
theorem Run.of_exec {as : List α} (h : exec step s₀ as = some s) :
    ∃ tr, Run step s₀ tr s ∧ tr.map Prod.snd = as := by
  induction as generalizing s₀ with
  | nil =>
    simp only [exec, Option.some.injEq] at h
    subst h
    exact ⟨[], Run.nil, rfl⟩
  | cons a as ih =>
    obtain ⟨m, hm, hs⟩ := Option.bind_eq_some_iff.mp h
    obtain ⟨tr, hr, ha⟩ := ih hs
    exact ⟨(s₀, a) :: tr, Run.append (Run.single hm) hr, by simp [ha]⟩

theorem exec_snoc (as : List α) (a : α) :
    exec step s₀ (as ++ [a]) = (exec step s₀ as).bind fun s => step s a := by
  induction as generalizing s₀ with
  | nil =>
    cases h : step s₀ a with
    | none => simp [exec, h]
    | some s => simp [exec, h]
  | cons b as ih =>
    simp only [List.cons_append, exec, Option.bind_assoc]
    congr 1
    funext s
    exact ih

/-- A run ends where its actions lead. -/
theorem Run.exec_eq (h : Run step s₀ tr s) : exec step s₀ (tr.map Prod.snd) = some s := by
  induction h with
  | nil => rfl
  | snoc _ hs ih =>
    rw [List.map_append, List.map_cons, List.map_nil, exec_snoc, ih]
    exact hs

/-- So a decidable property of the state a run ends in may be found by executing its actions. -/
theorem Run.any_exec {P : σ → Prop} [DecidablePred P] {as : List α} (h : Run step s₀ tr s)
    (ha : tr.map Prod.snd = as) (hP : (exec step s₀ as).any (fun s => decide (P s)) = true) :
    P s := by
  rw [← ha, h.exec_eq] at hP
  exact of_decide_eq_true hP

/-- A run to a state with a decidable property, found by executing its actions. -/
theorem Run.of_exec_any {P : σ → Prop} [DecidablePred P] (as : List α)
    (h : (exec step s₀ as).any (fun s => decide (P s)) = true) :
    ∃ tr s, Run step s₀ tr s ∧ tr.map Prod.snd = as ∧ P s := by
  obtain ⟨s, hs, hP⟩ := (Option.any_eq_true _ _).mp h
  obtain ⟨tr, hr, ha⟩ := Run.of_exec hs
  exact ⟨tr, s, hr, ha, of_decide_eq_true hP⟩

/-- Executing actions that meet `ok` yields a run whose steps meet `ok`. -/
theorem Run.of_execMeets {ok : σ → α → Prop} [∀ s a, Decidable (ok s a)] {as : List α}
    (h : execMeets step ok s₀ as = some s) :
    ∃ tr, Run step s₀ tr s ∧ Meets ok tr ∧ tr.map Prod.snd = as := by
  induction as generalizing s₀ with
  | nil =>
    simp only [execMeets, Option.some.injEq] at h
    subst h
    exact ⟨[], Run.nil, meets_nil ok, rfl⟩
  | cons a as ih =>
    simp only [execMeets] at h
    split at h
    · rename_i hok
      obtain ⟨m, hm, hs⟩ := Option.bind_eq_some_iff.mp h
      obtain ⟨tr, hr, hmeets, ha⟩ := ih hs
      refine ⟨(s₀, a) :: tr, Run.append (Run.single hm) hr, ?_, by simp [ha]⟩
      intro p hcase
      rcases hcase with hp | ⟨_, hp⟩
      · exact hok
      · exact hmeets p (by assumption)
    · cases h

/-- The same for a run whose steps meet `ok`. -/
theorem Run.of_execMeets_any {ok : σ → α → Prop} [∀ s a, Decidable (ok s a)] {P : σ → Prop}
    [DecidablePred P] (as : List α)
    (h : (execMeets step ok s₀ as).any (fun s => decide (P s)) = true) :
    ∃ tr s, Run step s₀ tr s ∧ Meets ok tr ∧ tr.map Prod.snd = as ∧ P s := by
  obtain ⟨s, hs, hP⟩ := (Option.any_eq_true _ _).mp h
  obtain ⟨tr, hr, hok, ha⟩ := Run.of_execMeets hs
  exact ⟨tr, s, hr, hok, ha, of_decide_eq_true hP⟩

/-! ## Invariants -/

/-- What holds at the start and is kept by every step that meets `C` holds at
the end of every run whose steps all meet `C`. -/
theorem Run.invariant {C : σ → α → Prop} {I : σ → Prop} (base : I s₀)
    (keep : ∀ s a s', I s → C s a → step s a = some s' → I s')
    (h : Run step s₀ tr s) (hok : Meets C tr) : I s := by
  induction h with
  | nil => exact base
  | snoc _ hs ih =>
    obtain ⟨htr, ha⟩ := meets_snoc.mp hok
    exact keep _ _ _ (ih htr) ha hs

/-- The same for an invariant that also speaks of the steps taken so far. -/
theorem Run.history {C : σ → α → Prop} {I : List (σ × α) → σ → Prop} (base : I [] s₀)
    (keep : ∀ tr s a s', I tr s → C s a → step s a = some s' → I (tr ++ [(s, a)]) s')
    (h : Run step s₀ tr s) (hok : Meets C tr) : I tr s := by
  induction h with
  | nil => exact base
  | snoc _ hs ih =>
    obtain ⟨htr, ha⟩ := meets_snoc.mp hok
    exact keep _ _ _ _ (ih htr) ha hs

/-- Such an invariant holds in every state of the run. -/
theorem Run.invariant_visited {C : σ → α → Prop} {I : σ → Prop} (base : I s₀)
    (keep : ∀ s a s', I s → C s a → step s a = some s' → I s')
    (h : Run step s₀ tr s) (hok : Meets C tr) : ∀ x ∈ visited tr s, I x := by
  refine (Run.history (I := fun tr s => I s ∧ ∀ x ∈ visited tr s, I x) ?_ ?_ h hok).2
  · exact ⟨base, by simpa [visited] using base⟩
  · intro tr s a s' hI ha hs
    have hnext := keep s a s' hI.1 ha hs
    refine ⟨hnext, ?_⟩
    intro x hx
    rcases mem_visited_snoc.mp hx with hx | rfl
    · exact hI.2 x hx
    · exact hnext

/-- A property is one of every state of a run exactly if each step keeps it, where keeping
it is for a step to meet `C`. -/
theorem Run.visited_iff {P : σ → Prop} {C : σ → α → Prop} (base : P s₀)
    (keep : ∀ s a s', P s → step s a = some s' → (P s' ↔ C s a)) (h : Run step s₀ tr s) :
    (∀ x ∈ visited tr s, P x) ↔ Meets C tr := by
  induction h with
  | nil =>
    refine iff_of_true ?_ (meets_nil C)
    intro x hx
    obtain rfl : x = s₀ := by simpa [visited] using hx
    exact base
  | @snoc tr m s' a hrun hs ih =>
    simp only [mem_visited_snoc, or_imp, forall_and, forall_eq]
    rw [meets_snoc, ← ih]
    refine and_congr_right fun hall => keep m a s' (hall m ?_) hs
    simp [visited]

/-- Two conditions on steps that agree in every reachable state agree on runs. -/
theorem Run.meets_iff {I : σ → Prop} {A B : σ → α → Prop} (base : I s₀)
    (keep : ∀ s a s', I s → step s a = some s' → I s') (hAB : ∀ s a, I s → (A s a ↔ B s a))
    (h : Run step s₀ tr s) : Meets A tr ↔ Meets B tr := by
  have hboth : I s ∧ (Meets A tr ↔ Meets B tr) := by
    induction h with
    | nil => exact ⟨base, iff_of_true (meets_nil A) (meets_nil B)⟩
    | snoc _ hs ih =>
      obtain ⟨hI, hiff⟩ := ih
      refine ⟨keep _ _ _ hI hs, ?_⟩
      rw [meets_snoc, meets_snoc, hiff, hAB _ _ hI]
  exact hboth.2

end

/-- A run of a system whose states are images of those of another is the image of a run of it. -/
theorem Run.lift {τ β : Type*} {step' : τ → β → Option τ} {f : τ → σ} {g : α → β}
    (himage : ∀ y a, step (f y) a = (step' y (g a)).map f) {y₀ : τ}
    (h : Run step (f y₀) tr s) : ∃ tr' y, Run step' y₀ tr' y ∧ s = f y := by
  induction h with
  | nil => exact ⟨[], y₀, .nil, rfl⟩
  | snoc _ hs ih =>
    obtain ⟨tr', y, hrun, rfl⟩ := ih
    rw [himage] at hs
    obtain ⟨y', hy, rfl⟩ := Option.map_eq_some_iff.mp hs
    exact ⟨_, y', hrun.snoc hy, rfl⟩

end Transition

/-! ## Machines that answer each input

A machine takes a state and an input to a state and an answer. If a relation between the states
of two machines is kept by every input, and related states give the same answer, then the two
answer every sequence of inputs alike (`Simulates.run`); a state that no input changes answers
each input as if it were the first (`run_still`). -/

namespace Machine

variable {σ τ α ρ : Type*}

/-- The state after a sequence of inputs, and the answers to them. -/
def run (step : σ → α → σ × ρ) : σ → List α → σ × List ρ
  | s, [] => (s, [])
  | s, a :: as => ((run step (step s a).1 as).1, (step s a).2 :: (run step (step s a).1 as).2)

theorem run_append (step : σ → α → σ × ρ) (s : σ) (as bs : List α) :
    run step s (as ++ bs) = ((run step (run step s as).1 bs).1,
      (run step s as).2 ++ (run step (run step s as).1 bs).2) := by
  induction as generalizing s with
  | nil => rfl
  | cons a as ih => simp only [List.cons_append, run, ih]

/-- In a state that no input changes each input is answered as if it were alone. -/
theorem run_still {step : σ → α → σ × ρ} {s : σ} (h : ∀ a, (step s a).1 = s) (as : List α) :
    run step s as = (s, as.map fun a => (step s a).2) := by
  induction as with
  | nil => rfl
  | cons a as ih => simp only [run, h a, ih, List.map_cons]

/-- From related states the two machines give the same answer and get to related states. -/
def Simulates (f : σ → α → σ × ρ) (g : τ → α → τ × ρ) (R : σ → τ → Prop) : Prop :=
  ∀ s t a, R s t → R (f s a).1 (g t a).1 ∧ (f s a).2 = (g t a).2

variable {f : σ → α → σ × ρ} {g : τ → α → τ × ρ} {R : σ → τ → Prop}

theorem Simulates.run (h : Simulates f g R) {s : σ} {t : τ} (hst : R s t) (as : List α) :
    R (run f s as).1 (run g t as).1 ∧ (run f s as).2 = (run g t as).2 := by
  induction as generalizing s t with
  | nil => exact ⟨hst, rfl⟩
  | cons a as ih =>
    obtain ⟨hnext, hanswer⟩ := h s t a hst
    obtain ⟨hlast, hanswers⟩ := ih hnext
    refine ⟨hlast, ?_⟩
    show _ :: _ = _ :: _
    rw [hanswer, hanswers]

end Machine
