import Vee.Lib.Transition

/- What is recorded along a run.

   A record is what the steps of a run come to, one after the other, and takes no part in
   them: a history variable. A condition on a step may look at the record of the steps before
   it (`MeetsRecorded`). What every step keeps of the record and the state holds at the end of
   the run (`Run.recorded`), and so does what the steps under such a condition keep of the
   record (`MeetsRecorded.invariant`). `trace` executes actions and lists the steps taken, so
   that a condition of this kind can be evaluated. -/
namespace Transition

variable {σ α γ : Type*}

/-- The record after the steps of `tr`. -/
def recorded (next : γ → σ → α → γ) (g : γ) (tr : List (σ × α)) : γ :=
  tr.foldl (fun g p => next g p.1 p.2) g

/-- Every step meets `ok`, given the record of the steps before it. -/
def MeetsRecorded (next : γ → σ → α → γ) (ok : γ → σ → α → Prop) : γ → List (σ × α) → Prop
  | _, [] => True
  | g, p :: tr => ok g p.1 p.2 ∧ MeetsRecorded next ok (next g p.1 p.2) tr

/-- The steps that a list of actions takes, with the state after them. -/
def trace (step : σ → α → Option σ) : σ → List α → Option (List (σ × α) × σ)
  | s, [] => some ([], s)
  | s, a :: as =>
    (step s a).bind fun s' => (trace step s' as).map fun (tr, x) => ((s, a) :: tr, x)

section
variable {next : γ → σ → α → γ} {ok : γ → σ → α → Prop} {g : γ} {tr tr₁ tr₂ : List (σ × α)} {s : σ}
  {a : α}

instance decidableMeetsRecorded [∀ g s a, Decidable (ok g s a)] :
    ∀ (g : γ) (tr : List (σ × α)), Decidable (MeetsRecorded next ok g tr)
  | _, [] => isTrue trivial
  | g, p :: tr =>
    @instDecidableAnd _ _ (inferInstanceAs (Decidable (ok g p.1 p.2)))
      (decidableMeetsRecorded (next g p.1 p.2) tr)

instance {ok : σ → α → Prop} [∀ s a, Decidable (ok s a)] (tr : List (σ × α)) :
    Decidable (Meets ok tr) :=
  inferInstanceAs (Decidable (∀ p ∈ tr, ok p.1 p.2))

@[simp] theorem recorded_nil : recorded next g ([] : List (σ × α)) = g := rfl

@[simp] theorem recorded_append :
    recorded next g (tr₁ ++ tr₂) = recorded next (recorded next g tr₁) tr₂ := List.foldl_append

@[simp] theorem recorded_singleton : recorded next g [(s, a)] = next g s a := rfl

theorem meetsRecorded_append : MeetsRecorded next ok g (tr₁ ++ tr₂) ↔
    MeetsRecorded next ok g tr₁ ∧ MeetsRecorded next ok (recorded next g tr₁) tr₂ := by
  induction tr₁ generalizing g with
  | nil => simp [MeetsRecorded]
  | cons p tr₁ ih =>
    rw [List.cons_append, MeetsRecorded, MeetsRecorded, ih, and_assoc]
    rfl

theorem meetsRecorded_snoc : MeetsRecorded next ok g (tr ++ [(s, a)]) ↔
    MeetsRecorded next ok g tr ∧ ok (recorded next g tr) s a := by
  rw [meetsRecorded_append]
  simp [MeetsRecorded]

/-- What holds at the start and is kept by every step that meets the condition. -/
theorem MeetsRecorded.invariant {I : List (σ × α) → γ → Prop} (base : I [] g)
    (keep : ∀ tr g s a, I tr g → ok g s a → I (tr ++ [(s, a)]) (next g s a))
    (h : MeetsRecorded next ok g tr) : I tr (recorded next g tr) := by
  induction tr using List.reverseRecOn with
  | nil => exact base
  | append_singleton tr p ih =>
    obtain ⟨htr, hp⟩ := meetsRecorded_snoc.mp h
    rw [recorded_append]
    exact keep tr _ p.1 p.2 (ih htr) hp

end

section
variable {step : σ → α → Option σ} {next : γ → σ → α → γ} {g : γ} {s₀ s : σ} {tr : List (σ × α)}

/-- What holds of the state and the record at the start and is kept by every step holds at the
end of every run. -/
theorem Run.recorded {I : γ → σ → Prop} (base : I g s₀)
    (keep : ∀ g s a s', I g s → step s a = some s' → I (next g s a) s')
    (h : Run step s₀ tr s) : I (recorded next g tr) s := by
  induction h with
  | nil => exact base
  | snoc _ hs ih =>
    rw [recorded_append, recorded_singleton]
    exact keep _ _ _ _ ih hs

/-- Executing actions yields a run with the steps listed. -/
theorem Run.of_trace {as : List α} (h : trace step s₀ as = some (tr, s)) :
    Run step s₀ tr s ∧ tr.map Prod.snd = as := by
  induction as generalizing s₀ tr with
  | nil =>
    obtain ⟨rfl, rfl⟩ := Prod.mk.inj (Option.some.inj h)
    exact ⟨.nil, rfl⟩
  | cons a as ih =>
    obtain ⟨m, hm, hmap⟩ := Option.bind_eq_some_iff.mp h
    obtain ⟨⟨tr', x⟩, htr', heq⟩ := Option.map_eq_some_iff.mp hmap
    obtain ⟨rfl, rfl⟩ := Prod.mk.inj heq
    obtain ⟨hrun, has⟩ := ih htr'
    exact ⟨(Run.single hm).append hrun, by rw [List.map_cons, has]⟩

/-- A run with a decidable property of its steps and its last state, found by executing its
actions. -/
theorem Run.of_trace_any {P : List (σ × α) → σ → Prop} [∀ tr s, Decidable (P tr s)] (as : List α)
    (h : (trace step s₀ as).any (fun r => decide (P r.1 r.2)) = true) :
    ∃ tr s, Run step s₀ tr s ∧ tr.map Prod.snd = as ∧ P tr s := by
  obtain ⟨⟨tr, s⟩, htr, hP⟩ := (Option.any_eq_true _ _).mp h
  obtain ⟨hrun, has⟩ := Run.of_trace htr
  exact ⟨tr, s, hrun, has, of_decide_eq_true hP⟩

end

end Transition
