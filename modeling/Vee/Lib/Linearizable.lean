import Mathlib.Logic.Function.Basic
import Vee.Lib.Transition

/- Linearizability.

   An `Object` says what each operation does when it runs alone. A history is the
   sequence of calls and returns that several threads make. It is linearizable
   when every call can be given one point between its call and its return at
   which its operation takes effect on the object, all at once, so that it returns
   what the operation returns there. `Trace` is the automaton of such points: a
   call is pending until it is linearized, and returns the result it was
   linearized with.

   `linearizable_of_simulation` is the proof rule: a relation between the states
   of a transition system and those of the automaton that every step keeps, the
   step's new events being a trace of the automaton. -/
namespace Linearizability
open Transition

/-- The sequential meaning of a set of operations. -/
structure Object (σ ι ρ : Type*) where
  start : σ
  apply : σ → ι → σ × ρ

/-- A call of an operation by a thread, or its return. -/
inductive Event (T ι ρ : Type*) where
  | call (t : T) (op : ι)
  | ret (t : T) (result : ρ)
  deriving DecidableEq, Repr

/-- Where a thread is with its operation. -/
inductive Status (ι ρ : Type*) where
  | idle
  | pending (op : ι)
  | done (result : ρ)
  deriving DecidableEq, Repr

structure Config (σ T ι ρ : Type*) where
  object : σ
  status : T → Status ι ρ

variable {σ T ι ρ : Type*}

/-- The object at its start and no operation called. -/
def Config.start (O : Object σ ι ρ) : Config σ T ι ρ :=
  { object := O.start, status := fun _ => .idle }

section
variable [DecidableEq T] (O : Object σ ι ρ)

/-- The state after thread `t` calls `op`. -/
def Config.call (c : Config σ T ι ρ) (t : T) (op : ι) : Config σ T ι ρ :=
  { c with status := Function.update c.status t (.pending op) }

/-- The state after the operation `op` of thread `t` takes effect. -/
def Config.linearize (c : Config σ T ι ρ) (t : T) (op : ι) : Config σ T ι ρ :=
  { object := (O.apply c.object op).1
    status := Function.update c.status t (.done (O.apply c.object op).2) }

/-- The state after thread `t` returns. -/
def Config.ret (c : Config σ T ι ρ) (t : T) : Config σ T ι ρ :=
  { c with status := Function.update c.status t .idle }

/-- `Trace O c h c'`: the object and its threads go from `c` to `c'`, each
operation taking effect at one point between its call and its return, and the
calls and returns on the way are `h`. -/
inductive Trace (c : Config σ T ι ρ) : List (Event T ι ρ) → Config σ T ι ρ → Prop where
  | nil : Trace c [] c
  | call {h : List (Event T ι ρ)} {m : Config σ T ι ρ} (t : T) (op : ι) :
      Trace c h m → m.status t = .idle → Trace c (h ++ [.call t op]) (m.call t op)
  | linearize {h : List (Event T ι ρ)} {m : Config σ T ι ρ} (t : T) (op : ι) :
      Trace c h m → m.status t = .pending op → Trace c h (m.linearize O t op)
  | ret {h : List (Event T ι ρ)} {m : Config σ T ι ρ} (t : T) (r : ρ) :
      Trace c h m → m.status t = .done r → Trace c (h ++ [.ret t r]) (m.ret t)

/-- The history is one of the object with atomic operations. -/
def Linearizable (h : List (Event T ι ρ)) : Prop := ∃ c, Trace O (Config.start O) h c

end

section
variable [DecidableEq T] {O : Object σ ι ρ} {c c' m : Config σ T ι ρ} {h h' : List (Event T ι ρ)}

theorem Trace.append (h₁ : Trace O c h m) (h₂ : Trace O m h' c') : Trace O c (h ++ h') c' := by
  induction h₂ with
  | nil => simpa using h₁
  | call t op _ hs ih =>
    rw [← List.append_assoc]
    exact ih.call t op hs
  | linearize t op _ hs ih => exact ih.linearize t op hs
  | ret t r _ hs ih =>
    rw [← List.append_assoc]
    exact ih.ret t r hs

/-- A pending operation may take effect and return at once. -/
theorem Trace.complete {t : T} {op : ι} (hs : c.status t = .pending op) :
    Trace O c [.ret t (O.apply c.object op).2] ((c.linearize O t op).ret t) := by
  have hlin : Trace O c [] (c.linearize O t op) := Trace.nil.linearize t op hs
  have hdone : (c.linearize O t op).status t = .done (O.apply c.object op).2 := by
    simp [Config.linearize]
  exact hlin.ret t _ hdone

theorem Trace.single_call {t : T} (op : ι) (hs : c.status t = .idle) :
    Trace O c [.call t op] (c.call t op) :=
  Trace.nil.call t op hs

end

/-- **Simulation rule.** If the start is related to the object's start, and every
step keeps the relation while its new events are a trace of the object, then
every run has a linearizable history. -/
theorem linearizable_of_simulation [DecidableEq T] {S α : Type*} {step : S → α → Option S}
    {ok : S → α → Prop} {O : Object σ ι ρ} {hist : S → List (Event T ι ρ)}
    (R : S → Config σ T ι ρ → Prop) {s₀ s : S} {tr : List (S × α)} (hnil : hist s₀ = [])
    (base : R s₀ (Config.start O))
    (keep : ∀ s a s' c, R s c → ok s a → step s a = some s' →
      ∃ new c', hist s' = hist s ++ new ∧ Trace O c new c' ∧ R s' c')
    (hrun : Run step s₀ tr s) (hok : Meets ok tr) : Linearizable O (hist s) := by
  have hinv : ∃ c, Trace O (Config.start O) (hist s) c ∧ R s c := by
    induction hrun with
    | nil => exact ⟨_, hnil ▸ Trace.nil, base⟩
    | snoc _ hs ih =>
      obtain ⟨htr, ha⟩ := meets_snoc.mp hok
      obtain ⟨c, htrace, hR⟩ := ih htr
      obtain ⟨new, c', hnew, hstep, hR'⟩ := keep _ _ _ c hR ha hs
      exact ⟨c', hnew ▸ htrace.append hstep, hR'⟩
  obtain ⟨c, htrace, -⟩ := hinv
  exact ⟨c, htrace⟩

end Linearizability
