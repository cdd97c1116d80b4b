import Mathlib.Algebra.BigOperators.Group.Finset.Piecewise
import Mathlib.Algebra.Order.BigOperators.Group.Finset
import Vee.Lib.Transition

/- What the steps of a run cost, by the method of potentials.

   If each step's cost is paid out of the fall of a potential and of an allowance for
   the step, then a run costs at most the potential it starts with and the allowances
   of its steps (`Run.charge`). Where the potential is a sum over threads of which one
   moves, the step is `sum_change`, or `sum_update_le` if the others rise by at most a
   bound each; where they race, each winner setting the others back, it is `sum_race_le`.
   And where a step that lowers the potential is always at hand, the goal is reached
   (`reaches_goal`). -/
namespace Transition

variable {σ α : Type*}

/-- What the steps of a run cost together. -/
def total (cost : σ → α → Nat) : List (σ × α) → Nat
  | [] => 0
  | p :: tr => cost p.1 p.2 + total cost tr

@[simp] theorem total_nil (cost : σ → α → Nat) : total cost ([] : List (σ × α)) = 0 := rfl

@[simp] theorem total_cons (cost : σ → α → Nat) (p : σ × α) (tr : List (σ × α)) :
    total cost (p :: tr) = cost p.1 p.2 + total cost tr := rfl

@[simp] theorem total_append (cost : σ → α → Nat) (tr₁ tr₂ : List (σ × α)) :
    total cost (tr₁ ++ tr₂) = total cost tr₁ + total cost tr₂ := by
  induction tr₁ with
  | nil => simp
  | cons p tr ih =>
    rw [List.cons_append, total_cons, total_cons, ih]
    omega

theorem total_mul (k : Nat) (cost : σ → α → Nat) (tr : List (σ × α)) :
    total (fun s a => k * cost s a) tr = k * total cost tr := by
  induction tr with
  | nil => rfl
  | cons p tr ih => rw [total_cons, total_cons, ih, Nat.mul_add]

theorem total_add (cost₁ cost₂ : σ → α → Nat) (tr : List (σ × α)) :
    total (fun s a => cost₁ s a + cost₂ s a) tr = total cost₁ tr + total cost₂ tr := by
  induction tr with
  | nil => rfl
  | cons p tr ih =>
    rw [total_cons, total_cons, total_cons, ih]
    omega

@[simp] theorem total_zero (tr : List (σ × α)) : total (fun _ _ => 0) tr = 0 := by
  induction tr with
  | nil => rfl
  | cons p tr ih => rw [total_cons, ih]

variable {step : σ → α → Option σ} {s₀ s : σ} {tr : List (σ × α)}

/-- A run whose steps keep an invariant and are paid for is paid for. -/
theorem Run.charge {C : σ → α → Prop} {I : σ → Prop} (pot : σ → Nat) (cost allow : σ → α → Nat)
    (base : I s₀) (keep : ∀ s a s', I s → C s a → step s a = some s' → I s')
    (pay : ∀ s a s', I s → C s a → step s a = some s' → pot s' + cost s a ≤ pot s + allow s a)
    (h : Run step s₀ tr s) (hok : Meets C tr) :
    pot s + total cost tr ≤ pot s₀ + total allow tr := by
  have hboth : I s ∧ pot s + total cost tr ≤ pot s₀ + total allow tr := by
    refine Run.history (I := fun tr s => I s ∧ pot s + total cost tr ≤ pot s₀ + total allow tr)
      ⟨base, Nat.le_refl _⟩ ?_ h hok
    intro tr s a s' hI ha hs
    obtain ⟨hI, hle⟩ := hI
    have hpay := pay s a s' hI ha hs
    refine ⟨keep s a s' hI ha hs, ?_⟩
    simp only [total_append, total_cons, total_nil]
    omega
  exact hboth.2

/-- A sum over threads of which one changes. -/
theorem sum_change {T : Type*} [Fintype T] [DecidableEq T] {f g : T → Nat} (t : T)
    (h : ∀ u, u ≠ t → g u = f u) : ∑ u, g u + f t = ∑ u, f u + g t := by
  have hrest : ∑ u ∈ Finset.univ.erase t, g u = ∑ u ∈ Finset.univ.erase t, f u :=
    Finset.sum_congr rfl fun u hu => h u (Finset.ne_of_mem_erase hu)
  rw [← Finset.add_sum_erase _ g (Finset.mem_univ t),
    ← Finset.add_sum_erase _ f (Finset.mem_univ t), hrest]
  omega

/-- One thread moves and each other one's share rises by at most `k`. -/
theorem sum_update_le {T : Type*} [Fintype T] [DecidableEq T] {f g : T → Nat} {t : T} {k : Nat}
    (hrise : ∀ u, u ≠ t → g u ≤ f u + k) :
    ∑ u, g u + f t ≤ ∑ u, f u + g t + k * (Fintype.card T - 1) := by
  have hothers : ∑ u ∈ Finset.univ.erase t, g u ≤ ∑ u ∈ Finset.univ.erase t, (f u + k) := by
    apply Finset.sum_le_sum
    intro u hu
    exact hrise u (Finset.ne_of_mem_erase hu)
  have hcount : ∑ u ∈ Finset.univ.erase t, (f u + k) =
      ∑ u ∈ Finset.univ.erase t, f u + k * (Fintype.card T - 1) := by
    rw [Finset.sum_add_distrib, Finset.sum_const_nat fun _ _ => rfl,
      Finset.card_erase_of_mem (Finset.mem_univ t), Finset.card_univ, Nat.mul_comm]
  have hf := Finset.add_sum_erase Finset.univ f (Finset.mem_univ t)
  have hg := Finset.add_sum_erase Finset.univ g (Finset.mem_univ t)
  omega

/-- A race in which a thread pays for the `k` steps that its move costs each other thread at
most, by having one move less to make. -/
theorem sum_race_le {T : Type*} [Fintype T] [DecidableEq T] {left left' racing racing' : T → Nat}
    {t : T} {k cost allow : Nat} (hsame : ∀ u, u ≠ t → racing' u = racing u)
    (hown : left' t + cost ≤ left t + allow)
    (hrace : (∀ u, u ≠ t → left' u ≤ left u) ∧ racing' t ≤ racing t ∨
      (∀ u, u ≠ t → left' u ≤ left u + k) ∧ racing' t + 1 ≤ racing t) :
    ∑ u, (left' u + k * (Fintype.card T - 1) * racing' u) + cost ≤
      ∑ u, (left u + k * (Fintype.card T - 1) * racing u) + allow := by
  generalize hdelay : k * (Fintype.card T - 1) = delay
  rcases hrace with ⟨hrise, hracing⟩ | ⟨hrise, hracing⟩
  · have hmul := Nat.mul_le_mul_left delay hracing
    have hsum := sum_update_le (f := fun u => left u + delay * racing u)
      (g := fun u => left' u + delay * racing' u) (t := t) (k := 0) ?_
    · omega
    · intro u hu
      have hle := hrise u hu
      simp only [hsame u hu]
      omega
  · have hmul := Nat.mul_le_mul_left delay hracing
    have hsum := sum_update_le (f := fun u => left u + delay * racing u)
      (g := fun u => left' u + delay * racing' u) (t := t) (k := k) ?_
    · rw [Nat.mul_add, Nat.mul_one] at hmul
      rw [hdelay] at hsum
      omega
    · intro u hu
      have hle := hrise u hu
      simp only [hsame u hu]
      omega

/-- Where each state short of the goal has a step that brings it nearer, the goal is reached,
by at most as many steps as the potential says. -/
theorem reaches_goal {C : σ → α → Prop} {I G : σ → Prop} (pot : σ → Nat)
    (keep : ∀ s a s', I s → C s a → step s a = some s' → I s')
    (next : ∀ s, I s → ¬ G s → ∃ a s', C s a ∧ step s a = some s' ∧ pot s' < pot s)
    (hI : I s) : ∃ tr s', Run step s tr s' ∧ Meets C tr ∧ G s' ∧ tr.length + pot s' ≤ pot s := by
  induction hk : pot s using Nat.strongRecOn generalizing s with
  | ind k ih =>
    by_cases hgoal : G s
    · exact ⟨[], s, .nil, meets_nil C, hgoal, by simp [hk]⟩
    · obtain ⟨a, m, ha, hm, hlt⟩ := next s hI hgoal
      obtain ⟨tr, s', hrun, hC, hs', hle⟩ := ih (pot m) (by omega) (keep s a m hI ha hm) rfl
      refine ⟨(s, a) :: tr, s', (Run.single hm).append hrun, meets_cons.mpr ⟨ha, hC⟩, hs', ?_⟩
      rw [List.length_cons]
      omega

end Transition
