import ExactLinear.Equation.Meaning
import ExactLinear.Proofs.Equation.Operations

/-! # Meaning under the operations

How the value of an equation's sum changes with each operation. Multiplying through keeps the
valuations that satisfy an equation. A substitution keeps those that give the variable its value.
-/

namespace ExactLinear

/-- The number that a coefficient of a name is multiplied with, which is one for the constant. -/
def Valuation.weight (v : Valuation) (n : Name) : ℚ := if n.isBlank then 1 else v n

@[simp] theorem Valuation.weight_blank (v : Valuation) : v.weight .blank = 1 := rfl

theorem Valuation.weight_of_isBlank_eq_false (v : Valuation) {n : Name} (hn : n.isBlank = false) :
    v.weight n = v n := by simp [weight, hn]

namespace Term

theorem eval_eq (v : Valuation) (t : Term) : t.eval v = t.coefficient.value * v.weight t.name := by
  cases h : t.name.isBlank <;> simp [eval, isConstant, Valuation.weight, h]

theorem evalSum_eq_sum (v : Valuation) (ts : List Term) :
    evalSum v ts = (ts.map (eval v)).sum := by
  induction ts with
  | nil => rfl
  | cons t ts ih => rw [evalSum, ih, List.map_cons, List.sum_cons]

@[simp] theorem evalSum_nil (v : Valuation) : evalSum v [] = 0 := rfl

@[simp] theorem evalSum_cons (v : Valuation) (t : Term) (ts : List Term) :
    evalSum v (t :: ts) = t.eval v + evalSum v ts := rfl

@[simp] theorem evalSum_append (v : Valuation) (ts us : List Term) :
    evalSum v (ts ++ us) = evalSum v ts + evalSum v us := by
  simp [evalSum_eq_sum]

theorem evalSum_perm (v : Valuation) {ts us : List Term} (h : ts.Perm us) :
    evalSum v ts = evalSum v us := by
  rw [evalSum_eq_sum, evalSum_eq_sum]
  exact (h.map _).sum_eq

theorem evalSum_congr {v w : Valuation} {ts : List Term}
    (h : ∀ t ∈ ts, t.isConstant = false → v t.name = w t.name) : evalSum v ts = evalSum w ts := by
  rw [evalSum_eq_sum, evalSum_eq_sum]
  congr 1
  apply List.map_congr_left
  intro t ht
  cases hc : t.isConstant with
  | true => simp [eval, hc]
  | false => simp [eval, hc, h t ht hc]

end Term

namespace Equation

theorem evalSum_addition {p : Policy} {t : Term} {ts us : List Term} (v : Valuation)
    (h : Addition p t ts us) : Term.evalSum v us = Term.evalSum v ts + t.eval v := by
  cases h with
  | nothing hz => simp [Term.eval_eq, hz]
  | @merged l r u sum hz hn hs h0 =>
    simp only [Term.evalSum_append, Term.evalSum_cons, Term.eval_eq, Term.withCoefficient, hn,
      Fraction.value_add hs]
    ring
  | @cancelled l r u hz hn hs =>
    have hv := Fraction.value_add hs
    rw [Fraction.value_zero] at hv
    simp only [Term.evalSum_append, Term.evalSum_cons, Term.eval_eq, hn]
    linear_combination hv * v.weight t.name
  | placed hz hn =>
    rw [Term.evalSum_perm v (p.sort_perm _)]
    simp

theorem evalSum_addTerm {e r : Equation} {t : Term} (v : Valuation) (h : e.addTerm t = .ok r) :
    Term.evalSum v r.terms = Term.evalSum v e.terms + t.eval v :=
  evalSum_addition v (addition_of_addTerm h).2

theorem evalSum_addTerms {e r : Equation} {ts : List Term} (v : Valuation)
    (h : e.addTerms ts = .ok r) :
    Term.evalSum v r.terms = Term.evalSum v e.terms + Term.evalSum v ts := by
  induction ts generalizing e with
  | nil => cases h; simp
  | cons t ts ih =>
    rw [addTerms, List.foldlM_cons] at h
    obtain ⟨d, hd, h⟩ := bind_eq_ok.1 h
    rw [ih h, evalSum_addTerm v hd, Term.evalSum_cons, add_assoc]

theorem IsMultiple.evalSum {q : ℚ} {e r : Equation} (h : IsMultiple q e r) (v : Valuation) :
    Term.evalSum v r.terms = q * Term.evalSum v e.terms := by
  rcases e with ⟨p, ts⟩
  rcases r with ⟨p', us⟩
  have ht := h.terms
  dsimp only at ht ⊢
  clear h
  induction ht with
  | nil => simp
  | cons hu _ ih =>
    rw [Term.evalSum_cons, Term.evalSum_cons, ih, Term.eval_eq, Term.eval_eq, hu.1, hu.2]
    ring

/-- Multiplying through by a number other than zero keeps the meaning. -/
theorem IsMultiple.satisfied_iff {q : ℚ} {e r : Equation} (h : IsMultiple q e r) (hq : q ≠ 0)
    (v : Valuation) : r.Satisfied v ↔ e.Satisfied v := by
  rw [Satisfied, Satisfied, h.evalSum v, mul_eq_zero, or_iff_right hq]

theorem satisfied_simplify {e r : Equation} (h : e.simplify = .ok r) (v : Valuation) :
    r.Satisfied v ↔ e.Satisfied v := by
  obtain ⟨q, hq, hm⟩ := isMultiple_of_simplify h
  exact hm.satisfied_iff hq.ne' v

/-- A substitution keeps the meaning for the valuations that give the name its value. -/
theorem satisfied_substitute? {e r : Equation} {n : Name} {x : Fraction}
    (h : e.substitute? n x = .ok (some r)) {v : Valuation} (hv : v.weight n = x.value) :
    r.Satisfied v ↔ e.Satisfied v := by
  obtain ⟨left, right, t, y, sum, he, hn, hy, hs, hr⟩ := substitute?_eq_some h
  rw [satisfied_simplify hr, Satisfied, Satisfied, evalSum_addTerm v hs, he]
  have hc : (Term.constant y).eval v = t.eval v := by
    rw [Term.eval_eq, Term.eval_eq, hn, hv, Term.constant, Valuation.weight_blank,
      Fraction.value_mul hy, mul_one]
  rw [hc, Term.evalSum_append, Term.evalSum_append, Term.evalSum_cons]
  constructor <;> intro h0 <;> linarith

end Equation
end ExactLinear
