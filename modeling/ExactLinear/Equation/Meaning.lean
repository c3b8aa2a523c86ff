import ExactLinear.Equation

/-! # Meaning of terms and equations

A valuation gives every name a rational number. It satisfies an equation if the terms add up to zero
under it.
-/

namespace ExactLinear

abbrev Valuation := Name → Rat

/-- The value of a term, which does not depend on the valuation for a constant. -/
def Term.eval (v : Valuation) (t : Term) : Rat :=
  if t.isConstant then t.coefficient.value else t.coefficient.value * v t.name

def Term.evalSum (v : Valuation) : List Term → Rat
  | [] => 0
  | t :: ts => t.eval v + evalSum v ts

/-- The valuation makes the sum of the terms zero. -/
def Equation.Satisfied (v : Valuation) (e : Equation) : Prop := Term.evalSum v e.terms = 0

end ExactLinear
