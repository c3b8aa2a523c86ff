import ExactLinear.Equation

/-! # Canonical equations

The form that every operation keeps: one term for each name, no zero coefficient, and the constant
last. Under a lawful policy the terms are sorted besides, and a lawful policy is one that orders the
variable terms up to ties.
-/

namespace ExactLinear

/-- The comparison of variable terms is a strict weak order. -/
def Policy.IsLawful (p : Policy) : Prop := Std.TransCmp p.compareVariables

namespace Equation

/-- One term for each name, none of them zero, and the constant after the variables. -/
structure IsCanonical (e : Equation) : Prop where
  nodup : (e.terms.map Term.name).Nodup
  nonzero : ∀ t ∈ e.terms, t.coefficient ≠ .zero
  constantLast : e.terms.Pairwise fun t _ => t.isConstant = false

def IsSorted (e : Equation) : Prop := e.terms.Pairwise fun t u => (e.policy.compare t u).isLE

def IsStrictlySorted (e : Equation) : Prop := e.terms.Pairwise fun t u => e.policy.compare t u = .lt

end Equation
end ExactLinear
