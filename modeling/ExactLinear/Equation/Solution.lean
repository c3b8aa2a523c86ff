import ExactLinear.Equation.Arithmetic

/-! # Solving a single equation

What one equation says by itself: nothing, the value of its only variable, or one variable in terms
of the others.
-/

namespace ExactLinear

/-- What an equation that is no contradiction says by itself. -/
inductive DirectSolution
  /-- It holds always. -/
  | trivial
  /-- It holds for one value of its variable. -/
  | assignment (name : Name) (value : Fraction)
deriving DecidableEq

namespace Equation

/-- The direct solution, if there is one. A contradiction must not be asked for it. -/
def solution? (e : Equation) : Except Fault (Option DirectSolution) :=
  if e.isContradiction then throw (.contradiction e.constant.numerator e.constant.denominator)
  else
    match e.terms.length, e.variableTerms with
    | 0, _ => return some .trivial
    | 1, [t] => return some (.assignment t.name .zero)
    | 2, [t] => do
      match (← e.constant.neg).div t.coefficient with
      | .ok x => return some (.assignment t.name x)
      | .error .divisionByZero => return none
      | .error f => throw f
    | _, _ => return none

def hasSolution (e : Equation) : Except Fault Bool :=
  if e.isContradiction then return false else return (← e.solution?).isSome

def express? (e : Equation) (n : Name) : Except Fault (Option (List Term)) :=
  match takeOut? n e.terms with
  | none => return none
  | some (t, ts) => do
    match ← t.coefficient.recip? with
    | none => return none
    | some r =>
      let x ← r.neg
      return some (← ts.mapM fun u => u.scale x)

end Equation
end ExactLinear
