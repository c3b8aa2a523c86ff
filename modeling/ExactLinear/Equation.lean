import ExactLinear.Policy

/-! # Linear equations

An equation is a sum of terms that equals zero. It has at most one term for each name, none with a
zero coefficient, and keeps its terms in the order of its policy. In its text the variables stand on
the left and the constant on the right.
-/

namespace ExactLinear

/-- A sum of terms that equals zero, kept in the order of a policy. -/
structure Equation where
  policy : Policy := .descending
  terms : List Term := []
deriving Inhabited

namespace Equation

def leadingTerm? (e : Equation) : Option Term := e.terms.head?

def variableTerms (e : Equation) : List Term := e.terms.filter fun t => !t.isConstant

def unknowns (e : Equation) : List Name := e.variableTerms.map Term.name

def constant (e : Equation) : Fraction :=
  ((e.terms.find? Term.isConstant).map Term.coefficient).getD .zero

def coefficientOf (e : Equation) (n : Name) : Fraction :=
  ((e.terms.find? fun t => t.name = n).map Term.coefficient).getD .zero

/-- The equation says that a constant is zero, like `5 = 0`. -/
def isContradiction (e : Equation) : Bool :=
  match e.terms with
  | [t] => t.isConstant
  | _ => false

def withPolicy (e : Equation) (p : Policy) : Equation := ⟨p, p.sort e.terms⟩

/-- Equations are compared term by term in the natural order, and a proper prefix is smaller. -/
def compare (a b : Equation) : Ordering := a.terms.compareLex Term.compare b.terms

instance : Ord Equation := ⟨compare⟩

/-- Equations are the same if their terms are, whatever their policies. -/
instance : BEq Equation := ⟨fun a b => a.terms = b.terms⟩

/-- A contradiction is written with its constant's size, and no terms as nothing. -/
def text (e : Equation) : Except Fault String :=
  if e.terms.isEmpty then return ""
  else if e.isContradiction then return (← e.constant.abs).text ++ " = 0"
  else return (← Term.sumText e.variableTerms) ++ " = " ++ (← e.constant.neg).text

end Equation
end ExactLinear
