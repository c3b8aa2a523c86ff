import ExactLinear.Bindings
import ExactLinear.Equation.Arithmetic

/-! # Systems of equations

A system is a list of equations that all keep their terms in the order of the system's policy.
-/

namespace ExactLinear

structure LinearSystem where
  policy : Policy := .descending
  equations : List Equation := []
deriving Inhabited

namespace LinearSystem

/-- Adds an equation at the end, under the policy of the system. -/
def push (s : LinearSystem) (e : Equation) : LinearSystem :=
  { s with equations := s.equations ++ [e.withPolicy s.policy] }

def append (s : LinearSystem) (es : List Equation) : LinearSystem := es.foldl push s

def ofEquations (es : List Equation) : LinearSystem := append {} es

def withPolicy (s : LinearSystem) (p : Policy) : LinearSystem :=
  ⟨p, s.equations.map fun e => e.withPolicy p⟩

/-- The variables of the equations in ascending order. -/
def unknowns (s : LinearSystem) : List Name :=
  (s.equations.flatMap Equation.unknowns).foldr Name.insertInto []

/-- The equations in descending order. -/
def sorted (s : LinearSystem) : LinearSystem :=
  { s with equations := sortBy (fun a b => b.compare a) s.equations }

/-- Systems are the same if their equations are, whatever their policies. -/
instance : BEq LinearSystem := ⟨fun a b => a.equations == b.equations⟩

def text (s : LinearSystem) : Except Fault String :=
  return "\n".intercalate (← s.equations.mapM Equation.text)

end LinearSystem
end ExactLinear
