import ExactLinear.Outcome

/-! # Runs of the solver

A run makes operations of the solver one after the other. Every event shows the row that it changed
as it is afterwards, so the log of a run gives the rows at each of its moments, also in the middle
of an operation and before a fault.
-/

namespace ExactLinear

/-- The rows after an event, by what it shows. -/
def Event.shown (rows : List Equation) : Event → List Equation
  | substituted _ _ j e => rows.set j e
  | reduced step _ e => rows.set step.destination e
  | _ => rows

def Event.shownAll (log : List Event) (rows : List Equation) : List Equation :=
  log.foldl Event.shown rows

namespace LinearSystem

inductive Operation
  | reduce
  | substitute
  | eliminate (passes : Nat)
  | solve (passes : Nat)
deriving DecidableEq, Repr

def perform (s : LinearSystem) : Operation → Logged LinearSystem
  | .reduce => return (← s.reduce).1
  | .substitute => return (← s.substitute).1
  | .eliminate passes => return (← s.eliminate passes).1
  | .solve passes => return (← s.solve passes).1

def run (s : LinearSystem) (ops : List Operation) : Logged LinearSystem := ops.foldlM perform s

end LinearSystem
end ExactLinear
