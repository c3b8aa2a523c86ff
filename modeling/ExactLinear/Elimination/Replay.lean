import ExactLinear.Elimination.Log

/-! # Replay of a log

The events of a log are instructions: a substitution names its row, variable and value, and a
reduction its two rows and the coefficient. Replaying them rebuilds the rows.
-/

namespace ExactLinear

def replaySubstitution (n : Name) (x : Fraction) (j : Nat) (rows : List Equation) :
    Except Fault (List Equation) := do
  match rows[j]? with
  | none => return rows
  | some row =>
    match ← row.substitute? n x with
    | none => return rows
    | some e => return rows.set j e

/-- Adds a multiple of the source row to the destination row, and simplifies it. -/
def replayReduction (step : Reduction) (rows : List Equation) : Except Fault (List Equation) := do
  match rows[step.source]?, rows[step.destination]? with
  | some s, some d =>
    let sum ← d.addTerms (← s.multiply step.coefficient).terms
    return rows.set step.destination (← sum.simplify)
  | _, _ => return rows

/-- The rows after an event, by what it instructs and not by what it shows. -/
def Event.replay (rows : List Equation) : Event → Except Fault (List Equation)
  | substituted n x j _ => replaySubstitution n x j rows
  | reduced step _ _ => replayReduction step rows
  | _ => return rows

def Event.replayAll (log : List Event) (rows : List Equation) : Except Fault (List Equation) :=
  log.foldlM Event.replay rows

end ExactLinear
