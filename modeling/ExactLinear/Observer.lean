import ExactLinear.Outcome

/-! # Observers of the solver

An observer is shown every reduction when it has been made, before anything is substituted after it,
and changes a state of its own. What it was shown before a fault stays shown.
-/

namespace ExactLinear

variable {σ : Type}

abbrev Observer (σ : Type) := Reduction → StateM σ Unit

/-- A computation beside an observer, whose state outlasts a fault. -/
abbrev Observed (σ : Type) := ExceptT Fault (StateM σ)

/-- Makes one reduction, if a pair is left, and shows it. -/
def reduceWith (observer : Observer σ) (rows : List Equation) :
    Observed σ (List Equation × Option Reduction) := do
  let (rows, step) ← (reduce rows).result
  if let some step := step then observer step
  return (rows, step)

def eliminateWith (observer : Observer σ) :
    Nat → List Equation → Observed σ (List Equation × Ending)
  | 0, rows => return (rows, .unfinished)
  | passes + 1, rows => do
    let (rows, step) ← reduceWith observer rows
    let (rows, rounds, verdict) ← (settle rows).result
    if verdict = .contradiction then return (rows, .contradiction)
    if step.isNone ∧ rounds = 0 then return (rows, .finished)
    eliminateWith observer passes rows

def LinearSystem.solveWith (observer : Observer σ) (passes : Nat) (s : LinearSystem) :
    Observed σ (LinearSystem × Option Outcome) := do
  let (rows, ending) ← eliminateWith observer passes s.equations
  let after := { s with equations := rows }
  match ending with
  | .unfinished => return (after, none)
  | .contradiction => return (after, some .inconsistent)
  | .finished => return (after, some (← Outcome.ofRows s.unknowns rows))

end ExactLinear
