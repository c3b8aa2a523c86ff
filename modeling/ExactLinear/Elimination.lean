import ExactLinear.Elimination.Reduction
import ExactLinear.Elimination.Settling

/-! # Elimination

A pass makes one reduction and then substitutes until that comes to rest. Passes go on until one
does neither, or a contradiction is found. Their number is bounded by an explicit budget, because a
policy with ties can send the rows round in a circle.
-/

namespace ExactLinear

inductive Ending
  /-- Nothing is left to reduce or substitute. -/
  | finished
  | contradiction
  /-- The budget of passes is used up. -/
  | unfinished
deriving DecidableEq, Repr

/-- Makes at most the given number of passes over the rows. -/
def eliminate : Nat → List Equation → Logged (List Equation × Ending)
  | 0, rows => return (rows, .unfinished)
  | passes + 1, rows => do
    let (rows, step) ← reduce rows
    let (rows, rounds, verdict) ← settle rows
    if 0 < rounds then Logged.emit (.settled rounds)
    if verdict = .contradiction then return (rows, .contradiction)
    if step.isNone ∧ rounds = 0 then return (rows, .finished)
    eliminate passes rows

end ExactLinear
