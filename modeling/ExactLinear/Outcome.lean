import ExactLinear.Elimination
import ExactLinear.LinearSystem

/-! # Solving a system

A system is solved by elimination and then read off row by row: values of variables, and variables
in terms of others. It is solved if every unknown has a value; otherwise the variables with neither
a value nor an expression are free.
-/

namespace ExactLinear

/-- What the rows say about the variables after elimination. -/
structure Solution where
  known : Bindings Fraction := {}
  /-- Sums that variables equal, which mention other variables. -/
  expressed : Bindings (List Term) := {}
deriving DecidableEq, Inhabited

/-- The value of the variable with exactly this text. -/
def Solution.valueOf? (s : Solution) (text : String) : Option Fraction :=
  (s.known.entries.find? fun e => e.1.text = text).map Prod.snd

inductive Outcome
  /-- No valuation satisfies the system. -/
  | inconsistent
  /-- Every unknown has one value. -/
  | solved (solution : Solution)
  /-- Infinitely many valuations satisfy the system. -/
  | underdetermined (solution : Solution)
deriving DecidableEq

/-- Reads off the rows in their order, and whether each of them is directly solved. Nothing if one
is a contradiction. -/
def readOff : List Equation → Solution → Bool → Except Fault (Option (Solution × Bool))
  | [], s, complete => return some (s, complete)
  | row :: rest, s, complete => do
    if row.isContradiction then return none
    match ← row.solution? with
    | some (.assignment n x) => readOff rest { s with known := s.known.insert n x } complete
    | some .trivial => readOff rest s complete
    | none =>
      match row.leadingTerm? with
      | none => readOff rest s false
      | some t =>
        match ← row.express? t.name with
        | none => readOff rest s false
        | some ts => readOff rest { s with expressed := s.expressed.insert t.name ts } false

def Outcome.ofRows (unknowns : List Name) (rows : List Equation) : Except Fault Outcome := do
  match ← readOff rows {} true with
  | none => return .inconsistent
  | some (s, complete) =>
    if complete && unknowns.all s.known.contains then return .solved s
    else return .underdetermined s

namespace LinearSystem

def substitute (s : LinearSystem) : Logged (LinearSystem × Verdict) := do
  let (rows, v) ← substitutionRound s.equations
  return ({ s with equations := rows }, v)

def reduce (s : LinearSystem) : Logged (LinearSystem × Option Reduction) := do
  let (rows, step) ← ExactLinear.reduce s.equations
  return ({ s with equations := rows }, step)

def eliminate (passes : Nat) (s : LinearSystem) : Logged (LinearSystem × Ending) := do
  let (rows, ending) ← ExactLinear.eliminate passes s.equations
  return ({ s with equations := rows }, ending)

/-- The outcome after at most the given number of passes. Nothing if they do not suffice. -/
def solve (passes : Nat) (s : LinearSystem) : Logged (LinearSystem × Option Outcome) := do
  let (after, ending) ← s.eliminate passes
  match ending with
  | .unfinished => return (after, none)
  | .contradiction => return (after, some .inconsistent)
  | .finished => return (after, some (← Outcome.ofRows s.unknowns after.equations))

/-- A number of passes that suffices under the built-in policies: one for each row and unknown, and
one more for each row, each unknown and the end. -/
def passBound (s : LinearSystem) : Nat := (s.equations.length + 1) * (s.unknowns.length + 1)

end LinearSystem
end ExactLinear
