import ExactLinear.Elimination.Log

/-! # Rounds of substitution

A round takes the rows in turn. One that gives its only variable a value passes it to every other
row that has no direct solution. A round that changes a row removes a variable from it, so the
rounds come to rest.
-/

namespace ExactLinear

inductive Verdict
  | unchanged
  | changed
  /-- No valuation satisfies the rows. -/
  | contradiction
deriving DecidableEq, Repr

/-- The verdict on two stretches of rows: the graver of the two. -/
def Verdict.join : Verdict → Verdict → Verdict
  | contradiction, _ => contradiction
  | _, contradiction => contradiction
  | unchanged, unchanged => unchanged
  | _, _ => changed

inductive Meeting
  | kept
  | rewritten (equation : Equation)
  | contradictory

/-- Shows the value that row `i` gives a variable to row `j`. Row `i` itself stays as it is. -/
def meet (n : Name) (x : Fraction) (i j : Nat) (row : Equation) : Logged Meeting := do
  if j = i then return .kept
  if row.isContradiction then return .contradictory
  match ← row.solution? with
  | some (.assignment m y) =>
    if m = n ∧ y ≠ x then
      Logged.emit (.conflict n x y)
      return .contradictory
    else return .kept
  | some .trivial => return .kept
  | none =>
    match ← row.substitute? n x with
    | none => return .kept
    | some e =>
      Logged.emit (.substituted n x j e)
      return .rewritten e

/-- Shows the value that row `i` gives to the rows from index `j` on, up to a contradiction. -/
def spread (n : Name) (x : Fraction) (i : Nat) :
    Nat → List Equation → Logged (List Equation × Verdict)
  | _, [] => return ([], .unchanged)
  | j, row :: rest => do
    match ← meet n x i j row with
    | .contradictory => return (row :: rest, .contradiction)
    | .kept =>
      let (rest, v) ← spread n x i (j + 1) rest
      return (row :: rest, v)
    | .rewritten e =>
      let (rest, v) ← spread n x i (j + 1) rest
      return (e :: rest, Verdict.changed.join v)

def substituteFrom (i : Nat) (row : Equation) (rows : List Equation) :
    Logged (List Equation × Verdict) := do
  if row.isContradiction then return (rows, .contradiction)
  match ← row.solution? with
  | some (.assignment n x) => spread n x i 0 rows
  | _ => return (rows, .unchanged)

def roundFrom : Nat → Nat → List Equation → Logged (List Equation × Verdict)
  | 0, _, rows => return (rows, .unchanged)
  | k + 1, i, rows => do
    match rows[i]? with
    | none => return (rows, .unchanged)
    | some row =>
      let (rows, v) ← substituteFrom i row rows
      if v = .contradiction then return (rows, v)
      let (rows, w) ← roundFrom k (i + 1) rows
      return (rows, v.join w)

def substitutionRound (rows : List Equation) : Logged (List Equation × Verdict) :=
  roundFrom rows.length 0 rows

def variableCount : List Equation → Nat
  | [] => 0
  | row :: rest => row.unknowns.length + variableCount rest

end ExactLinear
