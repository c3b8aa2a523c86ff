import ExactLinear.Elimination.Log

/-! # Reductions

A reduction takes the first two rows that are led by the same variable and clears that variable from
the second. Rows that contradict themselves or are directly solved lead nothing.
-/

namespace ExactLinear

/-- The leading term of a row that is neither contradictory nor directly solved. -/
def Equation.leader? (e : Equation) : Except Fault (Option Term) :=
  if e.isContradiction then return none
  else do
    match ← e.solution? with
    | some _ => return none
    | none => return e.leadingTerm?

structure LedRow where
  index : Nat
  row : Equation
  leader : Term

def partner? (n : Name) : Nat → List Equation → Except Fault (Option LedRow)
  | _, [] => return none
  | j, row :: rest => do
    match ← row.leader? with
    | some t => if t.name = n then return some ⟨j, row, t⟩ else partner? n (j + 1) rest
    | none => partner? n (j + 1) rest

/-- The first pair of rows from index `i` on that one variable leads. -/
def pair? : Nat → List Equation → Except Fault (Option (LedRow × LedRow))
  | _, [] => return none
  | i, row :: rest => do
    match ← row.leader? with
    | none => pair? (i + 1) rest
    | some t =>
      match ← partner? t.name (i + 1) rest with
      | some d => return some (⟨i, row, t⟩, d)
      | none => pair? (i + 1) rest

/-- The coefficient that clears the leader of the second row, and that row after it. -/
def combine (s d : LedRow) : Except Fault (Fraction × Equation) := do
  let factor ← (← s.leader.coefficient.div d.leader.coefficient).neg
  match ← factor.recip? with
  | none => throw .divisionByZero
  | some coefficient =>
    let scaled ← s.row.unscale factor
    let sum ← d.row.addTerms scaled.terms
    return (coefficient, ← sum.simplify)

def reduce (rows : List Equation) : Logged (List Equation × Option Reduction) := do
  match ← pair? 0 rows with
  | none => return (rows, none)
  | some (s, d) =>
    let (coefficient, row) ← combine s d
    let step : Reduction := ⟨s.index, d.index, coefficient⟩
    Logged.emit (.reduced step s.leader.name row)
    return (rows.set d.index row, some step)

end ExactLinear
