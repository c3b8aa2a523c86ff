import ExactLinear.Equation

/-! # Arithmetic of equations

Terms are merged by name, equations are multiplied through, simplified by one positive factor, and
rid of a variable whose value is known.
-/

namespace ExactLinear.Equation

/-- Adds a term to the one of the same name, which goes if they cancel. Nothing if there is none. -/
def merge? (t : Term) : List Term → Except Fault (Option (List Term))
  | [] => return none
  | u :: us =>
    if u.name = t.name then do
      let sum ← u.coefficient.add t.coefficient
      return some (if sum.isZero then us else u.withCoefficient sum :: us)
    else do
      return (← merge? t us).map (u :: ·)

/-- Adds a term. A new name takes its place in the order; a merged term keeps the place it has. -/
def addTerm (e : Equation) (t : Term) : Except Fault Equation :=
  if t.coefficient.isZero then return e
  else do
    match ← merge? t e.terms with
    | some ts => return { e with terms := ts }
    | none => return { e with terms := e.policy.sort (e.terms ++ [t]) }

def addTerms (e : Equation) (ts : List Term) : Except Fault Equation := ts.foldlM addTerm e

def ofTerms (ts : List Term) : Except Fault Equation := addTerms {} ts

def multiply (e : Equation) (x : Fraction) : Except Fault Equation := do
  return { e with terms := ← e.terms.mapM (·.multiply x) }

def scale (e : Equation) (x : Fraction) : Except Fault Equation :=
  if x.isZero then throw .divisionByZero else e.multiply x

def unscale (e : Equation) (x : Fraction) : Except Fault Equation := do
  match ← x.recip? with
  | some r => e.multiply r
  | none => throw .divisionByZero

/-- The greatest common divisor of words, as far as it has a word itself. -/
def gcdOf (ns : List Int) : Except Fault Int := ns.foldlM (fun g n => word (Int.gcd g n)) 0

/-- Divides by the common divisor of the numerators and multiplies by that of the denominators. -/
def simplify (e : Equation) : Except Fault Equation :=
  if e.terms.isEmpty then return e
  else do
    let n ← gcdOf (e.terms.map fun t => t.coefficient.numerator)
    let d ← gcdOf (e.terms.map fun t => t.coefficient.denominator)
    match Fraction.ofParts d n with
    | .ok x => if x = .one then return e else e.multiply x
    | .error .divisionByZero => throw .vanished
    | .error f => throw f

def takeOut? (n : Name) : List Term → Option (Term × List Term)
  | [] => none
  | t :: ts => if t.name = n then some (t, ts) else (takeOut? n ts).map fun p => (p.1, t :: p.2)

/-- Puts a value in the place of a name. Nothing if the name does not occur. -/
def substitute? (e : Equation) (n : Name) (x : Fraction) : Except Fault (Option Equation) :=
  match takeOut? n e.terms with
  | none => return none
  | some (t, ts) => do
    let rest ← { e with terms := ts }.addTerm (.constant (← t.coefficient.mul x))
    return some (← rest.simplify)

end ExactLinear.Equation
