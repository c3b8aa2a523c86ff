import ExactLinear.Equation.Arithmetic

/-! # Multiplying through in place

Multiplied through in place, an equation changes coefficient by coefficient. What was changed before
a fault stays changed, so only a fault that comes before the first product leaves it as it was.
-/

namespace ExactLinear.Equation

/-- Multiplies one coefficient after the other, up to the first that has no product to keep. -/
def multiplyTerms (x : Fraction) : List Term → List Term × Except Fault Unit
  | [] => ([], .ok ())
  | t :: ts =>
    match t.multiply x with
    | .error f => (t :: ts, .error f)
    | .ok u =>
      let (us, result) := multiplyTerms x ts
      (u :: us, result)

def multiplyInPlace (e : Equation) (x : Fraction) : Equation × Except Fault Unit :=
  let (ts, result) := multiplyTerms x e.terms
  ({ e with terms := ts }, result)

def scaleInPlace (e : Equation) (x : Fraction) : Equation × Except Fault Unit :=
  if x.isZero then (e, .error .divisionByZero) else e.multiplyInPlace x

def unscaleInPlace (e : Equation) (x : Fraction) : Equation × Except Fault Unit :=
  match x.recip? with
  | .error f => (e, .error f)
  | .ok none => (e, .error .divisionByZero)
  | .ok (some r) => e.multiplyInPlace r

end ExactLinear.Equation
