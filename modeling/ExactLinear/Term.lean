import ExactLinear.Fraction.Order
import ExactLinear.Name

/-! # Terms

A term is a coefficient times a variable, or a constant when its name is blank. The natural order
goes by name and then by coefficient.
-/

namespace ExactLinear

structure Term where
  coefficient : Fraction
  name : Name
deriving DecidableEq, Inhabited

namespace Term

def constant (x : Fraction) : Term := ⟨x, .blank⟩

def isConstant (t : Term) : Bool := t.name.isBlank

def isPositive (t : Term) : Bool := t.coefficient.isPositive

def withCoefficient (t : Term) (x : Fraction) : Term := ⟨x, t.name⟩

def neg (t : Term) : Except Fault Term := t.withCoefficient <$> t.coefficient.neg

def scale (t : Term) (x : Fraction) : Except Fault Term :=
  t.withCoefficient <$> t.coefficient.mul x

/-- The product is a term of an equation, where no coefficient may become zero. -/
def multiply (t : Term) (x : Fraction) : Except Fault Term := do
  let u ← t.scale x
  if u.coefficient.isZero then throw .zeroCoefficient else return u

theorem multiply_eq_ok {t u : Term} {x : Fraction} : t.multiply x = .ok u ↔
    ∃ y, t.coefficient.mul x = .ok y ∧ y.isZero = false ∧ u = t.withCoefficient y := by
  constructor
  · intro h
    obtain ⟨w, hw, h⟩ := bind_eq_ok.1 h
    obtain ⟨y, hy, rfl⟩ := map_eq_ok.1 hw
    split at h
    · cases h
    · next hz =>
      cases h
      exact ⟨y, hy, Bool.eq_false_iff.2 hz, rfl⟩
  · rintro ⟨y, hy, hz, rfl⟩
    have hz' : (t.withCoefficient y).coefficient.isZero = false := hz
    rw [multiply, scale, hy, map_ok, ok_bind, hz']
    rfl

def compare (a b : Term) : Ordering :=
  (a.name.compare b.name).then (a.coefficient.compare b.coefficient)

instance : Ord Term := ⟨compare⟩

/-- A coefficient of one or minus one is not written before a name. -/
def text (t : Term) : String :=
  if t.isConstant then t.coefficient.text
  else if t.coefficient.denominator = 1 ∧ t.coefficient.numerator = 1 then t.name.text
  else if t.coefficient.denominator = 1 ∧ t.coefficient.numerator = -1 then "-" ++ t.name.text
  else s!"{t.coefficient.text} {t.name.text}"

def tailText (t : Term) : Except Fault String :=
  if t.isPositive then return " + " ++ t.text else return " - " ++ (← t.neg).text

/-- A sum: the first term as it is, and every later one after its sign. -/
def sumText : List Term → Except Fault String
  | [] => return ""
  | t :: ts => return t.text ++ String.join (← ts.mapM tailText)

end Term
end ExactLinear
