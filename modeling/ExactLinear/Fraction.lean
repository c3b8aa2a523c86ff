import ExactLinear.Word

/-! # Exact fractions in machine words

A fraction is in lowest terms with its sign in the numerator, and both parts fit 64-bit words. Zero
is stored as `0/0`. Sums and products are formed in 128-bit words and then reduced, so only a result
whose reduced parts do not fit is an overflow; it names the numerator before the denominator.
-/

namespace ExactLinear

namespace Fraction

/-- The stored form of a fraction: lowest terms in 64-bit words, and `0/0` for zero. -/
def IsStored (n : Int) (d : Nat) : Prop :=
  n = 0 ∧ d = 0 ∨ n ≠ 0 ∧ d ≠ 0 ∧ n.natAbs.Coprime d ∧ FitsWord n ∧ FitsWord d

/-- The quotient of the two is other than zero and in lowest terms. -/
structure IsLowest (n d : Int) : Prop where
  ne_zero : n ≠ 0
  pos : 0 < d
  gcd_eq_one : Int.gcd n d = 1

theorem IsLowest.isStored {n d : Int} (h : IsLowest n d) (hn : FitsWord n) (hd : FitsWord d) :
    IsStored n d.toNat := by
  have hpos := h.pos
  have hone := h.gcd_eq_one
  have habs : d.natAbs = d.toNat := by omega
  have hcast : (d.toNat : Int) = d := Int.toNat_of_nonneg (by omega)
  rw [Int.gcd_eq_natAbs_gcd_natAbs, habs] at hone
  exact .inr ⟨h.ne_zero, by omega, hone, hn, hcast.symm ▸ hd⟩

end Fraction

structure Fraction where
  numerator : Int
  denominator : Nat
  isStored : Fraction.IsStored numerator denominator
deriving DecidableEq

namespace Fraction

def zero : Fraction := ⟨0, 0, .inl ⟨rfl, rfl⟩⟩

def one : Fraction := ⟨1, 1, .inr (by decide)⟩

instance : Inhabited Fraction := ⟨zero⟩

/-- The rational number that a fraction stands for. -/
def value (a : Fraction) : Rat := mkRat a.numerator a.denominator

/-- A whole number, over one unless it is zero. -/
def ofInt (n : Int) : Except Fault Fraction :=
  if h0 : n = 0 then .ok zero
  else if hn : FitsWord n then
    .ok ⟨n, 1, .inr ⟨h0, Nat.one_ne_zero, Nat.coprime_one_right _, hn, by decide⟩⟩
  else .error (.overflow n)

/-- Both numbers over their common divisor, with the sign in the first. -/
def lowestParts (n d : Int) : Except Fault (Int × Int) := do
  let g ← wideWord (Int.gcd n d)
  let p ← wideWord (n / g)
  let q ← wideWord (d / g)
  if q < 0 then return (← wideWord (-p), ← wideWord (-q))
  return (p, q)

theorem eq_of_lowestParts {n d p q : Int} (h : lowestParts n d = .ok (p, q)) :
    0 ≤ d / Int.gcd n d ∧ p = n / Int.gcd n d ∧ q = d / Int.gcd n d ∨
      d / Int.gcd n d < 0 ∧ p = -(n / Int.gcd n d) ∧ q = -(d / Int.gcd n d) := by
  have hquot := of_wideWord_bind (of_wideWord_bind (of_wideWord_bind h))
  split at hquot
  · next hneg =>
    have hflip := of_wideWord_bind (of_wideWord_bind hquot)
    cases hflip
    exact .inr ⟨hneg, rfl, rfl⟩
  · next hneg =>
    cases hquot
    exact .inl ⟨Int.not_lt.1 hneg, rfl, rfl⟩

theorem isLowest_of_lowestParts {n d p q : Int} (hn : n ≠ 0) (hd : d ≠ 0)
    (h : lowestParts n d = .ok (p, q)) : IsLowest p q := by
  have hone := Int.gcd_ediv_gcd_ediv_gcd (Int.gcd_pos_of_ne_zero_left d hn)
  have hn0 : n / Int.gcd n d ≠ 0 := by
    intro h0
    exact hn (Int.eq_zero_of_ediv_eq_zero (Int.gcd_dvd_left n d) h0)
  have hd0 : d / Int.gcd n d ≠ 0 := by
    intro h0
    exact hd (Int.eq_zero_of_ediv_eq_zero (Int.gcd_dvd_right n d) h0)
  rcases eq_of_lowestParts h with ⟨hq, rfl, rfl⟩ | ⟨hq, rfl, rfl⟩
  · exact ⟨hn0, by omega, hone⟩
  · refine ⟨by omega, by omega, ?_⟩
    rw [Int.neg_gcd, Int.gcd_neg, hone]

/-- Lowest terms in 64-bit words. The numerator is narrowed before the denominator. -/
def narrow (n d : Int) (h : IsLowest n d) : Except Fault Fraction :=
  if hn : FitsWord n then
    if hd : FitsWord d then .ok ⟨n, d.toNat, h.isStored hn hd⟩ else .error (.overflow d)
  else .error (.overflow n)

/-- The quotient `n/d` as it is stored. -/
def reduce (n d : Int) : Except Fault Fraction :=
  if hd : d = 0 then .error .zeroDenominator
  else if hn : n = 0 then .ok zero
  else
    match h : lowestParts n d with
    | .error f => .error f
    | .ok (p, q) => narrow p q (isLowest_of_lowestParts hn hd h)

/-- The quotient of two words, where `0/0` is zero. -/
def ofParts (n d : Int) : Except Fault Fraction :=
  if d ≠ 0 then reduce n d else if n = 0 then .ok zero else .error .divisionByZero

def isZero (a : Fraction) : Bool := a.denominator = 0

def isPositive (a : Fraction) : Bool := 0 < a.numerator

def isNegative (a : Fraction) : Bool := a.numerator < 0

/-- Whole numbers have the denominator one, and zero counts. -/
def isInteger (a : Fraction) : Bool := a.denominator ≤ 1

theorem IsStored.neg {n : Int} {d : Nat} (h : IsStored n d) (hn : FitsWord (-n)) :
    IsStored (-n) d := by
  rcases h with ⟨rfl, hd⟩ | ⟨h0, hd, hc, _, hw⟩
  · exact .inl ⟨rfl, hd⟩
  · exact .inr ⟨by omega, hd, by rwa [Int.natAbs_neg], hn, hw⟩

/-- The opposite, which has no word for the numerator `-2^63`. -/
def neg (a : Fraction) : Except Fault Fraction :=
  if h : FitsWord (-a.numerator) then .ok ⟨-a.numerator, a.denominator, a.isStored.neg h⟩
  else .error (.overflow (-a.numerator))

def abs (a : Fraction) : Except Fault Fraction := if a.isNegative then a.neg else .ok a

def add (a b : Fraction) : Except Fault Fraction :=
  if a.isZero then .ok b
  else if b.isZero then .ok a
  else do
    let left ← wideWord (a.numerator * b.denominator)
    let right ← wideWord (b.numerator * a.denominator)
    reduce (← wideWord (left + right)) (← wideWord (a.denominator * b.denominator))

/-- A difference is a sum with the opposite, which has to fit by itself. -/
def sub (a b : Fraction) : Except Fault Fraction := do a.add (← b.neg)

def mul (a b : Fraction) : Except Fault Fraction :=
  if a.isZero || b.isZero then .ok zero
  else do
    reduce (← wideWord (a.numerator * b.numerator)) (← wideWord (a.denominator * b.denominator))

def recip? (a : Fraction) : Except Fault (Option Fraction) :=
  if a.isZero then .ok none else some <$> reduce a.denominator a.numerator

/-- The quotient by way of the reciprocal, where zero by zero is zero. -/
def div (a b : Fraction) : Except Fault Fraction := do
  match ← b.recip? with
  | some r => a.mul r
  | none => if a.isZero then return zero else throw .divisionByZero

/-- The nearest floating-point number to the quotient of the rounded parts. -/
def toFloat (a : Fraction) : Float :=
  if a.isZero then 0 else (Int64.ofInt a.numerator).toFloat / (Int64.ofNat a.denominator).toFloat

def text (a : Fraction) : String :=
  if a.isZero then "0"
  else if a.denominator = 1 then toString a.numerator
  else s!"{a.numerator}/{a.denominator}"

instance : ToString Fraction := ⟨text⟩

end Fraction
end ExactLinear
