import ExactLinear.Fraction

/-! # Order of fractions

Fractions are ordered by value. `compareInWords` is the comparison over the least common denominator
in 128-bit words; `compare` is the same order by cross-multiplication, with no bound to respect.
-/

namespace ExactLinear.Fraction

/-- The denominator, with one for zero. -/
def scale (a : Fraction) : Nat := if a.isZero then 1 else a.denominator

def compare (a b : Fraction) : Ordering :=
  Ord.compare (a.numerator * b.scale) (b.numerator * a.scale)

/-- Comparison over the least common denominator, in 128-bit words. -/
def compareInWords (a b : Fraction) : Except Fault Ordering := do
  let g ← wideWord (Int.gcd a.scale b.scale)
  let common ← wideWord (a.scale * (b.scale / g))
  let left ← wideWord (a.numerator * (common / a.scale))
  let right ← wideWord (b.numerator * (common / b.scale))
  return Ord.compare left right

instance : Ord Fraction := ⟨compare⟩
instance : LT Fraction := ltOfOrd
instance : LE Fraction := leOfOrd
instance : Max Fraction := maxOfLe
instance : Min Fraction := minOfLe

end ExactLinear.Fraction
