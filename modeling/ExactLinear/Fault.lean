/-! # Causes of a failed computation

Every operation that can fail names its cause here, and `Fault.message` is the one place that words
it. Division by zero is the only cause that a caller may recover from; each of the others ends the
run that met it.
-/

namespace ExactLinear

inductive Fault
  /-- A fraction other than zero was divided by zero. -/
  | divisionByZero
  /-- A part of a reduced fraction lies outside the 64-bit words. -/
  | overflow (value : Int)
  /-- An integer met on the way lies outside the words that hold it. -/
  | wordOverflow (value : Int)
  /-- A quotient to reduce has the denominator zero. -/
  | zeroDenominator
  /-- A coefficient would become zero. -/
  | zeroCoefficient
  /-- No coefficient to simplify is other than zero. -/
  | vanished
  /-- An equation that says that a fraction is zero was asked for its solution. -/
  | contradiction (numerator : Int) (denominator : Nat)
  /-- A side of an equation ended before a token other than an equals sign. -/
  | leftover
deriving DecidableEq, Repr

namespace Fault

def isFatal (f : Fault) : Bool := f ≠ divisionByZero

def message : Fault → String
  | divisionByZero => "Attempted to divide by zero"
  | overflow value => s!"Rational overflow: {value} doesn't fit in 64 bits"
  | wordOverflow value => s!"Integer overflow: {value} doesn't fit in its word"
  | zeroDenominator => "A denominator is zero"
  | zeroCoefficient => "A coefficient is zero"
  | vanished => "All coefficients are zero"
  | contradiction numerator denominator =>
    let size := numerator.natAbs
    let text := if denominator ≤ 1 then s!"{size}" else s!"{size}/{denominator}"
    s!"Internal invariant violated: \"{text} = 0\" is a contradiction and has no solution"
  | leftover => "A token is left over"

end Fault

section

variable {ε α β : Type} {x : Except ε α} {b : β}

theorem bind_eq_ok {f : α → Except ε β} : x >>= f = .ok b ↔ ∃ a, x = .ok a ∧ f a = .ok b := by
  cases x <;> simp [bind, Except.bind]

theorem bind_eq_error {f : α → Except ε β} {e : ε} :
    x >>= f = .error e ↔ x = .error e ∨ ∃ a, x = .ok a ∧ f a = .error e := by
  cases x <;> simp [bind, Except.bind]

@[simp] theorem ok_bind {a : α} {f : α → Except ε β} : (.ok a : Except ε α) >>= f = f a := rfl

@[simp] theorem map_ok {a : α} {f : α → β} : f <$> (.ok a : Except ε α) = .ok (f a) := rfl

theorem map_eq_ok {f : α → β} : f <$> x = .ok b ↔ ∃ a, x = .ok a ∧ f a = b := by
  cases x <;> simp [Functor.map, Except.map]

theorem map_eq_error {f : α → β} {e : ε} : f <$> x = .error e ↔ x = .error e := by
  cases x <;> simp [Functor.map, Except.map]

end
end ExactLinear
