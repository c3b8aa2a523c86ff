import ExactLinear.Equation.Meaning
import ExactLinear.Equation.Reading

/-! # Grammar of equations

The written forms of an equation and what they mean, apart from how they are read. A form is a tree
with its characters; the language of equations is the characters of the forms that are well formed.
-/

namespace ExactLinear

inductive PartForm
  | number (digits : List Char)
  | numberName (digits name : List Char)
  | name (name : List Char)
  | nameNumber (name digits : List Char)

namespace PartForm

def digits? : PartForm → Option (List Char)
  | number ds => some ds
  | numberName ds _ => some ds
  | name _ => none
  | nameNumber _ ds => some ds

def name? : PartForm → Option (List Char)
  | number _ => none
  | numberName _ n => some n
  | name n => some n
  | nameNumber n _ => some n

def chars : PartForm → List Char
  | number ds => ds
  | numberName ds n => ds ++ n
  | name n => n
  | nameNumber n ds => n ++ ds

/-- The number, where a missing one counts as one. -/
def count (p : PartForm) : Nat := (p.digits?.map decimal).getD 1

/-- Numbers are runs of digits that fit a word, and names are runs of alphabetic characters. -/
def IsWellFormed (p : PartForm) : Prop :=
  (∀ ds ∈ p.digits?, ds ≠ [] ∧ (∀ c ∈ ds, c.isDigit) ∧ FitsWord (decimal ds)) ∧
    ∀ n ∈ p.name?, n ≠ [] ∧ ∀ c ∈ n, Text.isAlphabetic c

end PartForm

/-- A run of signs, and whether it negates. -/
def IsSigns (signs : List Char) : Prop := ∀ c ∈ signs, c = '+' ∨ c = '-'

def negates (signs : List Char) : Bool := signs.count '-' % 2 = 1

/-- Signs before a part, or before a fraction of two parts with signs before the lower one. -/
structure TermForm where
  signs : List Char
  upper : PartForm
  lower : Option (List Char × PartForm)

namespace TermForm

def chars (t : TermForm) : List Char :=
  t.signs ++ t.upper.chars ++
    match t.lower with
    | none => []
    | some (signs, p) => '/' :: signs ++ p.chars

/-- A fraction has one name at most, not below without a number, and is not divided by zero unless
it is zero by zero. -/
def IsLinear (upper lower : PartForm) : Prop :=
  (upper.name? = none ∨ lower.name? = none) ∧
    (lower.name? ≠ none → lower.digits? ≠ none) ∧ (lower.count = 0 → upper.count = 0)

def IsWellFormed (t : TermForm) : Prop :=
  IsSigns t.signs ∧ t.upper.IsWellFormed ∧
    ∀ q ∈ t.lower, IsSigns q.1 ∧ q.2.IsWellFormed ∧ IsLinear t.upper q.2

def name (t : TermForm) : Name :=
  let lower? := t.lower.bind fun q => q.2.name?
  .ofText (.ofList ((t.upper.name? <|> lower?).getD []))

def value (t : TermForm) : Rat :=
  let sign : Int := if negates t.signs then -1 else 1
  match t.lower with
  | none => sign * t.upper.count
  | some (signs, p) => sign * (if negates signs then -1 else 1) * t.upper.count / p.count

end TermForm

/-- Terms in a row, of which all but the first need a sign. -/
abbrev SideForm := List TermForm

namespace SideForm

def chars (s : SideForm) : List Char := s.flatMap TermForm.chars

def IsWellFormed (s : SideForm) : Prop :=
  (∀ t ∈ s, t.IsWellFormed) ∧ ∀ t ∈ s.tail, t.signs ≠ []

def coefficientOf (n : Name) : SideForm → Rat
  | [] => 0
  | t :: ts => (if t.name = n then t.value else 0) + coefficientOf n ts

end SideForm

structure EquationForm where
  left : SideForm
  right : Option SideForm

namespace EquationForm

def chars (e : EquationForm) : List Char :=
  e.left.chars ++
    match e.right with
    | none => []
    | some s => '=' :: s.chars

def IsWellFormed (e : EquationForm) : Prop :=
  e.left.IsWellFormed ∧ ∀ s ∈ e.right, s.IsWellFormed

/-- The coefficient of a name on the left less that on the right. -/
def coefficientOf (e : EquationForm) (n : Name) : Rat :=
  e.left.coefficientOf n - (e.right.map fun s => s.coefficientOf n).getD 0

end EquationForm
end ExactLinear
