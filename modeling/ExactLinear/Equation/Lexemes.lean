import ExactLinear.Equation.Grammar

/-! # Lexemes

A lexeme is a token apart from its place. A text splits into lexemes from left to right, each as
long as can be, and the written forms of an equation are rows of lexemes.
-/

namespace ExactLinear

def TokenKind.Matches : TokenKind → List Char → Prop
  | number, cs => cs ≠ [] ∧ ∀ c ∈ cs, c.isDigit
  | name, cs => cs ≠ [] ∧ ∀ c ∈ cs, Text.isAlphabetic c
  | plus, cs => cs = ['+']
  | minus, cs => cs = ['-']
  | slash, cs => cs = ['/']
  | equals, cs => cs = ['=']

structure Lexeme where
  kind : TokenKind
  text : List Char
deriving DecidableEq, Repr

namespace Lexeme

def IsValid (l : Lexeme) : Prop := l.kind.Matches l.text

def sign (c : Char) : Lexeme := ⟨if c = '-' then .minus else .plus, [c]⟩

def slash : Lexeme := ⟨.slash, ['/']⟩

def equals : Lexeme := ⟨.equals, ['=']⟩

end Lexeme

def Token.lexeme (t : Token) : Lexeme := ⟨t.kind, t.text⟩

/-- A text splits into lexemes and a rest, where no lexeme is shorter than any other that starts
where it does. -/
inductive Splits : List Char → List Lexeme → List Char → Prop
  | done {cs : List Char} : Splits cs [] cs
  | next {l : Lexeme} {cs rest : List Char} {ls : List Lexeme} (valid : l.IsValid)
      (longest : ∀ m : Lexeme, m.IsValid → m.text <+: l.text ++ cs →
        m.text.length ≤ l.text.length) (split : Splits cs ls rest) :
    Splits (l.text ++ cs) (l :: ls) rest

/-- A sign, an equals sign or nothing comes next, so that a term ends here. -/
def EndsTerm (cs : List Char) : Prop := ∀ c ∈ cs.head?, c = '+' ∨ c = '-' ∨ c = '='

def PartForm.lexemes : PartForm → List Lexeme
  | number ds => [⟨.number, ds⟩]
  | numberName ds n => [⟨.number, ds⟩, ⟨.name, n⟩]
  | name n => [⟨.name, n⟩]
  | nameNumber n ds => [⟨.name, n⟩, ⟨.number, ds⟩]

def TermForm.lexemes (t : TermForm) : List Lexeme :=
  t.signs.map .sign ++ t.upper.lexemes ++
    match t.lower with
    | none => []
    | some (signs, p) => .slash :: signs.map .sign ++ p.lexemes

def SideForm.lexemes (s : SideForm) : List Lexeme := s.flatMap TermForm.lexemes

def EquationForm.lexemes (e : EquationForm) : List Lexeme :=
  e.left.lexemes ++
    match e.right with
    | none => []
    | some s => .equals :: s.lexemes

end ExactLinear
