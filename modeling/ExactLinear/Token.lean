import ExactLinear.Text.Alphabetic

/-! # Tokens

A text without blanks is cut into signs, digit runs and alphabetic runs, each as long as can be. The
tokens lie side by side from the start of the text to its end, or to the first character that starts
none. Positions are byte offsets.
-/

namespace ExactLinear

/-- A stretch of bytes from `start` up to `stop`. -/
structure Span where
  start : Nat
  stop : Nat
deriving DecidableEq, Repr

inductive TokenKind
  | number
  | name
  | plus
  | minus
  | slash
  | equals
deriving DecidableEq, Repr

namespace TokenKind

def ofChar? (c : Char) : Option TokenKind :=
  if c = '+' then some plus
  else if c = '-' then some minus
  else if c = '/' then some slash
  else if c = '=' then some equals
  else if c.isDigit then some number
  else if Text.isAlphabetic c then some name
  else none

/-- Numbers and names are runs of characters, the other tokens are single ones. -/
def isRun (k : TokenKind) : Bool := k = number || k = name

/-- The character goes on with a token of the kind. -/
def extendedBy (k : TokenKind) (c : Char) : Bool := k.isRun && ofChar? c = some k

end TokenKind

structure Token where
  kind : TokenKind
  text : List Char
  span : Span
deriving DecidableEq, Repr

namespace Token

def isSign (t : Token) : Bool := t.kind = .plus || t.kind = .minus

end Token

inductive TokenEnd
  /-- The text ends at this offset. -/
  | ofText (stop : Nat)
  /-- The character at this offset starts no token. -/
  | stray (character : Char) (index : Nat)
deriving DecidableEq, Repr

/-- The bytes that characters take in UTF-8. -/
def byteLength : List Char → Nat
  | [] => 0
  | c :: cs => c.utf8Size + byteLength cs

theorem length_dropWhile_le (p : Char → Bool) (cs : List Char) :
    (cs.dropWhile p).length ≤ cs.length :=
  (List.dropWhile_suffix p).sublist.length_le

/-- The tokens of a text that starts at the given offset. -/
def tokenize (start : Nat) : List Char → List Token × TokenEnd
  | [] => ([], .ofText start)
  | c :: cs =>
    match TokenKind.ofChar? c with
    | none => ([], .stray c start)
    | some k =>
      let text := c :: cs.takeWhile k.extendedBy
      let stop := start + byteLength text
      let (ts, last) := tokenize stop (cs.dropWhile k.extendedBy)
      (⟨k, text, ⟨start, stop⟩⟩ :: ts, last)
termination_by cs => cs.length
decreasing_by exact Nat.lt_succ_of_le (length_dropWhile_le _ _)

end ExactLinear
