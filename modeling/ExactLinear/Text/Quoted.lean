import ExactLinear.Text.Hidden

/-! # Quoted text

A quoted text stands between double quotes. Quotes and backslashes are escaped, the common controls
have a letter each, and any other hidden character is written by its code point in hexadecimal.
-/

namespace ExactLinear.Text

/-- One character inside quotes. -/
def quotedChar (c : Char) : List Char :=
  if c = '"' ∨ c = '\\' then ['\\', c]
  else if c = '\x00' then ['\\', '0']
  else if c = '\t' then ['\\', 't']
  else if c = '\n' then ['\\', 'n']
  else if c = '\r' then ['\\', 'r']
  else if isHidden c then ['\\', 'u', '\x7b'] ++ Nat.toDigits 16 c.toNat ++ ['\x7d']
  else [c]

def quoted (s : String) : String := .ofList ('"' :: s.toList.flatMap quotedChar ++ ['"'])

end ExactLinear.Text
