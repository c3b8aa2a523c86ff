import ExactLinear.Text.Blank

/-! # Names of variables

A name has no blanks at its ends. The name with no characters is blank: it marks the constant of an
equation, and it is the name that a text of blanks alone denotes.
-/

namespace ExactLinear

/-- A name without blanks at its ends. -/
structure Name where
  text : String
  isTrimmed : Text.trim text = text
deriving DecidableEq

namespace Name

def ofText (s : String) : Name := ⟨Text.trim s, Text.trim_trim s⟩

/-- The name of the constant. -/
def blank : Name := ⟨"", by decide⟩

instance : Inhabited Name := ⟨blank⟩

def isBlank (n : Name) : Bool := n.text = ""

/-- Names are ordered by code points. -/
def compare (a b : Name) : Ordering := Ord.compare a.text b.text

instance : Ord Name := ⟨compare⟩

@[simp] theorem ofText_text (n : Name) : ofText n.text = n := by
  cases n with
  | mk text isTrimmed => simp [ofText, isTrimmed]

end Name
end ExactLinear
