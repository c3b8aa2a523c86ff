import ExactLinear.Text.Ranges

/-! # Blank characters

The blank characters are those with the Unicode property `White_Space`. Names lose the blanks at
their two ends, and equations lose all of them before they are read.
-/

namespace ExactLinear.Text

/-- The ranges of the property `White_Space`. -/
def blankRanges : List (Nat × Nat) :=
  [(0x9, 0xd), (0x20, 0x20), (0x85, 0x85), (0xa0, 0xa0), (0x1680, 0x1680), (0x2000, 0x200a),
    (0x2028, 0x2029), (0x202f, 0x202f), (0x205f, 0x205f), (0x3000, 0x3000)]

def isBlank (c : Char) : Bool := inRanges blankRanges c

def trimEnd (cs : List Char) : List Char := (cs.reverse.dropWhile isBlank).reverse

def trim (s : String) : String := .ofList (trimEnd (s.toList.dropWhile isBlank))

def removeBlanks (cs : List Char) : List Char := cs.filter fun c => !isBlank c

theorem dropWhile_idem (p : Char → Bool) (cs : List Char) :
    (cs.dropWhile p).dropWhile p = cs.dropWhile p := by
  induction cs with
  | nil => rfl
  | cons c cs ih => by_cases h : p c <;> simp [h, ih]

theorem trimEnd_idem (cs : List Char) : trimEnd (trimEnd cs) = trimEnd cs := by
  simp [trimEnd, dropWhile_idem]

theorem trimEnd_cons {c : Char} (h : isBlank c = false) (cs : List Char) :
    trimEnd (c :: cs) = c :: trimEnd cs := by
  have key : ∀ ds : List Char,
      (ds ++ [c]).dropWhile isBlank = ds.dropWhile isBlank ++ [c] := by
    intro ds
    induction ds with
    | nil => simp [h]
    | cons d ds ih => by_cases hd : isBlank d <;> simp [hd, ih]
  simp [trimEnd, key]

theorem dropWhile_trimEnd (cs : List Char) :
    (trimEnd (cs.dropWhile isBlank)).dropWhile isBlank = trimEnd (cs.dropWhile isBlank) := by
  induction cs with
  | nil => rfl
  | cons c cs ih =>
    by_cases h : isBlank c
    · simpa [h] using ih
    · rw [Bool.not_eq_true] at h
      simp [h, trimEnd_cons h]

theorem trim_trim (s : String) : trim (trim s) = trim s := by
  simp [trim, dropWhile_trimEnd, trimEnd_idem]

end ExactLinear.Text
