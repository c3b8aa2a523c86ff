import ExactLinear.Text.Blank
import ExactLinear.Token
import Mathlib.Tactic

/-! # Disjoint classes of characters

Classes of characters are disjoint if their ranges are. No character of a name is blank or a mark,
so names end at the marks and at the digits, and the blanks in a text are those between its tokens.
-/

namespace ExactLinear
namespace Text

/-- No range of the one list meets a range of the other. -/
def areDisjoint (rs qs : List (ℕ × ℕ)) : Bool :=
  rs.all fun r => qs.all fun q => r.2 < q.1 || q.2 < r.1

theorem inRanges_eq_false {rs qs : List (ℕ × ℕ)} (h : areDisjoint rs qs) {c : Char}
    (hc : inRanges rs c) : inRanges qs c = false := by
  rw [Bool.eq_false_iff]
  intro hq
  simp only [inRanges, List.any_eq_true, Bool.and_eq_true, decide_eq_true_eq] at hc hq
  obtain ⟨r, hr, hrc⟩ := hc
  obtain ⟨q, hq, hqc⟩ := hq
  simp only [areDisjoint, List.all_eq_true, Bool.or_eq_true, decide_eq_true_eq] at h
  have := h r hr q hq
  omega

def alphabeticRanges : List (ℕ × ℕ) :=
  asciiAlphabetic ++ (scriptAlphabetic ++ (upperAlphabetic ++ supplementaryAlphabetic))

theorem isAlphabetic_eq_inRanges (c : Char) : isAlphabetic c = inRanges alphabeticRanges c := by
  simp only [isAlphabetic, alphabeticRanges, inRanges, List.any_append, Bool.or_assoc]

/-- The signs, the slash with the digits after it, and the equals sign. -/
def markRanges : List (ℕ × ℕ) := [(0x2b, 0x2b), (0x2d, 0x2d), (0x2f, 0x39), (0x3d, 0x3d)]

def isMark (c : Char) : Bool := inRanges markRanges c

theorem isMark_of_isDigit {c : Char} (h : c.isDigit) : isMark c := by
  simp only [Char.isDigit, Bool.and_eq_true, decide_eq_true_eq, ge_iff_le,
    UInt32.le_iff_toNat_le] at h
  change 48 ≤ c.toNat ∧ c.toNat ≤ 57 at h
  simp [isMark, inRanges, markRanges]
  omega

theorem isBlank_of_isAlphabetic {c : Char} (h : isAlphabetic c) : isBlank c = false :=
  inRanges_eq_false (by decide +kernel) (isAlphabetic_eq_inRanges c ▸ h)

theorem isMark_of_isAlphabetic {c : Char} (h : isAlphabetic c) : isMark c = false :=
  inRanges_eq_false (by decide +kernel) (isAlphabetic_eq_inRanges c ▸ h)

theorem isBlank_of_isMark {c : Char} (h : isMark c) : isBlank c = false :=
  inRanges_eq_false (by decide) h

end Text

namespace TokenKind

open Text

/-- A class without the single marks leaves the runs only. -/
theorem ofChar?_of_not_single {p : Char → Bool} (hp : ['+', '-', '/', '='].all fun m => !p m)
    {c : Char} (h : p c) : ofChar? c =
      if c.isDigit then some number else if isAlphabetic c then some name else none := by
  have hne : ∀ m ∈ ['+', '-', '/', '='], c ≠ m := by
    rintro m hm rfl
    simpa [h] using List.all_eq_true.1 hp c hm
  simp [ofChar?, hne]

theorem ofChar?_eq_number {c : Char} : ofChar? c = some number ↔ c.isDigit := by
  constructor
  · grind [ofChar?]
  · intro h
    rw [ofChar?_of_not_single (p := Char.isDigit) rfl h, if_pos h]

theorem ofChar?_eq_name {c : Char} : ofChar? c = some name ↔ isAlphabetic c := by
  constructor
  · grind [ofChar?]
  · intro h
    have hm := isMark_of_isAlphabetic h
    have hd : ¬c.isDigit := fun hd => by simp [isMark_of_isDigit hd] at hm
    rw [ofChar?_of_not_single (p := fun c => !isMark c) rfl (by simp [hm]), if_neg hd,
      if_pos h]

end TokenKind
end ExactLinear
