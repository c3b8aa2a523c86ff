import ExactLinear.Fault

/-! # Signed machine words

Fractions keep their parts in 64-bit words and are computed in 128-bit ones. A word is an integer
within bounds: what does not fit is a fault, never a wrapped value.
-/

namespace ExactLinear

def FitsWord (n : Int) : Prop := -9223372036854775808 ≤ n ∧ n ≤ 9223372036854775807

def FitsWideWord (n : Int) : Prop :=
  -170141183460469231731687303715884105728 ≤ n ∧ n ≤ 170141183460469231731687303715884105727

instance (n : Int) : Decidable (FitsWord n) := inferInstanceAs (Decidable (_ ∧ _))
instance (n : Int) : Decidable (FitsWideWord n) := inferInstanceAs (Decidable (_ ∧ _))

/-- An intermediate integer in a 64-bit word. -/
def word (n : Int) : Except Fault Int := if FitsWord n then .ok n else .error (.wordOverflow n)

/-- An intermediate integer in a 128-bit word. -/
def wideWord (n : Int) : Except Fault Int :=
  if FitsWideWord n then .ok n else .error (.wordOverflow n)

theorem of_wideWord_bind {β : Type} {n : Int} {f : Int → Except Fault β} {b : β}
    (h : wideWord n >>= f = .ok b) : f n = .ok b := by
  rw [wideWord] at h
  split at h
  · exact h
  · cases h

end ExactLinear
