import ExactLinear.Proofs.Fraction.Exact

/-! # Fractions of natural numbers

The quotient of two natural numbers with words is always stored, and so is its opposite: only the
numerator `-2^63` has none.
-/

namespace ExactLinear.Fraction

/-- The numerator is not `-2^63`, so that the opposite has a word too. -/
def HasOpposite (a : Fraction) : Prop := a.numerator ≠ -9223372036854775808

instance (a : Fraction) : Decidable a.HasOpposite := inferInstanceAs (Decidable (_ ≠ _))

theorem HasOpposite.natAbs_le {a : Fraction} (h : a.HasOpposite) :
    a.numerator.natAbs ≤ 9223372036854775807 := by
  have hw := a.fitsWord_numerator
  unfold FitsWord HasOpposite at *
  omega

theorem value_nonneg {a : Fraction} (h : 0 ≤ a.numerator) : 0 ≤ a.value := by
  rw [value_eq_div]
  exact div_nonneg (Int.cast_nonneg h) (Nat.cast_nonneg _)

theorem value_nonpos {a : Fraction} (h : a.numerator ≤ 0) : a.value ≤ 0 := by
  rw [value_eq_div]
  exact div_nonpos_of_nonpos_of_nonneg (Int.cast_nonpos.2 h) (Nat.cast_nonneg _)

theorem exists_neg {a : Fraction} (h : a.HasOpposite) :
    ∃ b, a.neg = .ok b ∧ b.value = -a.value ∧ b.HasOpposite := by
  have ha := a.fitsWord_numerator
  have hw : FitsWord (-a.numerator) := by
    unfold FitsWord HasOpposite at *
    omega
  have hn : a.neg = .ok ⟨-a.numerator, a.denominator, a.isStored.neg hw⟩ := by
    rw [neg, dif_pos hw]
  refine ⟨_, hn, value_neg hn, ?_⟩
  unfold FitsWord HasOpposite at *
  dsimp only
  omega

theorem exists_abs {a : Fraction} (h : a.HasOpposite) :
    ∃ b, a.abs = .ok b ∧ b.value = |a.value| ∧ b.HasOpposite := by
  rw [abs]
  split
  · next hneg =>
    rw [isNegative, decide_eq_true_iff] at hneg
    rw [abs_of_nonpos (value_nonpos hneg.le)]
    exact exists_neg h
  · next hneg =>
    rw [isNegative, decide_eq_true_iff, not_lt] at hneg
    rw [abs_of_nonneg (value_nonneg hneg)]
    exact ⟨a, rfl, rfl, h⟩

theorem parts_of_neg {a b : Fraction} (h : a.neg = .ok b) :
    b.numerator = -a.numerator ∧ b.denominator = a.denominator := by
  rw [neg] at h
  split at h
  · cases h; exact ⟨rfl, rfl⟩
  · cases h

theorem exists_ofRat {q : ℚ} (hn : FitsWord q.num) (hd : FitsWord q.den) :
    ∃ a, ofRat q = .ok a ∧ a.numerator = q.num := by
  by_cases h0 : q.num = 0
  · exact ⟨zero, by rw [ofRat, dif_pos h0], h0.symm⟩
  · exact ⟨⟨q.num, q.den, .inr ⟨h0, q.den_nz, q.reduced, hn, hd⟩⟩,
      by rw [ofRat, dif_neg h0, dif_pos hn, dif_pos hd], rfl⟩

theorem exists_ofRat_div {n d : ℕ} (hn : FitsWord n) (hd : FitsWord d) :
    ∃ a, ofRat (n / d) = .ok a ∧ a.value = n / d ∧ a.HasOpposite := by
  by_cases hq : (n / d : ℚ) = 0
  · rw [hq]
    exact ⟨zero, rfl, value_zero, by decide⟩
  · have hn0 : n ≠ 0 := by
      rintro rfl
      simp at hq
    have hd0 : d ≠ 0 := by
      rintro rfl
      simp at hq
    -- Reducing makes neither part larger.
    have hnum := Int.le_of_dvd (by omega) (Rat.num_dvd n (b := d) (by omega))
    have hden := Int.le_of_dvd (by omega) (Rat.den_dvd n d)
    rw [Rat.divInt_eq_div, Int.cast_natCast, Int.cast_natCast] at hnum hden
    have hpos : 0 ≤ (n / d : ℚ).num := Rat.num_nonneg.2 (by positivity)
    obtain ⟨a, ha, hv⟩ := exists_ofRat (q := n / d) (by unfold FitsWord at *; omega)
      (by unfold FitsWord at *; omega)
    refine ⟨a, ha, value_of_ofRat ha, ?_⟩
    unfold HasOpposite
    omega

theorem exists_ofInt {n : ℕ} (hn : FitsWord n) :
    ∃ a, ofInt n = .ok a ∧ a.value = n ∧ a.HasOpposite := by
  rw [ofInt_eq_ofRat]
  simpa using exists_ofRat_div hn (d := 1) (by decide)

/-- A quotient of natural numbers is stored, unless it is a division by zero. -/
theorem exists_ofParts {n d : ℕ} (hn : FitsWord n) (hd : FitsWord d) (h0 : d = 0 → n = 0) :
    ∃ a, ofParts n d = .ok a ∧ a.value = n / d ∧ a.HasOpposite := by
  by_cases hz : d = 0
  · rw [hz, h0 hz]
    exact ⟨zero, rfl, by simp, by decide⟩
  · rw [ofParts_eq_ofRat hn hd (by exact_mod_cast hz)]
    exact exists_ofRat_div hn hd

theorem ofParts_zero {n : ℕ} (hn : n ≠ 0) : ofParts n (0 : ℕ) = .error .divisionByZero := by
  simp [ofParts, hn]

end ExactLinear.Fraction
