import ExactLinear.Proofs.Fraction.Words

/-! # Results of the arithmetic

Sums, products, opposites, reciprocals and quotients of words are the exact rational numbers in
their one stored form. They fail only where a part of the result in lowest terms has no word, and
the fault names that part: no integer on the way leaves its 128-bit word.
-/

namespace ExactLinear.Fraction

/-- The computation gives the number if both its parts in lowest terms have words. Otherwise it
names the numerator, or the denominator if the numerator has a word, and nothing else stops it. -/
structure Yields (x : Except Fault Fraction) (q : ℚ) : Prop where
  ok_iff : ∀ a, x = .ok a ↔ a.value = q
  parts : ∀ a, x = .ok a → a.numerator = q.num ∧ a.denominator = if q = 0 then 0 else q.den
  exists_ok_iff : (∃ a, x = .ok a) ↔ FitsWord q.num ∧ FitsWord q.den
  error_iff : ∀ f, x = .error f ↔ ¬FitsWord q.num ∧ f = .overflow q.num ∨
    FitsWord q.num ∧ ¬FitsWord q.den ∧ f = .overflow q.den

theorem parts_eq (a : Fraction) :
    a.numerator = a.value.num ∧ a.denominator = if a.value = 0 then 0 else a.value.den := by
  by_cases hz : a = zero
  · rw [hz, value_zero, if_pos rfl]
    exact ⟨rfl, rfl⟩
  · obtain ⟨_, _, hn, hd⟩ := stored_of_ne_zero hz
    rw [if_neg (value_ne_zero hz), hn, hd]
    exact ⟨rfl, rfl⟩

theorem fitsWord_value (a : Fraction) : FitsWord a.value.num ∧ FitsWord a.value.den := by
  by_cases hz : a = zero
  · rw [hz, value_zero]
    decide
  · obtain ⟨_, _, hn, hd⟩ := stored_of_ne_zero hz
    rw [hn, hd]
    exact ⟨a.fitsWord_numerator, a.fitsWord_denominator⟩

theorem parts_eq_iff {a b : Fraction} :
    a.numerator = b.numerator ∧ a.denominator = b.denominator ↔ a.value = b.value := by
  constructor
  · rintro ⟨hn, hd⟩
    rw [value_eq_div, value_eq_div, hn, hd]
  · intro h
    rw [value_injective h]
    exact ⟨rfl, rfl⟩

theorem ofRat_eq_error_iff {q : ℚ} {f : Fault} : ofRat q = .error f ↔
    ¬FitsWord q.num ∧ f = .overflow q.num ∨
      FitsWord q.num ∧ ¬FitsWord q.den ∧ f = .overflow q.den := by
  by_cases hn : FitsWord q.num
  · by_cases hd : FitsWord q.den
    · obtain ⟨a, ha, _⟩ := exists_ofRat hn hd
      simp [ha, hn, hd]
    · have h0 : q.num ≠ 0 := by
        intro h0
        rw [Rat.num_eq_zero.1 h0] at hd
        exact hd (by decide)
      rw [ofRat, dif_neg h0, dif_pos hn, dif_neg hd, Except.error.injEq]
      simp [hn, hd, eq_comm]
  · rw [ofRat_eq_overflow hn, Except.error.injEq]
    simp [hn, eq_comm]

theorem yields_ofRat (q : ℚ) : Yields (ofRat q) q where
  ok_iff _ := ofRat_eq_ok_iff
  parts a h := by
    rw [← value_of_ofRat h]
    exact a.parts_eq
  exists_ok_iff := by
    constructor
    · rintro ⟨a, ha⟩
      rw [← value_of_ofRat ha]
      exact a.fitsWord_value
    · rintro ⟨hn, hd⟩
      obtain ⟨a, ha, _⟩ := exists_ofRat hn hd
      exact ⟨a, ha⟩
  error_iff _ := ofRat_eq_error_iff

/-- Quotients of words, sums, products, opposites and reciprocals are exact, and fail only where the
result has a part without a word. Fractions are equal exactly if their values are. -/
theorem yields_value :
    (∀ n d : ℤ, FitsWord n → FitsWord d → d ≠ 0 → Yields (ofParts n d) (n / d)) ∧
      (∀ a b : Fraction, Yields (a.add b) (a.value + b.value)) ∧
      (∀ a b : Fraction, Yields (a.mul b) (a.value * b.value)) ∧
      (∀ a : Fraction, Yields a.neg (-a.value)) ∧
      (∀ a : Fraction, a ≠ zero → ∃ x, a.recip? = some <$> x ∧ Yields x a.value⁻¹) ∧
      ∀ a b : Fraction,
        a.numerator = b.numerator ∧ a.denominator = b.denominator ↔ a.value = b.value := by
  refine ⟨fun n d hn hd h0 => ?_, fun a b => ?_, fun a b => ?_, fun a => ?_, fun a ha => ?_,
    fun a b => parts_eq_iff⟩
  · rw [ofParts_eq_ofRat hn hd h0]
    exact yields_ofRat _
  · rw [add_eq_ofRat]
    exact yields_ofRat _
  · rw [mul_eq_ofRat]
    exact yields_ofRat _
  · rw [neg_eq_ofRat]
    exact yields_ofRat _
  · exact ⟨_, recip?_eq_ofRat ha, yields_ofRat _⟩

def smallest : Fraction := ⟨-9223372036854775808, 1, .inr (by decide)⟩

theorem value_smallest : smallest.value = (-9223372036854775808 : ℤ) := by
  rw [value_eq_div]
  norm_num [smallest]

/-- The smallest word by itself is one. It has neither a quotient by minus one nor a reciprocal. -/
theorem yields_value_smallest :
    FitsWord (-9223372036854775808) ∧ FitsWord (-1) ∧ smallest ≠ zero ∧
      ofParts (-9223372036854775808) (-9223372036854775808) = .ok one ∧
        ofParts (-9223372036854775808) (-1) = .error (.overflow 9223372036854775808) ∧
          smallest.recip? = .error (.overflow 9223372036854775808) := by
  have hm : FitsWord (-9223372036854775808) := by decide
  have h1 : FitsWord (-1) := by decide
  have h0 : smallest ≠ zero := by decide
  obtain ⟨hquot, _, _, _, hrecip, _⟩ := yields_value
  refine ⟨hm, h1, h0, ?_, ?_, ?_⟩
  · exact ((hquot _ _ hm hm (by decide)).ok_iff one).2 (by norm_num)
  · have hq : ((-9223372036854775808 : ℤ) / (-1 : ℤ) : ℚ) = (9223372036854775808 : ℤ) := by norm_num
    refine ((hquot _ _ hm h1 (by decide)).error_iff _).2 (.inl ?_)
    rw [hq, Rat.num_intCast]
    exact ⟨by decide, rfl⟩
  · obtain ⟨x, hx, hy⟩ := hrecip smallest h0
    -- the reciprocal is the opposite of one part in `2^63`
    have herror := (hy.error_iff (.overflow 9223372036854775808)).2 (.inr (by
      rw [value_smallest, Rat.inv_intCast_num, Rat.inv_intCast_den]
      decide))
    rw [hx, herror]
    rfl

end ExactLinear.Fraction
