import ExactLinear.Proofs.Fraction.Results

/-! # Differences and quotients

A difference is a sum with the opposite, and a quotient a product with the reciprocal. The step on
the way needs words of its own: it has them unless the second operand has the numerator `-2^63`.
Then the computation fails even where the result has words, as for `-2^63` minus or over itself.
-/

namespace ExactLinear.Fraction

def HasWords (q : ℚ) : Prop := FitsWord q.num ∧ FitsWord q.den

instance (q : ℚ) : Decidable (HasWords q) := inferInstanceAs (Decidable (_ ∧ _))

/-- The computation gives the number if its parts have words, and fails if not. -/
structure IsExact (x : Except Fault Fraction) (q : ℚ) : Prop where
  value : ∀ c, x = .ok c → c.value = q
  exists_ok_iff : (∃ c, x = .ok c) ↔ HasWords q

theorem isExact_ofRat (q : ℚ) : IsExact (ofRat q) q :=
  ⟨fun _ => value_of_ofRat, (yields_ofRat q).exists_ok_iff⟩

/-- A failure is exact where there is nothing to give. -/
theorem isExact_error_iff {f : Fault} {q : ℚ} : IsExact (.error f) q ↔ ¬HasWords q := by
  constructor
  · intro h hq
    obtain ⟨c, hc⟩ := h.exists_ok_iff.2 hq
    cases hc
  · intro hq
    exact ⟨fun _ => nofun, by simp [hq]⟩

theorem ne_zero_of_not_hasOpposite {b : Fraction} (hb : ¬b.HasOpposite) : b ≠ zero := by
  rintro rfl
  exact hb (by decide)

theorem neg_eq_overflow {b : Fraction} (hb : ¬b.HasOpposite) :
    b.neg = .error (.overflow 9223372036854775808) := by
  rw [HasOpposite, not_not] at hb
  rw [neg, dif_neg (by rw [hb]; decide), hb]
  rfl

/-- The numerator of the reciprocal is the denominator, up to its sign. -/
theorem fitsWord_num_inv {b : Fraction} (h0 : b ≠ zero) : FitsWord (b.value⁻¹).num := by
  obtain ⟨hn, _, hnum, hden⟩ := stored_of_ne_zero h0
  have hd := b.denominator_lt
  rw [Rat.num_inv, hnum, hden]
  unfold FitsWord
  rcases Int.lt_or_gt_of_ne hn with hneg | hpos
  · rw [Int.sign_eq_neg_one_of_neg hneg]
    omega
  · rw [Int.sign_eq_one_of_pos hpos]
    omega

/-- The denominator of the reciprocal is the size of the numerator, which has a word then. -/
theorem exists_recip? {b : Fraction} (hb : b.HasOpposite) (h0 : b ≠ zero) :
    ∃ r, b.recip? = .ok (some r) ∧ r.value = b.value⁻¹ := by
  have hden : FitsWord (b.value⁻¹).den := by
    have hsize := hb.natAbs_le
    rw [Rat.den_inv_of_ne_zero (value_ne_zero h0), (stored_of_ne_zero h0).2.2.1]
    unfold FitsWord
    omega
  obtain ⟨r, hr, _⟩ := exists_ofRat (fitsWord_num_inv h0) hden
  exact ⟨r, by rw [recip?_eq_ofRat h0, hr]; rfl, value_of_ofRat hr⟩

theorem recip?_eq_overflow {b : Fraction} (hb : ¬b.HasOpposite) :
    b.recip? = .error (.overflow 9223372036854775808) := by
  have h0 := ne_zero_of_not_hasOpposite hb
  have hden : (b.value⁻¹).den = 9223372036854775808 := by
    rw [HasOpposite, not_not] at hb
    rw [Rat.den_inv_of_ne_zero (value_ne_zero h0), (stored_of_ne_zero h0).2.2.1, hb]
    rfl
  have hr : ofRat b.value⁻¹ = .error (.overflow 9223372036854775808) := by
    rw [ofRat_eq_error_iff, hden]
    exact .inr ⟨fitsWord_num_inv h0, by decide, rfl⟩
  rw [recip?_eq_ofRat h0, hr]
  rfl

theorem sub_eq_ofRat (a : Fraction) {b : Fraction} (hb : b.HasOpposite) :
    a.sub b = ofRat (a.value - b.value) := by
  obtain ⟨c, hc, hv, _⟩ := exists_neg hb
  rw [sub, hc, ok_bind, add_eq_ofRat, hv, sub_eq_add_neg]

theorem sub_eq_overflow (a : Fraction) {b : Fraction} (hb : ¬b.HasOpposite) :
    a.sub b = .error (.overflow 9223372036854775808) := by
  rw [sub, neg_eq_overflow hb]
  rfl

theorem div_eq_ofRat (a : Fraction) {b : Fraction} (hb : b.HasOpposite) (h0 : b ≠ zero) :
    a.div b = ofRat (a.value / b.value) := by
  obtain ⟨r, hr, hv⟩ := exists_recip? hb h0
  rw [div, hr, ok_bind]
  dsimp only
  rw [mul_eq_ofRat, hv, div_eq_mul_inv]

theorem div_eq_overflow (a : Fraction) {b : Fraction} (hb : ¬b.HasOpposite) :
    a.div b = .error (.overflow 9223372036854775808) := by
  rw [div, recip?_eq_overflow hb]
  rfl

theorem div_zero (a : Fraction) :
    a.div zero = if a = zero then .ok zero else .error .divisionByZero := by
  have h : a.div zero = if a.isZero then .ok zero else .error .divisionByZero := rfl
  simp only [h, isZero_iff]

/-- A computation that is exact with an opposite, and fails without, is exact wherever there is an
opposite or no result. -/
theorem isExact_iff {x : Except Fault Fraction} {q : ℚ} {b : Fraction} {f : Fault}
    (hok : b.HasOpposite → x = ofRat q) (herror : ¬b.HasOpposite → x = .error f) :
    IsExact x q ↔ b.HasOpposite ∨ ¬HasWords q := by
  by_cases hb : b.HasOpposite
  · rw [hok hb]
    exact iff_of_true (isExact_ofRat q) (.inl hb)
  · rw [herror hb, isExact_error_iff, or_iff_right hb]

/-- Differences and quotients are exact, and fail only where the result has no words, if the second
operand has an opposite. If not they fail, whatever the result: they are exact only where it has no
words, and dividing does not undo multiplying. -/
theorem isExact_iff_hasOpposite (a b : Fraction) :
    (IsExact (a.sub b) (a.value - b.value) ↔
      b.HasOpposite ∨ ¬HasWords (a.value - b.value)) ∧
      (b ≠ zero → (IsExact (a.div b) (a.value / b.value) ↔
        b.HasOpposite ∨ ¬HasWords (a.value / b.value))) ∧
      a.div zero = (if a = zero then .ok zero else .error .divisionByZero) ∧
      ∀ c, b ≠ zero → a.mul b = .ok c → (c.div b = .ok a ↔ b.HasOpposite) := by
  refine ⟨isExact_iff (sub_eq_ofRat a) (sub_eq_overflow a),
    fun h0 => isExact_iff (fun hb => div_eq_ofRat a hb h0) (div_eq_overflow a),
    div_zero a, fun c h0 hc => ?_⟩
  by_cases hb : b.HasOpposite
  · refine iff_of_true ?_ hb
    rw [div_eq_ofRat c hb h0, ofRat_eq_ok_iff, value_mul hc,
      mul_div_cancel_right₀ _ (value_ne_zero h0)]
  · refine iff_of_false (fun h => ?_) hb
    rw [div_eq_overflow c hb] at h
    cases h

def smallestHalves : Fraction := ⟨-9223372036854775807, 2, .inr (by decide)⟩

/-- A large fraction times its reciprocal is one, and dividing gives the reciprocal back. -/
theorem isExact_iff_hasOpposite_smallestHalves :
    smallestHalves ≠ zero ∧ smallestHalves.HasOpposite ∧
      ∃ a, a.mul smallestHalves = .ok one ∧ one.div smallestHalves = .ok a ∧
        IsExact (a.sub smallestHalves) (a.value - smallestHalves.value) ∧
          IsExact (a.div smallestHalves) (a.value / smallestHalves.value) ∧
            a.div zero = .error .divisionByZero := by
  have h0 : smallestHalves ≠ zero := by decide
  have hb : smallestHalves.HasOpposite := by decide
  obtain ⟨a, hr, hv⟩ := exists_recip? hb h0
  have hmul : a.mul smallestHalves = .ok one := by
    rw [mul_eq_ofRat, ofRat_eq_ok_iff, hv, value_one, inv_mul_cancel₀ (value_ne_zero h0)]
  have ha : a ≠ zero := by
    rintro rfl
    cases hmul
  obtain ⟨hsub, hdiv, hzero, hcancel⟩ := isExact_iff_hasOpposite a smallestHalves
  refine ⟨h0, hb, a, hmul, (hcancel one h0 hmul).2 hb, hsub.2 (.inl hb), (hdiv h0).2 (.inl hb), ?_⟩
  rw [hzero, if_neg ha]

/-- The smallest word has a difference with itself and a quotient by itself, zero and one. Neither
is computed, though the product with one is. -/
theorem not_isExact_smallest :
    ¬IsExact (smallest.sub smallest) (smallest.value - smallest.value) ∧
      ¬IsExact (smallest.div smallest) (smallest.value / smallest.value) ∧
        one.mul smallest = .ok smallest ∧ smallest.div smallest ≠ .ok one := by
  have hb : ¬smallest.HasOpposite := by decide
  have h0 := value_ne_zero (ne_zero_of_not_hasOpposite hb)
  rw [sub_eq_overflow _ hb, div_eq_overflow _ hb, isExact_error_iff, isExact_error_iff, sub_self,
    div_self h0, not_not, not_not, mul_eq_ofRat, value_one, one_mul, ofRat_value]
  exact ⟨by decide, by decide, rfl, by simp⟩

end ExactLinear.Fraction
