import ExactLinear.Fraction.Order
import Mathlib.Tactic

/-! # Exactness of the arithmetic of fractions

Each operation is the exact rational operation followed by `ofRat`. The 128-bit words on the way
hold every intermediate integer, so a reduced part outside the 64-bit words is the only overflow.
-/

namespace ExactLinear

/-- A number has no word: a part of a reduced fraction, or the common divisor of numerators that
are all `-2^63`. -/
inductive Fault.IsOverflow : Fault → Prop
  | part {n : ℤ} (hn : ¬FitsWord n) : IsOverflow (.overflow n)
  | divisor : IsOverflow (.wordOverflow 9223372036854775808)

theorem FitsWord.natAbs_le {n : ℤ} (h : FitsWord n) : n.natAbs ≤ 2 ^ 63 := by
  unfold FitsWord at h
  omega

theorem wideWord_eq_ok {n : ℤ} (h : n.natAbs < 2 ^ 127) : wideWord n = .ok n := by
  rw [wideWord, if_pos]
  unfold FitsWideWord
  omega

namespace Fraction

theorem fitsWord_numerator (a : Fraction) : FitsWord a.numerator := by
  rcases a.isStored with ⟨hn, _⟩ | ⟨_, _, _, hn, _⟩
  · rw [hn]
    decide
  · exact hn

theorem fitsWord_denominator (a : Fraction) : FitsWord a.denominator := by
  rcases a.isStored with ⟨_, hd⟩ | ⟨_, _, _, _, hd⟩
  · rw [hd]
    decide
  · exact hd

theorem denominator_lt (a : Fraction) : a.denominator < 2 ^ 63 := by
  have h := a.fitsWord_denominator
  unfold FitsWord at h
  omega

theorem eq_zero_of_isZero {a : Fraction} (h : a.isZero) : a = zero := by
  rcases a with ⟨n, d, hs⟩
  have hd : d = 0 := by simpa [isZero] using h
  rcases hs with ⟨rfl, rfl⟩ | ⟨_, h0, _⟩
  · rfl
  · exact absurd hd h0

@[simp] theorem isZero_zero : zero.isZero = true := rfl

theorem isZero_iff {a : Fraction} : a.isZero = true ↔ a = zero :=
  ⟨eq_zero_of_isZero, fun h => h ▸ rfl⟩

theorem isZero_eq_false_iff {a : Fraction} : a.isZero = false ↔ a ≠ zero := by
  rw [Ne, ← isZero_iff, Bool.not_eq_true]

@[simp] theorem value_zero : zero.value = 0 := by simp [value, zero]

@[simp] theorem value_one : one.value = 1 := by simp [value, one, Rat.mkRat_eq_div]

theorem value_eq_div (a : Fraction) : a.value = a.numerator / a.denominator :=
  Rat.mkRat_eq_div _ _

/-- A fraction other than zero is stored as its value is. -/
theorem stored_of_ne_zero {a : Fraction} (h : a ≠ zero) :
    a.numerator ≠ 0 ∧ a.denominator ≠ 0 ∧ a.value.num = a.numerator ∧
      a.value.den = a.denominator := by
  rcases a with ⟨n, d, ⟨rfl, rfl⟩ | ⟨hn, hd, hc, hw⟩⟩
  · exact absurd rfl h
  · have hv : (⟨n, d, .inr ⟨hn, hd, hc, hw⟩⟩ : Fraction).value = ⟨n, d, hd, hc⟩ :=
      (Rat.mk_eq_mkRat n d hd hc).symm
    rw [hv]
    exact ⟨hn, hd, rfl, rfl⟩

theorem lowest_of_ne_zero {a : Fraction} (h : a ≠ zero) :
    a.numerator ≠ 0 ∧ 0 < a.denominator ∧ a.numerator.natAbs.Coprime a.denominator := by
  obtain ⟨hn, hd, hnum, hden⟩ := stored_of_ne_zero h
  refine ⟨hn, Nat.pos_of_ne_zero hd, ?_⟩
  rw [← hnum, ← hden]
  exact a.value.reduced

theorem value_ne_zero {a : Fraction} (h : a ≠ zero) : a.value ≠ 0 := by
  obtain ⟨hn, _, hv, _⟩ := stored_of_ne_zero h
  intro h0
  rw [h0] at hv
  exact hn hv.symm

theorem value_eq_zero_iff {a : Fraction} : a.value = 0 ↔ a = zero :=
  ⟨fun h => by_contra fun hz => value_ne_zero hz h, fun h => by rw [h, value_zero]⟩

/-- The stored form of a rational number. -/
def ofRat (q : ℚ) : Except Fault Fraction :=
  if hq : q.num = 0 then .ok zero
  else if hn : FitsWord q.num then
    if hd : FitsWord q.den then .ok ⟨q.num, q.den, .inr ⟨hq, q.den_nz, q.reduced, hn, hd⟩⟩
    else .error (.overflow q.den)
  else .error (.overflow q.num)

theorem value_of_ofRat {q : ℚ} {a : Fraction} (h : ofRat q = .ok a) : a.value = q := by
  rw [ofRat] at h
  split at h
  · next hq => cases h; rw [value_zero, Rat.num_eq_zero.1 hq]
  · split at h
    · split at h
      · cases h; exact q.mkRat_self
      · cases h
    · cases h

theorem ofRat_value (a : Fraction) : ofRat a.value = .ok a := by
  by_cases hz : a = zero
  · rw [hz, value_zero]
    rfl
  · obtain ⟨hn, _, hnum, hden⟩ := stored_of_ne_zero hz
    have h0 : a.value.num ≠ 0 := hnum ▸ hn
    have h1 : FitsWord a.value.num := hnum ▸ a.fitsWord_numerator
    have h2 : FitsWord a.value.den := hden ▸ a.fitsWord_denominator
    rw [ofRat, dif_neg h0, dif_pos h1, dif_pos h2]
    congr

theorem ofRat_eq_overflow {q : ℚ} (h : ¬FitsWord q.num) :
    ofRat q = .error (.overflow q.num) := by
  have h0 : q.num ≠ 0 := by
    intro h0
    rw [h0] at h
    exact h (by decide)
  rw [ofRat, dif_neg h0, dif_neg h]

theorem ofRat_eq_ok_iff {q : ℚ} {a : Fraction} : ofRat q = .ok a ↔ a.value = q :=
  ⟨value_of_ofRat, fun h => h ▸ ofRat_value a⟩

/-- Equal values are stored alike. -/
theorem value_injective {a b : Fraction} (h : a.value = b.value) : a = b := by
  have ha := ofRat_value a
  rw [h, ofRat_value b] at ha
  exact (Except.ok.inj ha).symm

theorem isOverflow_of_ofRat {q : ℚ} {f : Fault} (h : ofRat q = .error f) : f.IsOverflow := by
  rw [ofRat] at h
  split at h
  · cases h
  · split at h
    · split at h
      · cases h
      · next hd => cases h; exact .part hd
    · next hn => cases h; exact .part hn

theorem IsLowest.num_den {n d : ℤ} (h : IsLowest n d) :
    (n / d : ℚ).num = n ∧ ((n / d : ℚ).den : ℤ) = d := by
  have hc : n.natAbs.Coprime d.natAbs := h.gcd_eq_one
  exact ⟨Rat.num_div_eq_of_coprime h.pos hc, Rat.den_div_eq_of_coprime h.pos hc⟩

/-- Lowest terms are the parts of the number that they stand for. -/
theorem narrow_eq_ofRat {n d : ℤ} (h : IsLowest n d) : narrow n d h = ofRat (n / d) := by
  obtain ⟨hnum, hden⟩ := h.num_den
  have h0 : (n / d : ℚ).num ≠ 0 := by
    rw [hnum]
    exact h.ne_zero
  rw [narrow]
  split
  · next hn =>
    split
    · next hd =>
      symm
      rw [ofRat_eq_ok_iff, value_eq_div]
      have hcast : (d.toNat : ℤ) = d := Int.toNat_of_nonneg h.pos.le
      rw [← Int.cast_natCast, hcast]
    · next hd =>
      rw [ofRat, dif_neg h0, dif_pos (by rwa [hnum]), dif_neg (by rwa [hden]), hden]
  · next hn => rw [ofRat_eq_overflow (by rwa [hnum]), hnum]

theorem div_of_lowestParts {n d p q : ℤ} (h0 : d ≠ 0) (h : lowestParts n d = .ok (p, q)) :
    (p / q : ℚ) = n / d := by
  have hg : (Int.gcd n d : ℚ) ≠ 0 := by
    exact_mod_cast (Int.gcd_pos_of_ne_zero_right n h0).ne'
  have hquot : ((n / Int.gcd n d : ℤ) / (d / Int.gcd n d : ℤ) : ℚ) = n / d := by
    rw [Int.cast_div (Int.gcd_dvd_left n d) (by exact_mod_cast hg),
      Int.cast_div (Int.gcd_dvd_right n d) (by exact_mod_cast hg), Int.cast_natCast,
      div_div_div_cancel_right₀ hg]
  rcases eq_of_lowestParts h with ⟨_, rfl, rfl⟩ | ⟨_, rfl, rfl⟩
  · exact hquot
  · rw [Int.cast_neg, Int.cast_neg, neg_div_neg_eq, hquot]

/-- No integer on the way leaves its 128-bit word. -/
theorem exists_lowestParts {n d : ℤ} (hn : n.natAbs < 2 ^ 127) (hd : d.natAbs < 2 ^ 127)
    (h0 : d ≠ 0) : ∃ p q, lowestParts n d = .ok (p, q) := by
  have hg : Int.gcd n d ≤ d.natAbs := Int.gcd_le_natAbs_right n h0
  have hquot (m : ℤ) (hm : m.natAbs < 2 ^ 127) : (m / (Int.gcd n d : ℤ)).natAbs < 2 ^ 127 :=
    (Int.natAbs_ediv_le_natAbs m _).trans_lt hm
  have hneg (m : ℤ) (hm : m.natAbs < 2 ^ 127) : wideWord (-m) = .ok (-m) :=
    wideWord_eq_ok (by rwa [Int.natAbs_neg])
  rw [lowestParts, wideWord_eq_ok (by omega), ok_bind, wideWord_eq_ok (hquot n hn), ok_bind,
    wideWord_eq_ok (hquot d hd), ok_bind, hneg _ (hquot n hn), hneg _ (hquot d hd)]
  split <;> exact ⟨_, _, rfl⟩

/-- The quotients by the common divisor are the lowest terms, so only the result has to fit. -/
theorem reduce_eq_ofRat {n d : ℤ} (hn : n.natAbs < 2 ^ 127) (hd : d.natAbs < 2 ^ 127)
    (h0 : d ≠ 0) : reduce n d = ofRat (n / d) := by
  rw [reduce, dif_neg h0]
  by_cases hz : n = 0
  · rw [dif_pos hz, hz]
    simp [ofRat]
  · obtain ⟨p, q, hparts⟩ := exists_lowestParts hn hd h0
    rw [dif_neg hz]
    split
    · next hf => cases hf.symm.trans hparts
    · next h => rw [narrow_eq_ofRat, div_of_lowestParts h0 h]

theorem ofInt_eq_ofRat (n : ℤ) : ofInt n = ofRat n := by
  by_cases h0 : n = 0
  · rw [ofInt, dif_pos h0, h0]
    simp [ofRat]
  · have hone : IsLowest n 1 := ⟨h0, one_pos, Int.gcd_one⟩
    have h1 : FitsWord 1 := by decide
    rw [← div_one (n : ℚ), ← Int.cast_one, ← narrow_eq_ofRat hone, ofInt, dif_neg h0, narrow]
    split <;> rfl

theorem mul_natAbs_le {m : ℤ} {k : ℕ} (hm : FitsWord m) (hk : k < 2 ^ 63) :
    (m * k).natAbs ≤ 2 ^ 63 * (2 ^ 63 - 1) := by
  rw [Int.natAbs_mul, Int.natAbs_natCast]
  exact Nat.mul_le_mul hm.natAbs_le (by omega)

theorem add_eq_ofRat (a b : Fraction) : a.add b = ofRat (a.value + b.value) := by
  rw [add]
  split
  · next ha => rw [eq_zero_of_isZero ha, value_zero, zero_add, ofRat_value]
  split
  · next hb => rw [eq_zero_of_isZero hb, value_zero, add_zero, ofRat_value]
  · next ha hb =>
    obtain ⟨_, ha0, _⟩ := stored_of_ne_zero (mt isZero_iff.2 ha)
    obtain ⟨_, hb0, _⟩ := stored_of_ne_zero (mt isZero_iff.2 hb)
    have hl := mul_natAbs_le a.fitsWord_numerator b.denominator_lt
    have hr := mul_natAbs_le b.fitsWord_numerator a.denominator_lt
    have hd := mul_natAbs_le a.fitsWord_denominator b.denominator_lt
    have hs := Int.natAbs_add_le (a.numerator * b.denominator) (b.numerator * a.denominator)
    rw [wideWord_eq_ok (by omega), wideWord_eq_ok (by omega), ok_bind, ok_bind,
      wideWord_eq_ok (by omega), wideWord_eq_ok (by omega), ok_bind, ok_bind,
      reduce_eq_ofRat (by omega) (by omega) (by positivity), value_eq_div, value_eq_div]
    congr 1
    push_cast
    field_simp

theorem mul_eq_ofRat (a b : Fraction) : a.mul b = ofRat (a.value * b.value) := by
  rw [mul]
  split
  · next h =>
    have hz : a.value * b.value = 0 := by
      rw [Bool.or_eq_true, isZero_iff, isZero_iff] at h
      rcases h with rfl | rfl <;> simp
    rw [hz]
    rfl
  · next h =>
    rw [Bool.or_eq_true, isZero_iff, isZero_iff, not_or] at h
    obtain ⟨_, ha0, _⟩ := stored_of_ne_zero h.1
    obtain ⟨_, hb0, _⟩ := stored_of_ne_zero h.2
    have hn := Nat.mul_le_mul a.fitsWord_numerator.natAbs_le b.fitsWord_numerator.natAbs_le
    rw [← Int.natAbs_mul] at hn
    have hd := mul_natAbs_le a.fitsWord_denominator b.denominator_lt
    rw [wideWord_eq_ok (by omega), wideWord_eq_ok (by omega), ok_bind, ok_bind,
      reduce_eq_ofRat (by omega) (by omega) (by positivity), value_eq_div, value_eq_div]
    congr 1
    push_cast
    field_simp

theorem neg_eq_ofRat (a : Fraction) : a.neg = ofRat (-a.value) := by
  rw [neg]
  split
  · next h =>
    rw [← ofRat_value ⟨-a.numerator, a.denominator, a.isStored.neg h⟩]
    congr 1
    exact (Rat.neg_mkRat _ _).symm
  · next h =>
    have hz : a ≠ zero := by
      rintro rfl
      exact h (by decide)
    have hnum : (-a.value).num = -a.numerator := by
      rw [Rat.neg_num, (stored_of_ne_zero hz).2.2.1]
    rw [ofRat_eq_overflow (hnum ▸ h), hnum]

theorem recip?_eq_ofRat {a : Fraction} (h : a ≠ zero) :
    a.recip? = some <$> ofRat a.value⁻¹ := by
  obtain ⟨hn, hd, _⟩ := stored_of_ne_zero h
  have h1 := a.fitsWord_numerator.natAbs_le
  have h2 := a.denominator_lt
  rw [recip?, if_neg (mt isZero_iff.1 h),
    reduce_eq_ofRat (by omega) (by omega) hn, value_eq_div, inv_div]
  rfl

theorem ofParts_eq_ofRat {n d : ℤ} (hn : FitsWord n) (hd : FitsWord d) (h0 : d ≠ 0) :
    ofParts n d = ofRat (n / d) := by
  have h1 := hn.natAbs_le
  have h2 := hd.natAbs_le
  rw [ofParts, if_pos h0, reduce_eq_ofRat (by omega) (by omega) h0]

theorem value_add {a b c : Fraction} (h : a.add b = .ok c) : c.value = a.value + b.value :=
  value_of_ofRat (add_eq_ofRat a b ▸ h)

theorem value_mul {a b c : Fraction} (h : a.mul b = .ok c) : c.value = a.value * b.value :=
  value_of_ofRat (mul_eq_ofRat a b ▸ h)

theorem value_neg {a c : Fraction} (h : a.neg = .ok c) : c.value = -a.value :=
  value_of_ofRat (neg_eq_ofRat a ▸ h)

theorem recip?_eq_none_iff {a : Fraction} : a.recip? = .ok none ↔ a = zero := by
  constructor
  · intro h
    by_contra hz
    rw [recip?_eq_ofRat hz, map_eq_ok] at h
    obtain ⟨_, _, h⟩ := h
    cases h
  · rintro rfl
    rfl

theorem value_recip? {a c : Fraction} (h : a.recip? = .ok (some c)) :
    a ≠ zero ∧ c.value = a.value⁻¹ := by
  have hz : a ≠ zero := by
    rintro rfl
    cases h
  rw [recip?_eq_ofRat hz, map_eq_ok] at h
  obtain ⟨r, hr, h⟩ := h
  cases h
  exact ⟨hz, value_of_ofRat hr⟩

/-- A quotient by a fraction other than zero is exact, though its divisor is inverted first. -/
theorem value_div {a b c : Fraction} (hb : b ≠ zero) (h : a.div b = .ok c) :
    c.value = a.value / b.value := by
  obtain ⟨r?, hr, h⟩ := bind_eq_ok.1 h
  cases r? with
  | none => exact absurd (recip?_eq_none_iff.1 hr) hb
  | some r => rw [value_mul h, (value_recip? hr).2, div_eq_mul_inv]

theorem isOverflow_add {a b : Fraction} {f : Fault} (h : a.add b = .error f) : f.IsOverflow :=
  isOverflow_of_ofRat (add_eq_ofRat a b ▸ h)

theorem isOverflow_mul {a b : Fraction} {f : Fault} (h : a.mul b = .error f) : f.IsOverflow :=
  isOverflow_of_ofRat (mul_eq_ofRat a b ▸ h)

theorem isOverflow_neg {a : Fraction} {f : Fault} (h : a.neg = .error f) : f.IsOverflow :=
  isOverflow_of_ofRat (neg_eq_ofRat a ▸ h)

theorem isOverflow_recip? {a : Fraction} {f : Fault} (h : a.recip? = .error f) :
    f.IsOverflow := by
  by_cases hz : a = zero
  · rw [hz] at h
    cases h
  · rw [recip?_eq_ofRat hz, map_eq_error] at h
    exact isOverflow_of_ofRat h

theorem isOverflow_div {a b : Fraction} (hb : b ≠ zero) {f : Fault} (h : a.div b = .error f) :
    f.IsOverflow := by
  rcases bind_eq_error.1 h with h | ⟨r?, hr, h⟩
  · exact isOverflow_recip? h
  · cases r? with
    | none => exact absurd (recip?_eq_none_iff.1 hr) hb
    | some r => exact isOverflow_mul h

theorem isOverflow_ofParts {n d : ℤ} (hn : FitsWord n) (hd : FitsWord d) {f : Fault}
    (h : ofParts n d = .error f) : f.IsOverflow ∨ d = 0 ∧ f = .divisionByZero := by
  by_cases h0 : d = 0
  · rw [ofParts, if_neg (not_not.2 h0)] at h
    split at h
    · cases h
    · cases h
      exact .inr ⟨h0, rfl⟩
  · rw [ofParts_eq_ofRat hn hd h0] at h
    exact .inl (isOverflow_of_ofRat h)

end Fraction
end ExactLinear
