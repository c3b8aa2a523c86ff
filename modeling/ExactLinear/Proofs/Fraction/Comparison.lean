import ExactLinear.Proofs.Fraction.Quotients
import ExactLinear.Proofs.Policy.Order

/-! # Comparison of fractions

The comparison over the least common denominator gives the order of the values, and so does the one
by cross-multiplication. Neither product leaves its 128-bit word, and no divisor is zero: zero is
compared as `0/1`.
-/

namespace ExactLinear.Fraction
open Std (TransOrd LawfulEqOrd)

/-- The values times both denominators are the products that are compared. -/
theorem compare_eq_cmp (a b : Fraction) : a.compare b = cmp a.value b.value := by
  have ha := a.scale_pos
  have hb := b.scale_pos
  have hleft : a.value * (a.scale * b.scale) = (a.numerator * b.scale : ℤ) := by
    rw [value_eq_div_scale]
    push_cast
    field_simp
  have hright : b.value * (a.scale * b.scale) = (b.numerator * a.scale : ℤ) := by
    rw [value_eq_div_scale]
    push_cast
    field_simp
  rw [compare, ← cmp_eq_compare, ← Int.cast_strictMono.cmp_map_eq (β := ℚ), ← hleft, ← hright,
    cmp_mul_pos_right (mul_pos ha hb)]

theorem lt_iff_value_lt {a b : Fraction} : a < b ↔ a.value < b.value := by
  rw [← cmp_eq_lt_iff, ← compare_eq_cmp]
  rfl

theorem le_iff_value_le {a b : Fraction} : a ≤ b ↔ a.value ≤ b.value := isLE_compare

instance : TransOrd Fraction := inferInstanceAs (Std.TransCmp compare)

instance : LawfulEqOrd Fraction := inferInstanceAs (Std.LawfulEqCmp compare)

theorem scale_le (a : Fraction) : a.scale ≤ 9223372036854775807 := by
  have hd := a.denominator_lt
  unfold scale
  split <;> omega

theorem zero_lt_scale (a : Fraction) : 0 < a.scale := by exact_mod_cast a.scale_pos

/-- A numerator times a part of the other denominator has a wide word. -/
theorem wideWord_mul_eq_ok {n : ℤ} {k : ℕ} (hn : FitsWord n) (hk : k ≤ 9223372036854775807) :
    wideWord (n * k) = .ok (n * k) := by
  have h := mul_natAbs_le hn (k := k) (by omega)
  exact wideWord_eq_ok (by omega)

/-- The least common denominator is each denominator times the other one over the common divisor. -/
theorem compareInWords_eq (a b : Fraction) : a.compareInWords b = .ok (Ord.compare
    (a.numerator * (b.scale / a.scale.gcd b.scale : ℕ))
    (b.numerator * (a.scale / a.scale.gcd b.scale : ℕ))) := by
  have ha := a.scale_le
  have hb := b.scale_le
  have ha0 := a.zero_lt_scale
  have hb0 := b.zero_lt_scale
  set g := a.scale.gcd b.scale with hg
  have hgle : g ≤ a.scale := Nat.gcd_le_left _ ha0
  have hleft : (a.scale * (b.scale / g) : ℕ) / a.scale = b.scale / g :=
    Nat.mul_div_cancel_left _ ha0
  have hright : (a.scale * (b.scale / g) : ℕ) / b.scale = a.scale / g := by
    rw [← Nat.mul_div_assoc _ (Nat.gcd_dvd_right _ _), mul_comm,
      Nat.mul_div_assoc _ (Nat.gcd_dvd_left _ _), Nat.mul_div_cancel_left _ hb0]
  have hqb : b.scale / g ≤ 9223372036854775807 := (Nat.div_le_self _ _).trans hb
  have hqa : a.scale / g ≤ 9223372036854775807 := (Nat.div_le_self _ _).trans ha
  have hcommon := wideWord_mul_eq_ok (n := a.scale) (by unfold FitsWord; omega) hqb
  rw [compareInWords, Int.gcd_natCast_natCast, ← hg, wideWord_eq_ok (by omega), ok_bind,
    ← Int.natCast_ediv, hcommon, ok_bind, ← Nat.cast_mul, ← Int.natCast_ediv, ← Int.natCast_ediv,
    hleft, hright, wideWord_mul_eq_ok a.fitsWord_numerator hqb, ok_bind,
    wideWord_mul_eq_ok b.fitsWord_numerator hqa, ok_bind]
  rfl

theorem compareInWords_eq_compare (a b : Fraction) : a.compareInWords b = .ok (a.compare b) := by
  have hg : (0 : ℤ) < a.scale.gcd b.scale := by
    exact_mod_cast Nat.gcd_pos_of_pos_left _ a.zero_lt_scale
  have hb := Nat.div_mul_cancel (Nat.gcd_dvd_right a.scale b.scale)
  have ha := Nat.div_mul_cancel (Nat.gcd_dvd_left a.scale b.scale)
  rw [compareInWords_eq, ← cmp_eq_compare, ← cmp_mul_pos_right hg, mul_assoc, mul_assoc,
    ← Nat.cast_mul, ← Nat.cast_mul, ha, hb, cmp_eq_compare, compare]

theorem value_sub {a b c : Fraction} (h : a.sub b = .ok c) : c.value = a.value - b.value := by
  obtain ⟨d, hd, h⟩ := bind_eq_ok.1 h
  rw [value_add h, value_neg hd, sub_eq_add_neg]

def sign (c : Fraction) : Ordering := if c.isZero then .eq else if c.isPositive then .gt else .lt

theorem isPositive_iff {c : Fraction} : c.isPositive ↔ 0 < c.value := by
  rw [isPositive, decide_eq_true_iff, value_eq_div_scale, div_pos_iff_of_pos_right c.scale_pos]
  exact Int.cast_pos.symm

theorem sign_eq_cmp (c : Fraction) : c.sign = cmp c.value 0 := by
  by_cases hz : c.isZero
  · rw [sign, if_pos hz, isZero_iff.1 hz, value_zero, cmp_self_eq_eq]
  by_cases hp : c.isPositive
  · rw [sign, if_neg hz, if_pos hp, eq_comm, cmp_eq_gt_iff]
    exact isPositive_iff.1 hp
  · rw [sign, if_neg hz, if_neg hp, eq_comm, cmp_eq_lt_iff]
    exact lt_of_le_of_ne (not_lt.1 (mt isPositive_iff.2 hp)) (value_ne_zero (mt isZero_iff.2 hz))

/-- Comparison never fails. It gives the order of the values, which is total and has equal only the
fractions that are the same in both parts, and agrees with the sign of a difference. -/
theorem compareInWords_eq_cmp :
    (∀ a b : Fraction, (a.scale ≠ 0 ∧ b.scale ≠ 0 ∧ Int.gcd a.scale b.scale ≠ 0) ∧
      a.compareInWords b = .ok (cmp a.value b.value) ∧
        a.compareInWords b = .ok (Ord.compare a b) ∧ (a < b ↔ a.value < b.value) ∧
          (a ≤ b ↔ a.value ≤ b.value)) ∧
      TransOrd Fraction ∧
      (∀ a b : Fraction, Ord.compare a b = .eq ↔
        a.numerator = b.numerator ∧ a.denominator = b.denominator) ∧
      ∀ a b c : Fraction, a.sub b = .ok c → a.compareInWords b = .ok c.sign := by
  have hcmp (a b : Fraction) : a.compareInWords b = .ok (cmp a.value b.value) := by
    rw [compareInWords_eq_compare, compare_eq_cmp]
  refine ⟨fun a b => ⟨?_, hcmp a b, compareInWords_eq_compare a b, lt_iff_value_lt,
    le_iff_value_le⟩, inferInstance, fun a b => ?_, fun a b c h => ?_⟩
  · have ha := a.zero_lt_scale
    exact ⟨ha.ne', b.zero_lt_scale.ne', (Nat.gcd_pos_of_pos_left _ ha).ne'⟩
  · have hab : Ord.compare a b = a.compare b := rfl
    rw [hab, compare_eq_cmp, cmp_eq_eq_iff, parts_eq_iff]
  · rw [hcmp, sign_eq_cmp, value_sub h, cmp_sub_zero]

/-- Zero is above the smallest word, though their difference in this order has no word. -/
theorem compareInWords_eq_cmp_smallest :
    smallest.sub zero = .ok smallest ∧ smallest.compareInWords zero = .ok .lt ∧
      zero.sub smallest = .error (.overflow 9223372036854775808) ∧
        zero.compareInWords smallest = .ok .gt := by
  have hsub : smallest.sub zero = .ok smallest := by
    rw [sub_eq_ofRat _ (by decide), value_zero, sub_zero, ofRat_value]
  obtain ⟨horder, _, _, hsign⟩ := compareInWords_eq_cmp
  refine ⟨hsub, hsign _ _ _ hsub, sub_eq_overflow _ (by decide), ?_⟩
  rw [(horder zero smallest).2.1, Except.ok.injEq, cmp_eq_gt_iff, value_zero, value_smallest]
  norm_num

end ExactLinear.Fraction
