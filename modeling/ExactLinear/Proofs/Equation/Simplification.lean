import ExactLinear.Proofs.Equation.Meaning
import ExactLinear.Proofs.Fraction.Words

/-! # Simplifying

The common divisors of the numerators and of the denominators are coprime, so multiplying through by
their quotient cancels in every coefficient, makes no part larger and leaves nothing to cancel. The
one bound to respect is that of the first numerator: from there on common divisors only decrease.
-/

namespace ExactLinear

/-- From a positive word on, no common divisor is larger. -/
theorem exists_foldlM_word {ns : List ℤ} {g : ℤ} (h0 : 0 < g) (hg : g ≤ 9223372036854775807) :
    ∃ g', ns.foldlM (fun g n => word (Int.gcd g n)) g = .ok g' := by
  induction ns generalizing g with
  | nil => exact ⟨g, rfl⟩
  | cons n ns ih =>
    have hpos : 0 < (Int.gcd g n : ℤ) := Int.natCast_pos.2 (Int.gcd_pos_of_ne_zero_left n h0.ne')
    have hle : (Int.gcd g n : ℤ) ≤ g := Int.le_of_dvd h0 (Int.gcd_dvd_left g n)
    have hw : word (Int.gcd g n) = .ok (Int.gcd g n : ℤ) := by
      rw [word, if_pos]
      unfold FitsWord
      omega
    rw [List.foldlM_cons, hw, ok_bind]
    exact ih hpos (hle.trans hg)

theorem Equation.exists_gcdOf {n : ℤ} {ns : List ℤ} (h0 : n ≠ 0)
    (hn : n.natAbs ≤ 9223372036854775807) : ∃ g, gcdOf (n :: ns) = .ok g := by
  have hw : word (Int.gcd 0 n) = .ok (n.natAbs : ℤ) := by
    rw [Int.zero_gcd, word, if_pos]
    unfold FitsWord
    omega
  rw [gcdOf, List.foldlM_cons, hw, ok_bind]
  exact exists_foldlM_word (by omega) (by omega)

theorem FitsWord.of_mul {n p : ℤ} (hn : 0 < n) (h : FitsWord (n * p)) : FitsWord p := by
  unfold FitsWord at h ⊢
  constructor <;> nlinarith

/-- A product with a quotient cancels where its parts divide those of the coefficient. -/
theorem Fraction.exists_mul_of_dvd {a x : Fraction} {n d : ℤ} (ha : a ≠ zero) (hn0 : 0 < n)
    (hd0 : 0 < d) (hx : x.value = d / n) (hn : n ∣ a.numerator) (hd : d ∣ a.denominator) :
    ∃ b, a.mul x = .ok b ∧ b ≠ zero ∧ a.numerator = n * b.numerator ∧
      (a.denominator : ℤ) = d * b.denominator := by
  obtain ⟨ha0, hb0, hc⟩ := lowest_of_ne_zero ha
  obtain ⟨p, hp⟩ := hn
  obtain ⟨q, hq⟩ := hd
  have hp0 : p ≠ 0 := by
    rintro rfl
    exact ha0 (by simpa using hp)
  have hq0 : 0 < q := pos_of_mul_pos_right (hq ▸ Int.natCast_pos.2 hb0) hd0.le
  lift q to ℕ using hq0.le
  have hpw : FitsWord p := .of_mul hn0 (hp ▸ a.fitsWord_numerator)
  have hqw : FitsWord q := .of_mul hd0 (hq ▸ a.fitsWord_denominator)
  have hpq : p.natAbs.Coprime q :=
    (hc.coprime_dvd_left (Int.natAbs_dvd_natAbs.2 (hp ▸ dvd_mul_left p n))).coprime_dvd_right
      (Int.natCast_dvd_natCast.1 (hq ▸ dvd_mul_left (q : ℤ) d))
  refine ⟨⟨p, q, .inr ⟨hp0, by omega, hpq, hpw, hqw⟩⟩, ?_, ?_, hp, hq⟩
  · have hden : (a.denominator : ℚ) = d * q := by exact_mod_cast hq
    have hdq : (d : ℚ) ≠ 0 := Int.cast_ne_zero.2 hd0.ne'
    have hnq : (n : ℚ) ≠ 0 := Int.cast_ne_zero.2 hn0.ne'
    have hqq : (q : ℚ) ≠ 0 := by exact_mod_cast hq0.ne'
    rw [mul_eq_ofRat, ofRat_eq_ok_iff, hx, value_eq_div, value_eq_div, hp, hden]
    push_cast
    field_simp
  · intro hz
    exact hp0 (congrArg numerator hz)

namespace Equation

theorem exists_multiply {e : Equation} {x : Fraction} {P : Fraction → Fraction → Prop}
    (h : ∀ t ∈ e.terms, ∃ y, t.coefficient.mul x = .ok y ∧ y ≠ .zero ∧ P t.coefficient y) :
    ∃ r, e.multiply x = .ok r ∧ r.policy = e.policy ∧
      List.Forall₂ (fun t u => P t.coefficient u.coefficient) e.terms r.terms := by
  rcases e with ⟨p, ts⟩
  suffices hts : ∃ us, ts.mapM (·.multiply x) = .ok us ∧
      List.Forall₂ (fun t u : Term => P t.coefficient u.coefficient) ts us by
    obtain ⟨us, hus, hp⟩ := hts
    exact ⟨⟨p, us⟩, by rw [multiply, hus]; rfl, rfl, hp⟩
  dsimp only at h
  induction ts with
  | nil => exact ⟨[], rfl, .nil⟩
  | cons t ts ih =>
    obtain ⟨⟨y, hy, h0, hp⟩, hrest⟩ := List.forall_mem_cons.1 h
    obtain ⟨us, hus, hps⟩ := ih hrest
    refine ⟨t.withCoefficient y :: us, ?_, .cons hp hps⟩
    have ht : t.multiply x = .ok (t.withCoefficient y) :=
      Term.multiply_eq_ok.2 ⟨y, hy, Fraction.isZero_eq_false_iff.2 h0, rfl⟩
    rw [List.mapM_cons, ht, hus]
    rfl

theorem IsMultiple.eq_self {e r : Equation} (h : IsMultiple 1 e r) : r = e := by
  rcases e with ⟨p, ts⟩
  rcases r with ⟨p', us⟩
  obtain ⟨rfl, hts⟩ := h
  have heq : List.Forall₂ Eq ts us := hts.imp fun t u hu => by
    have hc := Fraction.value_injective (hu.2.trans (one_mul _))
    rcases t with ⟨a, m⟩
    rcases u with ⟨b, n⟩
    dsimp only at hc hu
    rw [hc, hu.1]
  rw [List.forall₂_eq_eq_eq] at heq
  rw [heq]

theorem multiply_one {e : Equation} (h0 : ∀ t ∈ e.terms, t.coefficient ≠ .zero) :
    e.multiply .one = .ok e := by
  obtain ⟨r, hr, _⟩ := exists_multiply (e := e) (x := .one) (P := fun _ _ => True)
    fun t ht => ⟨t.coefficient, by rw [Fraction.mul_eq_ofRat, Fraction.value_one, mul_one,
      Fraction.ofRat_value], h0 t ht, trivial⟩
  have hm := isMultiple_of_multiply hr
  rw [Fraction.value_one] at hm
  rw [hr, hm.eq_self]

def numerators (e : Equation) : List ℤ := e.terms.map fun t => t.coefficient.numerator

def denominators (e : Equation) : List ℤ := e.terms.map fun t => t.coefficient.denominator

theorem gcd_pos_of_mem {ns : List ℤ} {n : ℤ} (hn : n ∈ ns) (h0 : n ≠ 0) :
    0 < (ns : Multiset ℤ).gcd := by
  have hnonneg := Int.nonneg_of_normalize_eq_self (Multiset.normalize_gcd (ns : Multiset ℤ))
  have hne := (Multiset.gcd_ne_zero_iff _).2 ⟨n, Multiset.mem_coe.2 hn, h0⟩
  omega

section

variable {e : Equation} (h0 : ∀ t ∈ e.terms, t.coefficient ≠ .zero) (hne : e.terms ≠ [])

include h0 hne

theorem gcd_numerators_pos : 0 < (e.numerators : Multiset ℤ).gcd := by
  obtain ⟨t, ht⟩ := List.exists_mem_of_ne_nil _ hne
  exact gcd_pos_of_mem (List.mem_map_of_mem ht) (Fraction.lowest_of_ne_zero (h0 t ht)).1

theorem gcd_denominators_pos : 0 < (e.denominators : Multiset ℤ).gcd := by
  obtain ⟨t, ht⟩ := List.exists_mem_of_ne_nil _ hne
  exact gcd_pos_of_mem (List.mem_map_of_mem ht)
    (Int.natCast_ne_zero.2 (Fraction.lowest_of_ne_zero (h0 t ht)).2.1.ne')

variable (hfirst : ∀ t ∈ e.leadingTerm?, t.coefficient.HasOpposite)

include hfirst

/-- Simplifying is multiplying by the quotient of the common divisors, which is formed. -/
theorem simplify_eq_multiply : ∃ x : Fraction, e.simplify = e.multiply x ∧
    x.value = ((e.denominators : Multiset ℤ).gcd : ℚ) / (e.numerators : Multiset ℤ).gcd := by
  have hgcd : (∃ n, gcdOf e.numerators = .ok n) ∧ ∃ d, gcdOf e.denominators = .ok d := by
    rcases e with ⟨p, _ | ⟨t, ts⟩⟩
    · exact absurd rfl hne
    · obtain ⟨hn, hd, _⟩ := Fraction.lowest_of_ne_zero (h0 t (by simp))
      have hdlt := t.coefficient.denominator_lt
      exact ⟨exists_gcdOf hn (hfirst t rfl).natAbs_le,
        exists_gcdOf (Int.natCast_ne_zero.2 hd.ne') (by dsimp only; omega)⟩
  have hnpos := gcd_numerators_pos h0 hne
  obtain ⟨⟨n, hn⟩, d, hd⟩ := hgcd
  rw [← eq_gcd_of_gcdOf hn] at hnpos ⊢
  rw [← eq_gcd_of_gcdOf hd]
  have hnw := fitsWord_of_gcdOf hn
  have hdw := fitsWord_of_gcdOf hd
  lift n to ℕ using gcdOf_nonneg hn
  lift d to ℕ using gcdOf_nonneg hd
  obtain ⟨x, hx, hv, _⟩ := Fraction.exists_ofParts hdw hnw (by omega)
  refine ⟨x, ?_, hv⟩
  rw [numerators] at hn
  rw [denominators] at hd
  rw [simplify, if_neg (mt List.isEmpty_iff.1 hne), hn, ok_bind, hd, ok_bind, hx]
  dsimp only
  split
  · next h1 => rw [h1, multiply_one h0]; rfl
  · rfl

theorem exists_simplify : ∃ r, e.simplify = .ok r ∧
    IsMultiple (((e.denominators : Multiset ℤ).gcd : ℚ) / (e.numerators : Multiset ℤ).gcd) e r ∧
      List.Forall₂ (fun t u : Term => u.coefficient ≠ .zero ∧
        t.coefficient.numerator = (e.numerators : Multiset ℤ).gcd * u.coefficient.numerator ∧
          (t.coefficient.denominator : ℤ) =
            (e.denominators : Multiset ℤ).gcd * u.coefficient.denominator) e.terms r.terms := by
  obtain ⟨x, hx, hv⟩ := simplify_eq_multiply h0 hne hfirst
  have hpos := gcd_numerators_pos h0 hne
  have hpos' := gcd_denominators_pos h0 hne
  obtain ⟨r, hr, _, hparts⟩ := exists_multiply (e := e) (x := x) (P := fun a b => b ≠ .zero ∧
      a.numerator = (e.numerators : Multiset ℤ).gcd * b.numerator ∧
        (a.denominator : ℤ) = (e.denominators : Multiset ℤ).gcd * b.denominator) fun t ht => by
    obtain ⟨b, hb, hz, hparts⟩ := Fraction.exists_mul_of_dvd (h0 t ht) hpos hpos' hv
      (Multiset.gcd_dvd (Multiset.mem_coe.2 (List.mem_map_of_mem ht)))
      (Multiset.gcd_dvd (Multiset.mem_coe.2 (List.mem_map_of_mem ht)))
    exact ⟨b, hb, hz, hz, hparts⟩
  exact ⟨r, hx.trans hr, hv ▸ isMultiple_of_multiply hr, hparts⟩

end

/-- Dividing a list by its common divisor leaves one as the common divisor. -/
theorem gcd_eq_one_of_forall₂ {f : Term → ℤ} {ts us : List Term} {g : ℤ} (hg0 : 0 < g)
    (hg : (ts.map f : Multiset ℤ).gcd = g) (h : List.Forall₂ (fun t u => f t = g * f u) ts us) :
    (us.map f : Multiset ℤ).gcd = 1 := by
  have hmap : ts.map f = (us.map f).map (g * ·) := by
    clear hg
    induction h with
    | nil => rfl
    | cons hu _ ih => rw [List.map_cons, List.map_cons, List.map_cons, hu, ih]
  have hex : ∃ n ∈ (ts.map f : Multiset ℤ), n ≠ 0 := by
    rw [← Multiset.gcd_ne_zero_iff, hg]
    exact hg0.ne'
  refine Multiset.extract_gcd' _ _ hex ?_
  rw [hg, Multiset.map_coe, hmap]

theorem natAbs_le_of_eq_mul {n p q : ℤ} (hn : 0 < n) (h : p = n * q) : q.natAbs ≤ p.natAbs := by
  rw [h, Int.natAbs_mul]
  exact Nat.le_mul_of_pos_left _ (by omega)

theorem hasOpposite_of_forall₂ {e r : Equation}
    (h : List.Forall₂ (fun t u : Term =>
      u.coefficient.numerator.natAbs ≤ t.coefficient.numerator.natAbs ∧
        u.coefficient.denominator ≤ t.coefficient.denominator) e.terms r.terms)
    (he : ∀ t ∈ e.leadingTerm?, t.coefficient.HasOpposite) :
    ∀ u ∈ r.leadingTerm?, u.coefficient.HasOpposite := by
  rcases e with ⟨p, _ | ⟨t, ts⟩⟩ <;> rcases r with ⟨p', _ | ⟨u, us⟩⟩
  · exact fun _ h => nomatch h
  · cases h
  · cases h
  · have ht := (he t rfl).natAbs_le
    have hu := (List.forall₂_cons.1 h).1.1
    intro w hw
    cases hw
    unfold Fraction.HasOpposite
    omega

theorem simplify_eq_self {e : Equation} (h0 : ∀ t ∈ e.terms, t.coefficient ≠ .zero)
    (hne : e.terms ≠ []) (hfirst : ∀ t ∈ e.leadingTerm?, t.coefficient.HasOpposite)
    (hn : (e.numerators : Multiset ℤ).gcd = 1) (hd : (e.denominators : Multiset ℤ).gcd = 1) :
    e.simplify = .ok e := by
  obtain ⟨x, hx, hv⟩ := simplify_eq_multiply h0 hne hfirst
  have hone : x = .one := Fraction.value_injective (by simp [hv, hn, hd])
  rw [hx, hone, multiply_one h0]

/-- A canonical equation is simplified if its first numerator has an opposite. All coefficients are
multiplied by one positive number, so the equation says the same. They have no common divisor then
in their numerators nor in their denominators, no part is larger, and simplifying again changes
nothing. -/
theorem simplify_of_hasOpposite {e : Equation} (he : e.IsCanonical)
    (hfirst : ∀ t ∈ e.leadingTerm?, t.coefficient.HasOpposite) :
    ∃ r, e.simplify = .ok r ∧ (∃ q : ℚ, 0 < q ∧ IsMultiple q e r) ∧
      (∀ v, r.Satisfied v ↔ e.Satisfied v) ∧
      (e.terms ≠ [] →
        (r.numerators : Multiset ℤ).gcd = 1 ∧ (r.denominators : Multiset ℤ).gcd = 1) ∧
      List.Forall₂ (fun t u : Term =>
        u.coefficient.numerator.natAbs ≤ t.coefficient.numerator.natAbs ∧
          u.coefficient.denominator ≤ t.coefficient.denominator) e.terms r.terms ∧
      r.simplify = .ok r := by
  by_cases hne : e.terms = []
  · have hs : e.simplify = .ok e := by rw [simplify, hne]; rfl
    refine ⟨e, hs, ⟨1, one_pos, .refl e⟩, fun v => Iff.rfl, fun h => absurd hne h, ?_, hs⟩
    rw [hne]
    exact .nil
  have h0 := he.nonzero
  have hnpos := gcd_numerators_pos h0 hne
  have hdpos := gcd_denominators_pos h0 hne
  obtain ⟨r, hr, hm, hparts⟩ := exists_simplify h0 hne hfirst
  have hn1 : (r.numerators : Multiset ℤ).gcd = 1 :=
    gcd_eq_one_of_forall₂ hnpos rfl (hparts.imp fun t u h => h.2.1)
  have hd1 : (r.denominators : Multiset ℤ).gcd = 1 :=
    gcd_eq_one_of_forall₂ hdpos rfl (hparts.imp fun t u h => h.2.2)
  have hle := hparts.imp fun t u h =>
    And.intro (natAbs_le_of_eq_mul hnpos h.2.1) (natAbs_le_of_eq_mul hdpos h.2.2)
  have hzero (u) (hu : u ∈ r.terms) : u.coefficient ≠ .zero := by
    obtain ⟨t, _, h⟩ := exists_of_forall₂ hparts hu
    exact h.1
  have hnil : r.terms ≠ [] := by
    rw [← List.length_pos_iff, ← hparts.length_eq]
    exact List.length_pos_iff.2 hne
  exact ⟨r, hr, ⟨_, div_pos (Int.cast_pos.2 hdpos) (Int.cast_pos.2 hnpos), hm⟩,
    satisfied_simplify hr, fun _ => ⟨hn1, hd1⟩, hle,
    simplify_eq_self hzero hnil (hasOpposite_of_forall₂ hle hfirst) hn1 hd1⟩

def evenNumerators : Equation where
  terms := [⟨⟨6, 35, .inr (by decide)⟩, .ofText "y"⟩,
    ⟨⟨-9223372036854775808, 5, .inr (by decide)⟩, .ofText "x"⟩,
    .constant ⟨4, 15, .inr (by decide)⟩]

def evenNumeratorsSimplified : Equation where
  terms := [⟨⟨3, 7, .inr (by decide)⟩, .ofText "y"⟩,
    ⟨⟨-4611686018427387904, 1, .inr (by decide)⟩, .ofText "x"⟩,
    .constant ⟨2, 3, .inr (by decide)⟩]

/-- The common divisors two and five cancel, also in the smallest numerator. -/
theorem simplify_of_hasOpposite_evenNumerators :
    evenNumerators.IsCanonical ∧
      (∀ t ∈ evenNumerators.leadingTerm?, t.coefficient.HasOpposite) ∧
        evenNumerators.simplify = .ok evenNumeratorsSimplified ∧
          evenNumeratorsSimplified.simplify = .ok evenNumeratorsSimplified ∧
            (evenNumeratorsSimplified.numerators : Multiset ℤ).gcd = 1 ∧
              (evenNumeratorsSimplified.denominators : Multiset ℤ).gcd = 1 := by
  have he : evenNumerators.IsCanonical := ⟨by decide, by decide, by decide⟩
  have hfirst : ∀ t ∈ evenNumerators.leadingTerm?, t.coefficient.HasOpposite := by decide
  have hs : evenNumerators.simplify = .ok evenNumeratorsSimplified := by cbv
  obtain ⟨r, hr, _, _, hgcd, _, hself⟩ := simplify_of_hasOpposite he hfirst
  rw [hs, Except.ok.injEq] at hr
  subst hr
  exact ⟨he, hfirst, hs, hself, hgcd (by decide)⟩

end Equation
end ExactLinear
