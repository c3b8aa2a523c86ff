import ExactLinear.CommandLine.Report
import ExactLinear.Proofs.Equation.CanonicalForm
import ExactLinear.Proofs.Equation.Simplification
import ExactLinear.Proofs.Reading.RoundTrip

/-! # A variable on a side of its own

The sum that a variable equals has the other terms of the equation in their order, divided by the
opposite of the variable's coefficient. Written after the variable and an equals sign, it is read as
the equation divided by that coefficient. The signs turn three times on the way: in the sum, in its
text, and on the right-hand side that is read.
-/

namespace ExactLinear

theorem CommandLine.exists_expressionText {us : List Term} (hn : ∀ u ∈ us, u.name.IsAlphabetic)
    (ho : ∀ u ∈ us, u.coefficient.HasOpposite) :
    ∃ s ts, expressionText us = .ok s ∧ Term.IsSumText s ts ∧
      (ts = us ∨ us = [] ∧ ts = [.constant .zero]) := by
  cases us with
  | nil =>
    have hzero : Fraction.zero.HasOpposite := by decide
    exact ⟨"0", _, rfl, Term.isSumText_constant hzero, .inr ⟨rfl, rfl⟩⟩
  | cons u us =>
    obtain ⟨s, hs, hblanks⟩ := Term.exists_sumText hn ho
    exact ⟨s, u :: us, hs, ⟨hn, ho, hblanks⟩, .inl rfl⟩

namespace Equation

variable {e : Equation} {n : Name} {us : List Term}

theorem IsTidy.express? (he : e.IsTidy) (h : e.express? n = .ok (some us)) :
    IsTidy ⟨e.policy, us⟩ := by
  obtain ⟨left, t, right, r, hts, _, hr, hm⟩ := isMultiple_of_express? h
  have h0 := Fraction.value_ne_zero (Fraction.value_recip? hr).1
  exact (he.without hts).of_isMultiple (neg_ne_zero.2 (inv_ne_zero h0)) hm

theorem names_express? (he : e.IsCanonical) (h : e.express? n = .ok (some us)) :
    us.map Term.name = (e.terms.map Term.name).erase n := by
  obtain ⟨left, t, right, r, hts, rfl, _, hm⟩ := isMultiple_of_express? h
  have hnodup := he.nodup
  rw [hts, List.map_append, List.map_cons, List.nodup_middle, List.nodup_cons, List.mem_append,
    not_or] at hnodup
  calc us.map Term.name = (left ++ right).map Term.name := hm.names
    _ = (e.terms.map Term.name).erase t.name := by
      rw [hts, List.map_append, List.map_append, List.map_cons,
        List.erase_append_right _ hnodup.1.1, List.erase_cons_head]

/-- The equation is the variable less the sum, times the variable's coefficient. -/
theorem coefficientSum_express? (he : e.IsCanonical) (h : e.express? n = .ok (some us)) (m : Name) :
    coefficientSum m (e.terms.map Term.monomial) = (e.coefficientOf n).value *
      ((if n = m then 1 else 0) - coefficientSum m (us.map Term.monomial)) := by
  obtain ⟨left, t, right, r, hts, rfl, _, hm⟩ := isMultiple_of_express? h
  obtain ⟨h0, hcoeff⟩ := (mem_terms_iff he).1 (show t ∈ e.terms by simp [hts])
  have hne := Fraction.value_ne_zero h0
  have hsum := hm.coefficientSum m
  dsimp only at hsum
  rw [hcoeff, hsum, hts]
  simp only [List.map_append, List.map_cons, coefficientSum_append, coefficientSum_cons,
    Term.monomial]
  split <;> field_simp <;> ring

/-- The division by the variable's coefficient is computed, since the opposites of the sum are. -/
theorem exists_unscale_of_express? (he : e.IsCanonical) (h : e.express? n = .ok (some us))
    (ho : ∀ u ∈ us, u.coefficient.HasOpposite) :
    ∃ r, e.unscale (e.coefficientOf n) = .ok r := by
  obtain ⟨left, t, right, y, hts, rfl, hy, hm⟩ := isMultiple_of_express? h
  obtain ⟨h0, hcoeff⟩ := (mem_terms_iff he).1 (show t ∈ e.terms by simp [hts])
  have hv := (Fraction.value_recip? hy).2
  have hne := Fraction.value_ne_zero h0
  have hquotient (w) (hw : w ∈ e.terms) :
      ∃ z : Fraction, z.value = w.coefficient.value * y.value := by
    rw [hts, List.mem_append, List.mem_cons] at hw
    by_cases hwt : w = t
    · exact ⟨.one, by rw [Fraction.value_one, hwt, hv, mul_inv_cancel₀ hne]⟩
    · have hw' : w ∈ left ++ right := by
        rw [List.mem_append]
        tauto
      obtain ⟨u, hu, _, hval⟩ := exists_of_forall₂ hm.terms.flip hw'
      obtain ⟨z, _, hz, _⟩ := Fraction.exists_neg (ho u hu)
      exact ⟨z, by rw [hz, hval, hv]; ring⟩
  obtain ⟨r, hr, _⟩ := exists_multiply (e := e) (x := y) (P := fun _ _ => True) fun w hw => by
    obtain ⟨z, hz⟩ := hquotient w hw
    refine ⟨z, by rw [Fraction.mul_eq_ofRat, Fraction.ofRat_eq_ok_iff, hz], ?_, trivial⟩
    rw [Ne, ← Fraction.value_eq_zero_iff, hz, hv]
    exact mul_ne_zero (Fraction.value_ne_zero (he.nonzero w hw)) (inv_ne_zero hne)
  exact ⟨r, by rw [hcoeff, unscale, hy]; exact hr⟩

theorem isAlphabetic_of_mem (ha : ∀ m ∈ e.unknowns, m.IsAlphabetic) {m : Name}
    (hm : m ∈ e.terms.map Term.name) : m.IsAlphabetic := by
  cases hb : m.isBlank with
  | true =>
    rw [Name.eq_blank_of_isBlank hb]
    simp [Name.IsAlphabetic, Name.blank]
  | false => exact ha m (mem_unknowns_iff_names.2 ⟨hm, hb⟩)

theorem exists_parse_isolated {ts : List Term} {s : String} (hb : n.isBlank = false)
    (hn : n.IsAlphabetic) (hs : Term.IsSumText s ts) (hnodup : (n :: ts.map Term.name).Nodup) :
    ∃ r, parse (n.text ++ " = " ++ s) = .ok r ∧ r.IsTidy ∧ ∀ m, (r.coefficientOf m).value =
      (if n = m then 1 else 0) - coefficientSum m (ts.map Term.monomial) := by
  obtain ⟨vs, hvs, hparse⟩ := parse_of_isSumText (Term.isSumText_name hb hn) hs
  rw [List.singleton_append] at hparse
  have hnames : (⟨.one, n⟩ :: vs : List Term).map Term.name = n :: ts.map Term.name :=
    congrArg (n :: ·) hvs.names
  rw [← hnames] at hnodup
  obtain ⟨r, hr, _⟩ := exists_ofTerms (hnodup.sublist (List.filter_sublist.map _))
  refine ⟨r, by rw [hparse, hr]; rfl, isTidy_empty.addTerms hr, fun m => ?_⟩
  have hopp := hvs.coefficientSum m
  dsimp only at hopp
  rw [value_coefficientOf_ofTerms hr, List.map_cons, coefficientSum_cons, hopp, Term.monomial,
    Fraction.value_one, neg_one_mul, sub_eq_add_neg]

theorem exists_parse_expressionText (he : e.IsTidy) (hp : e.policy.OrdersNames)
    (hn : n ∈ e.unknowns) (h : e.express? n = .ok (some us))
    (ha : ∀ m ∈ e.unknowns, m.IsAlphabetic) (ho : ∀ u ∈ us, u.coefficient.HasOpposite) :
    ∃ s r, CommandLine.expressionText us = .ok s ∧ parse (n.text ++ " = " ++ s) = .ok r ∧
      e.unscale (e.coefficientOf n) = .ok (r.withPolicy e.policy) := by
  have hb := isBlank_of_mem_unknowns hn
  have hnames := names_express? he.isCanonical h
  have hin (u) (hu : u ∈ us) : u.name.IsAlphabetic := by
    have hmem := List.mem_map_of_mem (f := Term.name) hu
    rw [hnames] at hmem
    exact isAlphabetic_of_mem ha (List.mem_of_mem_erase hmem)
  obtain ⟨s, ts, hs, htext, hts⟩ := CommandLine.exists_expressionText hin ho
  -- a zero that is written for no terms brings the blank name, but adds nothing
  have hnodup : (n :: ts.map Term.name).Nodup := by
    rcases hts with rfl | ⟨_, rfl⟩
    · rw [hnames]
      exact List.nodup_cons.2
        ⟨he.isCanonical.nodup.not_mem_erase, he.isCanonical.nodup.erase _⟩
    · have hne : n ≠ .blank := by
        rintro rfl
        cases hb
      simpa [Term.constant] using hne
  have hsum (m : Name) : coefficientSum m (ts.map Term.monomial) =
      coefficientSum m (us.map Term.monomial) := by
    rcases hts with rfl | ⟨rfl, rfl⟩
    · rfl
    · simp [Term.monomial, Term.constant]
  obtain ⟨r, hr, hrt, hvalue⟩ := exists_parse_isolated hb (ha n hn) htext hnodup
  obtain ⟨d, hd⟩ := exists_unscale_of_express? he.isCanonical h ho
  obtain ⟨h0, hm⟩ := isMultiple_of_unscale hd
  have hdt := he.unscale hd
  -- what was read and the quotient are canonical, so it is enough to compare their coefficients
  have hperm : r.terms.Perm d.terms := by
    refine perm_of_coefficientOf hrt.isCanonical hdt.isCanonical fun m => ?_
    apply Fraction.value_injective
    rw [hvalue, hsum, value_coefficientOf hdt.isCanonical.nodup, hm.coefficientSum,
      coefficientSum_express? he.isCanonical h, inv_mul_cancel_left₀ (Fraction.value_ne_zero h0)]
  refine ⟨s, r, hs, hr, ?_⟩
  rw [hd, ← hm.policy, hdt.withPolicy_eq_of_perm (hm.policy ▸ hp) hperm]

/-- Only overflow stops a variable from being expressed under a built-in policy. The sum has the
names of the other terms once each and in their order, the constant last, and no zeros among the
coefficients. The equation says that the variable is the sum. If the names can be read and no
numerator in the sum is `-2^63`, the variable, an equals sign and the text of the sum are read as
the equation with every coefficient divided by the variable's, once the terms are placed by the
same policy. -/
theorem express?_of_reachable {allowed : Policy → Prop} (h : e.Reachable allowed)
    (hp : e.policy.isBuiltIn) (hn : n ∈ e.unknowns) :
    (∀ f, e.express? n = .error f → f.IsOverflow) ∧
      ∀ us?, e.express? n = .ok us? → ∃ us, us? = some us ∧
        (us.map Term.name = (e.terms.map Term.name).erase n ∧ (us.map Term.name).Nodup) ∧
        (∀ u ∈ us, u.coefficient ≠ .zero) ∧ (us.Pairwise fun u _ => u.isConstant = false) ∧
        (∀ v, e.Satisfied v ↔ v n = Term.evalSum v us) ∧
        ((∀ m ∈ e.unknowns, m.IsAlphabetic) → (∀ u ∈ us, u.coefficient.HasOpposite) →
          ∃ s r, CommandLine.expressionText us = .ok s ∧ parse (n.text ++ " = " ++ s) = .ok r ∧
            e.unscale (e.coefficientOf n) = .ok (r.withPolicy e.policy) ∧
            IsMultiple (e.coefficientOf n).value⁻¹ e (r.withPolicy e.policy)) := by
  have ht := h.isTidy
  refine ⟨overflows_express? e n, fun us? hus => ?_⟩
  cases us? with
  | none => exact absurd (mem_unknowns_iff_names.1 hn).1 (express?_eq_none ht.isCanonical hus)
  | some us =>
    obtain ⟨hnodup, h0, hlast⟩ := (ht.express? hus).isCanonical
    obtain ⟨_, _, _, _, _, _, hsat⟩ := express?_eq_some (isBlank_of_mem_unknowns hn) hus
    refine ⟨us, rfl, ⟨names_express? ht.isCanonical hus, hnodup⟩, h0, hlast, hsat, fun ha ho => ?_⟩
    have hord := Policy.ordersNames_of_isBuiltIn hp
    obtain ⟨s, r, hs, hr, hd⟩ := exists_parse_expressionText ht hord hn hus ha ho
    exact ⟨s, r, hs, hr, hd, (isMultiple_of_unscale hd).2⟩

def halvesAndFour : List Term :=
  [⟨⟨3, 2, .inr (by decide)⟩, .ofText "a"⟩, ⟨.whole 4, .ofText "z"⟩,
    .constant ⟨-5, 2, .inr (by decide)⟩]

set_option maxRecDepth 8000 in
/-- In `2p - 3a = 8z - 5` the variable `p` is the half of the others, and in `2a = 0` nothing is
left for `a` to equal. -/
theorem express?_of_reachable_halves :
    let row := ofPairs .alphabetical [(-3, "a"), (2, "p"), (-8, "z"), (5, "")]
    let lone := ofPairs .descending [(2, "a")]
    row.Reachable (fun p => p.isBuiltIn) ∧ .ofText "p" ∈ row.unknowns ∧
      row.express? (.ofText "p") = .ok (some halvesAndFour) ∧
      (∀ v, row.Satisfied v ↔ v (.ofText "p") = Term.evalSum v halvesAndFour) ∧
      CommandLine.expressionText halvesAndFour = .ok "3/2 a + 4 z - 5/2" ∧
      (∃ r, parse "p = 3/2 a + 4 z - 5/2" = .ok r ∧
        row.unscale (.whole 2) = .ok (r.withPolicy .alphabetical)) ∧
      lone.Reachable (fun p => p.isBuiltIn) ∧ .ofText "a" ∈ lone.unknowns ∧
      lone.express? (.ofText "a") = .ok (some []) ∧ CommandLine.expressionText [] = .ok "0" ∧
      ∃ r, parse "a = 0" = .ok r ∧ lone.unscale (.whole 2) = .ok (r.withPolicy .descending) := by
  intro row lone
  have hread : parse "2p - 3a = 8z - 5" =
      .ok (ofPairs .descending [(-8, "z"), (2, "p"), (-3, "a"), (5, "")]) := by cbv
  have hallowed : Policy.alphabetical.isBuiltIn := rfl
  have hrow : row.Reachable fun p => p.isBuiltIn := .withPolicy hallowed (.parse hread)
  have hlone : lone.Reachable fun p => p.isBuiltIn := .of_terms (by cbv)
  have hp : .ofText "p" ∈ row.unknowns := by decide
  have ha : .ofText "a" ∈ lone.unknowns := by decide
  have hus : row.express? (.ofText "p") = .ok (some halvesAndFour) := by decide +kernel
  have hnone : lone.express? (.ofText "a") = .ok (some []) := by decide +kernel
  have hnames : row.unknowns.all fun n => n.text.toList.all Text.isAlphabetic := by decide +kernel
  have hnames' : lone.unknowns.all fun n => n.text.toList.all Text.isAlphabetic := by decide +kernel
  simp only [List.all_eq_true] at hnames hnames'
  obtain ⟨_, hexpress⟩ := express?_of_reachable hrow rfl hp
  obtain ⟨us, hsome, _, _, _, hsat, htext⟩ := hexpress _ hus
  obtain rfl := Option.some.inj hsome
  obtain ⟨s, r, hs, hr, hd, _⟩ := htext hnames (by decide)
  obtain ⟨_, hexpress'⟩ := express?_of_reachable hlone rfl ha
  obtain ⟨us', hsome', _, _, _, _, htext'⟩ := hexpress' _ hnone
  obtain rfl := Option.some.inj hsome'
  obtain ⟨s', r', hs', hr', hd', _⟩ := htext' hnames' (by simp)
  have hwritten : CommandLine.expressionText halvesAndFour = .ok "3/2 a + 4 z - 5/2" := by
    decide +kernel
  obtain rfl := Except.ok.inj (hs.symm.trans hwritten)
  obtain rfl : s' = "0" := Except.ok.inj hs'.symm
  have hcoeff : row.coefficientOf (.ofText "p") = .whole 2 := by decide +kernel
  have hcoeff' : lone.coefficientOf (.ofText "a") = .whole 2 := by decide +kernel
  rw [hcoeff] at hd
  rw [hcoeff'] at hd'
  exact ⟨hrow, hp, hus, hsat, hwritten, ⟨r, hr, hd⟩, hlone, ha, hnone, rfl, r', hr', hd'⟩

end Equation
end ExactLinear
