import ExactLinear.Proofs.Reading.Forms
import ExactLinear.Proofs.Reading.Printing

/-! # Reading what was written

The text of an equation is read as the equation, once its terms are sorted as they were. A
contradiction is written with the size of its constant, so that one alone may come back with another
sign.
-/

namespace ExactLinear

def Term.nonzero (ts : List Term) : List Term := ts.filter fun t => !t.coefficient.isZero

theorem Term.nonzero_eq_self {ts : List Term} (h : ∀ t ∈ ts, t.coefficient ≠ .zero) :
    nonzero ts = ts := by
  refine List.filter_eq_self.2 fun t ht => ?_
  rw [Fraction.isZero_eq_false_iff.2 (h t ht)]
  rfl

theorem Term.nonzero_append (ts us : List Term) : nonzero (ts ++ us) = nonzero ts ++ nonzero us :=
  List.filter_append ..

theorem Term.monomial_injective : Function.Injective Term.monomial := by
  rintro ⟨x, m⟩ ⟨y, n⟩ h
  have hx : x = y := Fraction.value_injective (congrArg Prod.snd h)
  have hm : m = n := congrArg Prod.fst h
  rw [hx, hm]

theorem SideForm.monomials_true (s : SideForm) :
    s.monomials true = (s.monomials false).map fun m => (m.1, -m.2) := by
  simp [monomials]

namespace Equation

theorem exists_addTerms {e : Equation} {ts : List Term}
    (h : ((e.terms ++ Term.nonzero ts).map Term.name).Nodup) :
    ∃ r, e.addTerms ts = .ok r ∧ r.terms.Perm (e.terms ++ Term.nonzero ts) := by
  induction ts generalizing e with
  | nil => exact ⟨e, rfl, by simp [Term.nonzero]⟩
  | cons t ts ih =>
    cases hz : t.coefficient.isZero with
    | true =>
      have hskip : Term.nonzero (t :: ts) = Term.nonzero ts := by simp [Term.nonzero, hz]
      rw [hskip] at h ⊢
      obtain ⟨r, hr, hperm⟩ := ih h
      refine ⟨r, ?_, hperm⟩
      rw [addTerms, List.foldlM_cons, addTerm, if_pos hz]
      exact hr
    | false =>
      have hkeep : Term.nonzero (t :: ts) = t :: Term.nonzero ts := by simp [Term.nonzero, hz]
      rw [hkeep] at h ⊢
      have hsort : (e.policy.sort (e.terms ++ [t]) ++ Term.nonzero ts).Perm
          (e.terms ++ t :: Term.nonzero ts) := by
        simpa using (e.policy.sort_perm (e.terms ++ [t])).append_right (Term.nonzero ts)
      have hnew : t.name ∉ e.terms.map Term.name := by
        intro hmem
        rw [List.map_append, List.nodup_append] at h
        exact h.2.2 _ hmem _ (by simp) rfl
      obtain ⟨r, hr, hperm⟩ := ih (e := { e with terms := e.policy.sort (e.terms ++ [t]) })
        ((hsort.map _).nodup_iff.2 h)
      refine ⟨r, ?_, hperm.trans hsort⟩
      rw [addTerms, List.foldlM_cons, addTerm_of_notMem (Fraction.isZero_eq_false_iff.1 hz) hnew]
      exact hr

theorem perm_variableTerms {e : Equation} (h : e.IsCanonical) :
    e.terms.Perm (Term.nonzero (e.variableTerms ++ [.constant e.constant])) := by
  have hvars : Term.nonzero e.variableTerms = e.variableTerms :=
    Term.nonzero_eq_self fun t ht => h.nonzero t (List.mem_of_mem_filter ht)
  have hconst : Term.nonzero [.constant e.constant] = (e.terms.find? Term.isConstant).toList := by
    rw [constant]
    cases hf : e.terms.find? Term.isConstant with
    | none => rfl
    | some t =>
      have hc : t.isConstant := List.find?_some hf
      have hself : Term.constant t.coefficient = t := by
        rw [Term.constant, ← Name.eq_blank_of_isBlank hc]
      have h0 := h.nonzero t (List.mem_of_find?_eq_some hf)
      exact (congrArg (fun u => Term.nonzero [u]) hself).trans
        (Term.nonzero_eq_self (by simpa using h0))
  rw [Term.nonzero_append, hvars, hconst]
  exact perm_of_nodup h.nodup

theorem exists_ofTerms {ts : List Term} (h : ((Term.nonzero ts).map Term.name).Nodup) :
    ∃ r, ofTerms ts = .ok r ∧ r.terms.Perm (Term.nonzero ts) := by
  have hadd : ((([] : List Term) ++ Term.nonzero ts).map Term.name).Nodup := by simpa using h
  obtain ⟨r, hr, hperm⟩ := exists_addTerms (e := {}) hadd
  exact ⟨r, hr, by simpa using hperm⟩

theorem isMultiple_of_monomials {us vs : List Term}
    (h : vs.map Term.monomial = (us.map Term.monomial).map fun m => (m.1, -m.2)) :
    IsMultiple (-1) { terms := us } { terms := vs } := by
  rw [List.map_map, ← List.forall₂_eq_eq_eq, List.forall₂_map_left_iff,
    List.forall₂_map_right_iff] at h
  refine ⟨rfl, h.flip.imp fun u v huv => ⟨congrArg Prod.fst huv, ?_⟩⟩
  exact (congrArg Prod.snd huv).trans (neg_one_mul _).symm

/-- Two sums around an equals sign are read as the terms on the left and the opposites of those on
the right. -/
theorem parse_of_isSumText {l s : String} {ts us : List Term} (hl : Term.IsSumText l ts)
    (hs : Term.IsSumText s us) :
    ∃ vs, IsMultiple (-1) { terms := us } { terms := vs } ∧
      parse (l ++ " = " ++ s) = (ofTerms (ts ++ vs)).mapError .fault := by
  have hf : EquationForm.IsWellFormed ⟨Term.sumForm ts, some (Term.sumForm us)⟩ := by
    refine ⟨Term.isWellFormed_sumForm hl.isAlphabetic hl.hasOpposite, ?_⟩
    rintro _ ⟨⟩
    exact Term.isWellFormed_sumForm hs.isAlphabetic hs.hasOpposite
  have hform : EquationForm.IsFormOf ⟨Term.sumForm ts, some (Term.sumForm us)⟩
      (l ++ " = " ++ s) := by
    refine ⟨hf, ?_⟩
    rw [String.toList_append, String.toList_append, Text.removeBlanks_append,
      Text.removeBlanks_append, hl.removeBlanks, hs.removeBlanks,
      show Text.removeBlanks " = ".toList = ['='] from rfl]
    simpa [EquationForm.chars] using hf.splits
  obtain ⟨ws, hmono, hparse⟩ := parse_of_isFormOf hform
  rw [EquationForm.monomials, Option.getD_some, SideForm.monomials_true, Term.monomials_sumForm,
    Term.monomials_sumForm] at hmono
  obtain ⟨ts', vs, rfl, hts, hvs⟩ := List.map_eq_append_iff.1 hmono
  obtain rfl := List.map_injective_iff.2 Term.monomial_injective hts
  exact ⟨vs, isMultiple_of_monomials hvs, hparse⟩

/-- A sum and a constant on the other side are read as the sum with the opposite constant. -/
theorem exists_parse {ts : List Term} {x y : Fraction} {l : String} (hl : Term.IsSumText l ts)
    (hx : x.HasOpposite) (hy : y.value = -x.value)
    (hnodup : ((Term.nonzero (ts ++ [.constant y])).map Term.name).Nodup) :
    ∃ r, parse (l ++ " = " ++ x.text) = .ok r ∧
      r.terms.Perm (Term.nonzero (ts ++ [.constant y])) := by
  obtain ⟨vs, hvs, hparse⟩ := parse_of_isSumText hl (Term.isSumText_constant hx)
  obtain ⟨v, _, ⟨hname, hvalue⟩, hnil, rfl⟩ := List.forall₂_cons_left_iff.1 hvs.terms
  obtain rfl := List.forall₂_nil_left_iff.1 hnil
  obtain rfl : v = .constant y := by
    refine Term.monomial_injective (Prod.ext hname ?_)
    exact hvalue.trans ((neg_one_mul _).trans hy.symm)
  obtain ⟨r, hr, hperm⟩ := exists_ofTerms hnodup
  refine ⟨r, ?_, hperm⟩
  rw [hparse, hr]
  rfl

variable {e : Equation}

theorem hasOpposite_constantTerm (ho : ∀ t ∈ e.terms, t.coefficient.HasOpposite) :
    e.constant.HasOpposite := by
  rw [constant]
  cases h : e.terms.find? Term.isConstant with
  | none => exact (show Fraction.zero.HasOpposite by decide)
  | some t => exact ho t (List.mem_of_find?_eq_some h)

theorem constant_ne_zero_of_isContradiction (h : e.IsCanonical) (hc : e.isContradiction) :
    e.constant ≠ .zero := by
  obtain ⟨t, hts, ht⟩ := isContradiction_iff.1 hc
  simpa [constant, hts, ht] using h.nonzero t (by simp [hts])

theorem exists_parse_of_isContradiction (h : e.IsTidy) (hc : e.isContradiction)
    (ho : ∀ t ∈ e.terms, t.coefficient.HasOpposite) :
    ∃ s r x, e.text = .ok s ∧ parse s = .ok r ∧ x.value = |e.constant.value| ∧
      r.terms = [.constant x] := by
  obtain ⟨x, hx, hvalue, hox⟩ := Fraction.exists_abs (hasOpposite_constantTerm ho)
  have hne : x ≠ .zero := by
    rw [Ne, ← Fraction.value_eq_zero_iff, hvalue, abs_eq_zero, Fraction.value_eq_zero_iff]
    exact constant_ne_zero_of_isContradiction h.isCanonical hc
  have hterms : Term.nonzero ([.constant x] ++ [.constant .zero]) = [.constant x] := by
    simp [Term.nonzero, Term.constant, Fraction.isZero_eq_false_iff.2 hne]
  have hzero : Fraction.zero.HasOpposite := by decide
  obtain ⟨r, hr, hperm⟩ := exists_parse (Term.isSumText_constant hox) hzero
    (show Fraction.zero.value = _ by simp) (by rw [hterms]; simp)
  rw [hterms, List.perm_singleton] at hperm
  have htext : e.text = .ok (x.text ++ " = 0") := by
    obtain ⟨t, hts, _⟩ := isContradiction_iff.1 hc
    rw [text, if_neg (by simp [hts]), if_pos hc, hx]
    rfl
  rw [String.append_assoc] at hr
  exact ⟨_, r, x, htext, hr, hvalue, hperm⟩

theorem exists_parse_of_not_isContradiction (h : e.IsTidy) (hc : e.isContradiction = false)
    (hn : ∀ n ∈ e.unknowns, n.IsAlphabetic) (ho : ∀ t ∈ e.terms, t.coefficient.HasOpposite) :
    ∃ s r, e.text = .ok s ∧ parse s = .ok r ∧ r.terms.Perm e.terms := by
  cases hempty : e.terms.isEmpty with
  | true =>
    refine ⟨"", {}, by rw [text, if_pos hempty]; rfl, by cbv, ?_⟩
    rw [List.isEmpty_iff.1 hempty]
  | false =>
    have hnames (t) (ht : t ∈ e.variableTerms) : t.name.IsAlphabetic :=
      hn _ (List.mem_map_of_mem ht)
    have hcoeffs (t) (ht : t ∈ e.variableTerms) : t.coefficient.HasOpposite :=
      ho t (List.mem_of_mem_filter ht)
    obtain ⟨l, hl, hchars⟩ := Term.exists_sumText hnames hcoeffs
    obtain ⟨x, hx, hvalue, hox⟩ := Fraction.exists_neg (hasOpposite_constantTerm ho)
    have hperm := perm_variableTerms h.isCanonical
    obtain ⟨r, hr, hterms⟩ := exists_parse (y := e.constant) ⟨hnames, hcoeffs, hchars⟩ hox
      (by rw [hvalue, neg_neg]) ((hperm.map _).nodup_iff.1 h.isCanonical.nodup)
    refine ⟨_, r, ?_, hr, hterms.trans hperm.symm⟩
    rw [text, if_neg (by simp [hempty]), if_neg (by simp [hc]), hl, hx]
    rfl

/-- The text of an equation with readable names, in which no numerator is `-2^63`, is read as the
same equation, once its terms are placed by the same policy. Of a contradiction it keeps the size of
the constant and not its sign. -/
theorem parse_text {allowed : Policy → Prop} (h : e.Reachable allowed) (hp : e.policy.isBuiltIn)
    (hn : ∀ n ∈ e.unknowns, n.IsAlphabetic) (ho : ∀ t ∈ e.terms, t.coefficient.HasOpposite) :
    ∃ s r, e.text = .ok s ∧ parse s = .ok r ∧
      (e.isContradiction = false → (r.withPolicy e.policy == e) = true) ∧
      (e.isContradiction = true → ∃ x : Fraction, x.value = |e.constant.value| ∧
        (r.withPolicy e.policy).terms = [.constant x]) := by
  have ht := h.isTidy
  cases hc : e.isContradiction with
  | true =>
    obtain ⟨s, r, x, hs, hr, hx, hterms⟩ := exists_parse_of_isContradiction ht hc ho
    refine ⟨s, r, hs, hr, by simp, fun _ => ⟨x, hx, ?_⟩⟩
    rw [withPolicy, hterms]
    rfl
  | false =>
    obtain ⟨s, r, hs, hr, hperm⟩ := exists_parse_of_not_isContradiction ht hc hn ho
    refine ⟨s, r, hs, hr, fun _ => ?_, by simp⟩
    have hback := ht.withPolicy_eq_of_perm (Policy.ordersNames_of_isBuiltIn hp) hperm
    exact decide_eq_true (congrArg terms hback)

set_option maxRecDepth 8000 in
/-- Terms in the order of another policy come back as they are, and `-5 = 0` as `5 = 0`. -/
theorem parse_text_threeTerms :
    let row := ofPairs .alphabetical [(2, "x"), (-1, "y"), (3, "")]
    let wrong := ofPairs .descending [(-5, "")]
    (row.text = .ok "2 x - y = -3" ∧ ∃ r, parse "2 x - y = -3" = .ok r ∧
      (r.withPolicy .alphabetical == row)) ∧
    wrong.text = .ok "5 = 0" ∧ ∃ r x, parse "5 = 0" = .ok r ∧
      x.value = |(Fraction.whole (-5)).value| ∧
        (r.withPolicy .descending).terms = [.constant x] := by
  intro row wrong
  have hrow : row.Reachable fun p => p.isBuiltIn := by
    have hread : parse "2x - y + 3" = .ok (ofPairs .descending [(-1, "y"), (2, "x"), (3, "")]) := by
      cbv
    have hallowed : Policy.alphabetical.isBuiltIn := rfl
    exact .withPolicy hallowed (.parse hread)
  have hwrong : wrong.Reachable fun p => p.isBuiltIn :=
    .parse (show parse "-5" = .ok wrong by cbv)
  have hnames : row.unknowns.all fun n => n.text.toList.all Text.isAlphabetic := by cbv
  simp only [List.all_eq_true] at hnames
  obtain ⟨s, r, hs, hr, hback, _⟩ := parse_text hrow rfl hnames (by decide)
  have hnone : wrong.unknowns = [] := rfl
  obtain ⟨s', r', hs', hr', _, hback'⟩ := parse_text hwrong rfl (by simp [hnone]) (by decide)
  have htext : row.text = .ok "2 x - y = -3" := by decide +kernel
  have htext' : wrong.text = .ok "5 = 0" := by decide +kernel
  obtain rfl := Except.ok.inj (hs.symm.trans htext)
  obtain rfl := Except.ok.inj (hs'.symm.trans htext')
  obtain ⟨x, hx, hterms⟩ := hback' rfl
  exact ⟨⟨htext, r, hr, hback rfl⟩, htext', r', x, hr', hx, hterms⟩

end Equation
end ExactLinear
