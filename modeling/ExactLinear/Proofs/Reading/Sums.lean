import ExactLinear.Equation.Lexemes
import ExactLinear.Proofs.Equation.Tidy

/-! # Sums of like terms

Adding terms up sums the coefficients of every name, from left to right. It fails where one of these
sums, over the terms up to some point, has no stored form.
-/

namespace ExactLinear

abbrev Monomial := Name × ℚ

def Term.monomial (t : Term) : Monomial := (t.name, t.coefficient.value)

def TermForm.monomial (t : TermForm) : Monomial := (t.name, t.value)

def SideForm.monomials (negated : Bool) (s : SideForm) : List Monomial :=
  s.map fun t => (t.name, if negated then -t.value else t.value)

/-- The terms on the left and the opposites of those on the right. -/
def EquationForm.monomials (e : EquationForm) : List Monomial :=
  e.left.monomials false ++ (e.right.getD []).monomials true

/-- The sum of the coefficients of a name. -/
def coefficientSum (n : Name) (ms : List Monomial) : ℚ :=
  (ms.map fun m => if m.1 = n then m.2 else 0).sum

@[simp] theorem coefficientSum_nil (n : Name) : coefficientSum n [] = 0 := rfl

@[simp] theorem coefficientSum_cons (n : Name) (m : Monomial) (ms : List Monomial) :
    coefficientSum n (m :: ms) = (if m.1 = n then m.2 else 0) + coefficientSum n ms := by
  simp [coefficientSum]

@[simp] theorem coefficientSum_append (n : Name) (ms ms' : List Monomial) :
    coefficientSum n (ms ++ ms') = coefficientSum n ms + coefficientSum n ms' := by
  simp [coefficientSum]

theorem coefficientSum_perm (n : Name) {ms ms' : List Monomial} (h : ms.Perm ms') :
    coefficientSum n ms = coefficientSum n ms' := (h.map _).sum_eq

theorem coefficientSum_eq_zero {n : Name} {ms : List Monomial} (h : ∀ m ∈ ms, m.1 ≠ n) :
    coefficientSum n ms = 0 := by
  induction ms with
  | nil => rfl
  | cons m ms ih =>
    obtain ⟨hm, hs⟩ := List.forall_mem_cons.1 h
    simp [hm, ih hs]

theorem SideForm.coefficientSum_monomials (negated : Bool) (n : Name) (s : SideForm) :
    coefficientSum n (s.monomials negated) =
      if negated then -s.coefficientOf n else s.coefficientOf n := by
  induction s with
  | nil => simp [monomials, coefficientOf]
  | cons t s ih =>
    rw [monomials, List.map_cons, ← monomials, coefficientSum_cons, ih, coefficientOf]
    cases negated
    · simp
    · simp only [if_true, neg_add]
      split <;> simp

theorem EquationForm.coefficientSum_monomials (n : Name) (e : EquationForm) :
    coefficientSum n e.monomials = e.coefficientOf n := by
  rw [monomials, coefficientSum_append, SideForm.coefficientSum_monomials,
    SideForm.coefficientSum_monomials, coefficientOf]
  cases e.right with
  | none => simp [SideForm.coefficientOf]
  | some s => simp [sub_eq_add_neg]

namespace Equation

theorem constant_eq_coefficientOf (e : Equation) : e.constant = e.coefficientOf .blank := by
  have hblank (t : Term) : t.isConstant = decide (t.name = .blank) := by
    rw [Bool.eq_iff_iff, decide_eq_true_iff]
    exact ⟨Name.eq_blank_of_isBlank, fun h => by rw [Term.isConstant, h]; rfl⟩
  rw [constant, coefficientOf, funext hblank]

theorem value_coefficientOf {e : Equation} (h : (e.terms.map Term.name).Nodup) (n : Name) :
    (e.coefficientOf n).value = coefficientSum n (e.terms.map Term.monomial) := by
  rw [coefficientOf]
  generalize e.terms = ts at h
  induction ts with
  | nil => simp
  | cons t ts ih =>
    rw [List.map_cons, List.nodup_cons] at h
    rw [List.map_cons, coefficientSum_cons, List.find?_cons]
    by_cases hn : t.name = n
    · have hrest : coefficientSum n (ts.map Term.monomial) = 0 := by
        refine coefficientSum_eq_zero ?_
        rintro _ hm rfl
        obtain ⟨u, hu, rfl⟩ := List.mem_map.1 hm
        exact h.1 (hn ▸ List.mem_map_of_mem hu)
      simp [hn, hrest, Term.monomial]
    · simpa [hn, Term.monomial] using ih h.2

theorem coefficientSum_addition {p : Policy} {t : Term} {ts us : List Term}
    (h : Addition p t ts us) (n : Name) : coefficientSum n (us.map Term.monomial) =
      coefficientSum n (ts.map Term.monomial) + if t.name = n then t.coefficient.value else 0 := by
  cases h with
  | nothing hz => simp [hz]
  | @merged l r u sum hz hn hs h0 =>
    have hv := Fraction.value_add hs
    simp only [List.map_append, List.map_cons, coefficientSum_append, coefficientSum_cons,
      Term.monomial, Term.withCoefficient, hn, hv]
    split <;> ring
  | @cancelled l r u hz hn hs =>
    have hv := Fraction.value_add hs
    rw [Fraction.value_zero] at hv
    simp only [List.map_append, List.map_cons, coefficientSum_append, coefficientSum_cons,
      Term.monomial, hn]
    split
    · linear_combination hv
    · ring
  | placed hz hn =>
    rw [coefficientSum_perm n ((p.sort_perm _).map _)]
    simp [Term.monomial]

theorem coefficientSum_addTerms {e r : Equation} {ts : List Term} (h : e.addTerms ts = .ok r)
    (n : Name) : coefficientSum n (r.terms.map Term.monomial) =
      coefficientSum n (e.terms.map Term.monomial) + coefficientSum n (ts.map Term.monomial) := by
  induction ts generalizing e with
  | nil => cases h; simp
  | cons t ts ih =>
    rw [addTerms, List.foldlM_cons] at h
    obtain ⟨d, hd, h⟩ := bind_eq_ok.1 h
    rw [ih h, coefficientSum_addition (addition_of_addTerm hd).2, List.map_cons,
      coefficientSum_cons, add_assoc]
    rfl

theorem IsMultiple.coefficientSum {q : ℚ} {e r : Equation} (h : IsMultiple q e r) (n : Name) :
    coefficientSum n (r.terms.map Term.monomial) =
      q * coefficientSum n (e.terms.map Term.monomial) := by
  obtain ⟨p, ts⟩ := e
  obtain ⟨p', us⟩ := r
  have ht := h.terms
  dsimp only at ht ⊢
  clear h
  induction ht with
  | nil => simp
  | @cons t u _ _ hu _ ih =>
    rw [List.map_cons, List.map_cons, coefficientSum_cons, coefficientSum_cons, ih, mul_add]
    by_cases hn : t.name = n <;> simp [Term.monomial, hu.1, hu.2, hn]

/-- The coefficients of an equation are the sums over the terms that it was made of. -/
theorem value_coefficientOf_ofTerms {e : Equation} {ts : List Term} (h : ofTerms ts = .ok e)
    (n : Name) : (e.coefficientOf n).value = coefficientSum n (ts.map Term.monomial) := by
  have htidy : e.IsTidy := isTidy_empty.addTerms h
  rw [value_coefficientOf htidy.isCanonical.nodup, coefficientSum_addTerms h]
  simp

theorem merge?_eq_error {t : Term} {ts : List Term} {f : Fault} (h : merge? t ts = .error f) :
    ∃ l u r, ts = l ++ u :: r ∧ u.name = t.name ∧ u.coefficient.add t.coefficient = .error f := by
  induction ts with
  | nil => cases h
  | cons u r ih =>
    rw [merge?] at h
    split at h
    · next hn =>
      rcases bind_eq_error.1 h with h | ⟨_, _, h⟩
      · exact ⟨[], u, r, rfl, hn, h⟩
      · cases h
    · rcases bind_eq_error.1 h with h | ⟨_, _, h⟩
      · obtain ⟨l, w, r, rfl, hn, h⟩ := ih h
        exact ⟨u :: l, w, r, rfl, hn, h⟩
      · cases h

theorem ofRat_of_addTerm {e : Equation} {t : Term} {f : Fault}
    (he : (e.terms.map Term.name).Nodup) (h : e.addTerm t = .error f) :
    Fraction.ofRat (coefficientSum t.name (e.terms.map Term.monomial) + t.coefficient.value) =
      .error f := by
  have hm : merge? t e.terms = .error f := by
    rw [addTerm] at h
    split at h
    · cases h
    · rcases bind_eq_error.1 h with h | ⟨m, _, h⟩
      · exact h
      · cases m <;> cases h
  obtain ⟨l, u, r, hts, hn, hadd⟩ := merge?_eq_error hm
  rw [hts, List.map_append, List.map_cons, List.nodup_append, List.nodup_cons] at he
  obtain ⟨_, ⟨hr, _⟩, hl⟩ := he
  have hzero {ts : List Term} (hts : ∀ w ∈ ts, w.name ≠ t.name) :
      coefficientSum t.name (ts.map Term.monomial) = 0 := by
    refine coefficientSum_eq_zero fun m hm => ?_
    obtain ⟨w, hw, rfl⟩ := List.mem_map.1 hm
    exact hts w hw
  have hl0 := hzero fun w hw => hn ▸ hl w.name (List.mem_map_of_mem hw) u.name (by simp)
  have hr0 := hzero fun w hw hwn => hr (hn ▸ hwn ▸ List.mem_map_of_mem hw)
  rw [Fraction.add_eq_ofRat] at hadd
  simpa [hts, hl0, hr0, Term.monomial, hn] using hadd

/-- Terms are not added up only if a sum over the first of them has no stored form. -/
theorem ofRat_of_addTerms {e : Equation} {ts : List Term} {f : Fault} (he : e.IsTidy)
    (h : e.addTerms ts = .error f) : ∃ l t r, ts = l ++ t :: r ∧
      Fraction.ofRat (coefficientSum t.name (e.terms.map Term.monomial) +
        coefficientSum t.name ((l ++ [t]).map Term.monomial)) = .error f := by
  induction ts generalizing e with
  | nil => cases h
  | cons t ts ih =>
    rw [addTerms, List.foldlM_cons] at h
    rcases bind_eq_error.1 h with h | ⟨d, hd, h⟩
    · refine ⟨[], t, ts, rfl, ?_⟩
      simpa [Term.monomial] using ofRat_of_addTerm he.isCanonical.nodup h
    · obtain ⟨l, u, r, rfl, hsum⟩ := ih (he.addTerm hd) h
      refine ⟨t :: l, u, r, rfl, ?_⟩
      rw [coefficientSum_addition (addition_of_addTerm hd).2, add_assoc] at hsum
      simpa [Term.monomial] using hsum

end Equation
end ExactLinear
