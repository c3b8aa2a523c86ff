import ExactLinear.Elimination.Reduction
import ExactLinear.Proofs.Equation.Meaning
import ExactLinear.Proofs.Equation.Tidy

/-! # What one equation says

A direct solution of a canonical equation says exactly what the equation does. An equation without
one has two variables at least, and is led by one of them.
-/

namespace ExactLinear

namespace Fraction

/-- The root of `ax + c`, which is zero without a division if `c` is. -/
def root (a c : Fraction) : Except Fault Fraction :=
  if c = zero then .ok zero else do (← c.neg).div a

variable {a c x : Fraction} (ha : a ≠ zero)

include ha

theorem value_root (h : a.root c = .ok x) : x.value = -c.value / a.value := by
  rw [root] at h
  split at h
  · next hc => cases h; rw [hc, value_zero, neg_zero, zero_div]
  · obtain ⟨d, hd, h⟩ := bind_eq_ok.1 h
    rw [value_div ha h, value_neg hd]

theorem isOverflow_root {f : Fault} (h : a.root c = .error f) : f.IsOverflow := by
  rw [root] at h
  split at h
  · cases h
  · obtain h | ⟨d, _, h⟩ := bind_eq_error.1 h
    · exact isOverflow_neg h
    · exact isOverflow_div ha h

end Fraction

namespace Equation

variable {e : Equation}

theorem mem_unknowns {n : Name} :
    n ∈ e.unknowns ↔ ∃ t ∈ e.terms, t.isConstant = false ∧ t.name = n := by
  simp [unknowns, variableTerms, and_assoc]

theorem isBlank_of_mem_unknowns {n : Name} (h : n ∈ e.unknowns) : n.isBlank = false := by
  obtain ⟨t, _, ht, rfl⟩ := mem_unknowns.1 h
  exact ht

theorem satisfied_congr {v w : Valuation} (h : ∀ n ∈ e.unknowns, v n = w n) :
    e.Satisfied v ↔ e.Satisfied w := by
  have hsum : Term.evalSum v e.terms = Term.evalSum w e.terms :=
    Term.evalSum_congr fun t ht hc => h t.name (mem_unknowns.2 ⟨t, ht, hc, rfl⟩)
  rw [Satisfied, Satisfied, hsum]

theorem constants_of_nodup {t : Term} {ts : List Term} (h : ((t :: ts).map Term.name).Nodup)
    (ht : t.isConstant) : ∀ u ∈ ts, u.isConstant = false := by
  intro u hu
  by_contra hc
  rw [Bool.not_eq_false] at hc
  have hn : u.name = t.name :=
    (Name.eq_blank_of_isBlank hc).trans (Name.eq_blank_of_isBlank ht).symm
  rw [List.map_cons, List.nodup_cons] at h
  exact h.1 (hn ▸ List.mem_map_of_mem hu)

/-- The terms are the variables and the constant, if there is one. -/
theorem perm_of_nodup {ts : List Term} (h : (ts.map Term.name).Nodup) :
    ts.Perm ((ts.filter fun t => !t.isConstant) ++ (ts.find? Term.isConstant).toList) := by
  induction ts with
  | nil => exact .refl _
  | cons t ts ih =>
    cases ht : t.isConstant with
    | false => simpa [ht] using ih (List.nodup_cons.1 h).2
    | true =>
      have hall : ts.filter (fun u => !u.isConstant) = ts := by
        apply List.filter_eq_self.2
        intro u hu
        simp [constants_of_nodup h ht u hu]
      simpa [ht, hall] using (List.perm_append_singleton t ts).symm

theorem length_le_of_nodup {ts : List Term} (h : (ts.map Term.name).Nodup) :
    ts.length ≤ (ts.filter fun t => !t.isConstant).length + 1 := by
  rw [(perm_of_nodup h).length_eq, List.length_append]
  cases ts.find? Term.isConstant <;> simp

theorem evalSum_of_nodup (v : Valuation) {ts : List Term} (h : (ts.map Term.name).Nodup) :
    Term.evalSum v ts = Term.evalSum v (ts.filter fun t => !t.isConstant) +
      (((ts.find? Term.isConstant).map Term.coefficient).getD .zero).value := by
  rw [Term.evalSum_perm v (perm_of_nodup h), Term.evalSum_append]
  cases hf : ts.find? Term.isConstant with
  | none => simp
  | some t => simp [Term.eval, List.find?_some hf]

theorem evalSum_eq_add_constant (hc : e.IsCanonical) (v : Valuation) :
    Term.evalSum v e.terms = Term.evalSum v e.variableTerms + e.constant.value :=
  evalSum_of_nodup v hc.nodup

/-- Changing the value of a variable changes the sum in proportion to its coefficient. -/
theorem evalSum_update (hc : e.IsCanonical) {t : Term} (ht : t ∈ e.terms)
    (hv : t.isConstant = false) (v : Valuation) (x : ℚ) :
    Term.evalSum (Function.update v t.name x) e.terms =
      Term.evalSum v e.terms + t.coefficient.value * (x - v t.name) := by
  obtain ⟨l, r, he⟩ := List.append_of_mem ht
  have hnodup := hc.nodup
  rw [he, List.map_append, List.map_cons, List.nodup_middle, List.nodup_cons] at hnodup
  have hother (us : List Term) (hus : ∀ u ∈ us, u ∈ l ++ r) :
      Term.evalSum (Function.update v t.name x) us = Term.evalSum v us := by
    refine Term.evalSum_congr fun u hu _ => Function.update_of_ne (fun hn => ?_) _ _
    rw [← List.map_append, ← hn] at hnodup
    exact hnodup.1 (List.mem_map_of_mem (hus u hu))
  rw [he, Term.evalSum_append, Term.evalSum_append, Term.evalSum_cons, Term.evalSum_cons,
    hother l fun u hu => List.mem_append_left _ hu, hother r fun u hu => List.mem_append_right _ hu]
  simp only [Term.eval, hv, Bool.false_eq_true, if_false, Function.update_self]
  ring

theorem isContradiction_iff : e.isContradiction ↔ ∃ t, e.terms = [t] ∧ t.isConstant := by
  rw [isContradiction]
  split
  · next t ht => simp [ht]
  · next hne => simpa using fun t ht => absurd ht (hne t)

theorem not_satisfied_of_isContradiction (hc : e.IsCanonical) (h : e.isContradiction)
    (v : Valuation) : ¬e.Satisfied v := by
  obtain ⟨t, hts, ht⟩ := isContradiction_iff.1 h
  have h0 := Fraction.value_ne_zero (hc.nonzero t (by simp [hts]))
  simpa [Satisfied, Term.eval, hts, ht] using h0

theorem isContradiction_of_solution? {s : Option DirectSolution} (h : e.solution? = .ok s) :
    e.isContradiction = false := by
  rw [solution?] at h
  split at h
  · cases h
  · next hc => simpa using hc

theorem terms_of_solution?_trivial (h : e.solution? = .ok (some .trivial)) : e.terms = [] := by
  rw [solution?] at h
  split at h
  · cases h
  · split at h
    · next hl => exact List.length_eq_zero_iff.1 hl
    · cases h
    · obtain ⟨c, _, h⟩ := bind_eq_ok.1 h
      split at h <;> cases h
    · cases h

theorem satisfied_of_solution?_trivial (h : e.solution? = .ok (some .trivial)) (v : Valuation) :
    e.Satisfied v := by
  rw [Satisfied, terms_of_solution?_trivial h, Term.evalSum_nil]

theorem satisfied_of_variableTerms (hc : e.IsCanonical) {t : Term} (ht : e.variableTerms = [t])
    (v : Valuation) : t.isConstant = false ∧ t.coefficient ≠ .zero ∧
      (e.Satisfied v ↔ t.coefficient.value * v t.name + e.constant.value = 0) := by
  have hm : t ∈ e.variableTerms := by rw [ht]; exact List.mem_singleton.2 rfl
  obtain ⟨hmem, hv⟩ := List.mem_filter.1 hm
  rw [Bool.not_eq_true'] at hv
  refine ⟨hv, hc.nonzero t hmem, ?_⟩
  rw [Satisfied, evalSum_eq_add_constant hc, ht]
  simp [Term.eval, hv]

theorem unknowns_of_solution?_assignment {n : Name} {x : Fraction}
    (h : e.solution? = .ok (some (.assignment n x))) : e.unknowns = [n] := by
  rw [solution?] at h
  split at h
  · cases h
  · split at h
    · cases h
    · next ht => cases h; rw [unknowns, ht]; rfl
    · next ht =>
      obtain ⟨c, _, h⟩ := bind_eq_ok.1 h
      split at h
      · cases h; rw [unknowns, ht]; rfl
      · cases h
      · cases h
    · cases h

theorem terms_eq_nil_of_unknowns (hc : e.IsCanonical) (hcon : e.isContradiction = false)
    (h : e.unknowns = []) : e.terms = [] := by
  have hv : e.variableTerms = [] := List.map_eq_nil_iff.1 h
  have hlen : e.terms.length ≤ e.variableTerms.length + 1 := length_le_of_nodup hc.nodup
  cases hts : e.terms with
  | nil => rfl
  | cons t ts =>
    rw [hv, hts] at hlen
    have hnil : ts = [] := List.length_eq_zero_iff.1 (by simpa using hlen)
    have ht : t.isConstant := by
      by_contra hf
      simp [variableTerms, hts, hf] at hv
    simp [isContradiction, hts, hnil, ht] at hcon

theorem solution?_of_unknowns_eq_nil (hc : e.IsCanonical) (hcon : e.isContradiction = false)
    (h : e.unknowns = []) : e.solution? = .ok (some .trivial) := by
  rw [solution?, hcon, terms_eq_nil_of_unknowns hc hcon h]
  rfl

theorem length_of_variableTerms (hc : e.IsCanonical) {t : Term} (ht : e.variableTerms = [t]) :
    e.terms.length = if e.constant = .zero then 1 else 2 := by
  have hperm : e.terms.Perm (e.variableTerms ++ _) := perm_of_nodup hc.nodup
  rw [hperm.length_eq, ht, constant]
  cases hf : e.terms.find? Term.isConstant with
  | none => rfl
  | some u =>
    have hu := hc.nonzero u (List.mem_of_find?_eq_some hf)
    rw [Option.map_some, Option.getD_some, if_neg hu]
    rfl

/-- The direct solution for the only variable is the root of its term and the constant. -/
theorem solution?_of_variableTerms (hc : e.IsCanonical) {t : Term} (ht : e.variableTerms = [t]) :
    e.solution? = (fun x => some (.assignment t.name x)) <$> t.coefficient.root e.constant := by
  have hlen := length_of_variableTerms hc ht
  obtain ⟨hv, h0, _⟩ := satisfied_of_variableTerms hc ht 0
  have hcon : e.isContradiction = false := by
    by_contra hf
    obtain ⟨u, hu, huc⟩ := isContradiction_iff.1 (Bool.not_eq_false _ ▸ hf)
    simp [variableTerms, hu, huc] at ht
  rw [solution?, hcon, if_neg Bool.false_ne_true, ht, Fraction.root]
  split_ifs at hlen ⊢ with hz
  · rw [hlen]
    rfl
  · cases hneg : e.constant.neg with
    | error f => rw [hlen]; rfl
    | ok c =>
      simp only [hlen, ok_bind]
      cases hdiv : c.div t.coefficient with
      | ok x => rfl
      | error f => cases Fraction.isOverflow_div h0 hdiv <;> rfl

theorem solution?_of_two_le (h : 2 ≤ e.unknowns.length) : e.solution? = .ok none := by
  rw [unknowns, List.length_map] at h
  have hlen : e.variableTerms.length ≤ e.terms.length := List.length_filter_le _ _
  have hcon : e.isContradiction = false := by
    by_contra hf
    obtain ⟨u, hu, _⟩ := isContradiction_iff.1 (Bool.not_eq_false _ ▸ hf)
    simp only [hu, List.length_singleton] at hlen
    omega
  rw [solution?, hcon, if_neg Bool.false_ne_true]
  split
  · next h0 => omega
  · next ht => simp [ht] at h
  · next ht => simp [ht] at h
  · rfl

/-- Without a contradiction the direct solution goes by the number of variables. -/
theorem solution?_cases (hc : e.IsCanonical) (hcon : e.isContradiction = false) :
    (e.variableTerms = [] ∧ e.solution? = .ok (some .trivial)) ∨
      (∃ t, e.variableTerms = [t] ∧ t.coefficient ≠ .zero ∧
        e.solution? = (fun x => some (.assignment t.name x)) <$> t.coefficient.root e.constant) ∨
      2 ≤ e.unknowns.length ∧ e.solution? = .ok none := by
  rcases hv : e.variableTerms with _ | ⟨t, _ | ⟨u, ts⟩⟩
  · have hu : e.unknowns = [] := by rw [unknowns, hv]; rfl
    exact .inl ⟨rfl, solution?_of_unknowns_eq_nil hc hcon hu⟩
  · have h0 := (satisfied_of_variableTerms hc hv 0).2.1
    exact .inr (.inl ⟨t, rfl, h0, solution?_of_variableTerms hc hv⟩)
  · have hu : 2 ≤ e.unknowns.length := by simp [unknowns, hv]
    exact .inr (.inr ⟨hu, solution?_of_two_le hu⟩)

theorem satisfied_of_solution?_assignment (hc : e.IsCanonical) {n : Name} {x : Fraction}
    (h : e.solution? = .ok (some (.assignment n x))) (v : Valuation) :
    e.Satisfied v ↔ v n = x.value := by
  obtain ⟨t, ht, hn⟩ := List.map_eq_singleton_iff.1 (unknowns_of_solution?_assignment h)
  rw [solution?_of_variableTerms hc ht, map_eq_ok] at h
  obtain ⟨y, hy, h⟩ := h
  cases h
  obtain ⟨_, h0, hs⟩ := satisfied_of_variableTerms hc ht v
  rw [hs, Fraction.value_root h0 hy, eq_div_iff (Fraction.value_ne_zero h0)]
  constructor <;> intro hsum <;> linarith

theorem two_le_of_solution?_none (hc : e.IsCanonical) (h : e.solution? = .ok none) :
    2 ≤ e.unknowns.length := by
  obtain ⟨_, hs⟩ | ⟨t, _, _, hs⟩ | ⟨hu, _⟩ := solution?_cases hc (isContradiction_of_solution? h)
  · cases hs.symm.trans h
  · rw [hs, map_eq_ok] at h
    obtain ⟨_, _, h⟩ := h
    cases h
  · exact hu

theorem leader?_eq_some {t : Term} (h : e.leader? = .ok (some t)) :
    e.solution? = .ok none ∧ e.leadingTerm? = some t := by
  rw [leader?] at h
  split at h
  · cases h
  · obtain ⟨s, hs, h⟩ := bind_eq_ok.1 h
    cases s with
    | some _ => cases h
    | none => exact ⟨hs, Except.ok.inj h⟩

theorem leader?_of_solution?_none (h : e.solution? = .ok none) :
    e.leader? = .ok e.leadingTerm? := by
  rw [leader?, isContradiction_of_solution? h, h]
  rfl

theorem exists_leader (hc : e.IsCanonical) (h : e.solution? = .ok none) :
    ∃ t ts, e.terms = t :: ts ∧ t.isConstant = false ∧ t.name ∈ e.unknowns := by
  have h2 := two_le_of_solution?_none hc h
  cases hts : e.terms with
  | nil => simp [unknowns, variableTerms, hts] at h2
  | cons t ts =>
    have hv : t.isConstant = false := by
      have hlast := hc.constantLast
      rw [hts] at hlast
      cases ts with
      | nil =>
        by_contra hf
        simp [unknowns, variableTerms, hts, hf] at h2
      | cons u us => exact (List.pairwise_cons.1 hlast).1 u (by simp)
    exact ⟨t, ts, rfl, hv, mem_unknowns.2 ⟨t, by simp [hts], hv, rfl⟩⟩

theorem isMultiple_of_mapM (p : Policy) {x : Fraction} {ts us : List Term}
    (h : ts.mapM (fun u => u.scale x) = .ok us) : IsMultiple x.value ⟨p, ts⟩ ⟨p, us⟩ := by
  refine ⟨rfl, (forall₂_of_mapM h).imp fun t u hu => ?_⟩
  obtain ⟨y, hy, rfl⟩ := map_eq_ok.1 hu
  exact ⟨rfl, (Fraction.value_mul hy).trans (mul_comm _ _)⟩

/-- Expressing a name divides the other terms by the opposite of its coefficient. -/
theorem isMultiple_of_express? {n : Name} {us : List Term} (h : e.express? n = .ok (some us)) :
    ∃ left t right r, e.terms = left ++ t :: right ∧ t.name = n ∧
      t.coefficient.recip? = .ok (some r) ∧
        IsMultiple (-t.coefficient.value⁻¹) ⟨e.policy, left ++ right⟩ ⟨e.policy, us⟩ := by
  rw [express?] at h
  split at h
  · cases h
  · next t ts ht =>
    obtain ⟨left, right, he, rfl, hn⟩ := takeOut?_eq_some ht
    obtain ⟨r?, hr, h⟩ := bind_eq_ok.1 h
    cases r? with
    | none => cases h
    | some r =>
      obtain ⟨x, hx, h⟩ := bind_eq_ok.1 h
      obtain ⟨us', hus, h⟩ := bind_eq_ok.1 h
      cases h
      refine ⟨left, t, right, r, he, hn, hr, ?_⟩
      rw [← (Fraction.value_recip? hr).2, ← Fraction.value_neg hx]
      exact isMultiple_of_mapM e.policy hus

/-- The sum that a variable equals has the other terms' names in their order. -/
theorem express?_eq_some {n : Name} (hn : n.isBlank = false) {us : List Term}
    (h : e.express? n = .ok (some us)) :
    ∃ left t right, e.terms = left ++ t :: right ∧ t.name = n ∧
      us.map Term.name = (left ++ right).map Term.name ∧
        ∀ v, e.Satisfied v ↔ v n = Term.evalSum v us := by
  obtain ⟨left, t, right, r, he, rfl, hr, hm⟩ := isMultiple_of_express? h
  refine ⟨left, t, right, he, rfl, hm.names, fun v => ?_⟩
  have h0 := Fraction.value_ne_zero (Fraction.value_recip? hr).1
  have hsum := hm.evalSum v
  dsimp only at hsum
  rw [hsum, Satisfied, he, Term.evalSum_append, Term.evalSum_cons, Term.evalSum_append,
    Term.eval_eq, v.weight_of_isBlank_eq_false hn]
  field_simp
  constructor <;> intro h <;> linarith

theorem express?_eq_none (hc : e.IsCanonical) {n : Name} (h : e.express? n = .ok none) :
    n ∉ e.terms.map Term.name := by
  rw [express?] at h
  split at h
  · next ht => exact takeOut?_eq_none ht
  · next t ts ht =>
    obtain ⟨left, right, he, _, _⟩ := takeOut?_eq_some ht
    obtain ⟨r?, hr, h⟩ := bind_eq_ok.1 h
    cases r? with
    | none => exact absurd (Fraction.recip?_eq_none_iff.1 hr) (hc.nonzero t (by simp [he]))
    | some r =>
      obtain ⟨x, _, h⟩ := bind_eq_ok.1 h
      obtain ⟨us, _, h⟩ := bind_eq_ok.1 h
      cases h

end Equation
end ExactLinear
