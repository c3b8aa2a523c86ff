import ExactLinear.Proofs.Elimination.Steps

/-! # What a step keeps

A step replaces one row by the help of another, which stays. The new row is tidy, has the same
meaning wherever the other row holds, and differs in its variables by those of the other row only.
All else that elimination keeps follows: the valuations that satisfy the rows, and their variables.
-/

namespace ExactLinear

namespace Equation

theorem names_addition {p : Policy} {t : Term} {ts us : List Term} (h : Addition p t ts us)
    (n : Name) : (n ∈ us.map Term.name → n ∈ ts.map Term.name ∨ n = t.name) ∧
      (n ∈ ts.map Term.name → n ∈ us.map Term.name ∨ n = t.name) := by
  cases h with
  | nothing hz => exact ⟨.inl, .inl⟩
  | @merged l r u sum hz hn hs h0 =>
    have hsame : (l ++ u.withCoefficient sum :: r).map Term.name = (l ++ u :: r).map Term.name := by
      simp [Term.withCoefficient]
    rw [hsame]
    exact ⟨.inl, .inl⟩
  | @cancelled l r u hz hn hs =>
    simp only [List.map_append, List.map_cons, List.mem_append, List.mem_cons, hn]
    tauto
  | placed hz hn =>
    have hm := ((p.sort_perm (ts ++ [t])).map Term.name).mem_iff (a := n)
    simp only [List.map_append, List.map_cons, List.map_nil, List.mem_append,
      List.mem_singleton] at hm
    tauto

theorem names_addTerms {e r : Equation} {ts : List Term} (h : e.addTerms ts = .ok r) (n : Name) :
    (n ∈ r.terms.map Term.name → n ∈ e.terms.map Term.name ∨ n ∈ ts.map Term.name) ∧
      (n ∈ e.terms.map Term.name → n ∈ r.terms.map Term.name ∨ n ∈ ts.map Term.name) := by
  refine addTerms_induction (motive := fun d =>
    (n ∈ d.terms.map Term.name → n ∈ e.terms.map Term.name ∨ n ∈ ts.map Term.name) ∧
      (n ∈ e.terms.map Term.name → n ∈ d.terms.map Term.name ∨ n ∈ ts.map Term.name)) h
    ⟨.inl, .inl⟩ fun t ht d d' hd hadd => ?_
  have hn := names_addition (addition_of_addTerm hadd).2 n
  have ht' : n = t.name → n ∈ ts.map Term.name := fun h => h ▸ List.mem_map_of_mem ht
  tauto

theorem mem_unknowns_iff_names {e : Equation} {n : Name} :
    n ∈ e.unknowns ↔ n ∈ e.terms.map Term.name ∧ n.isBlank = false := by
  rw [unknowns_eq, List.mem_filter, Bool.not_eq_true']

end Equation

/-- The parts of a combination: the factor, the scaled source, and the sum that is simplified. -/
theorem combine_eq_ok {s d : LedRow} {c : Fraction} {e : Equation} (h : combine s d = .ok (c, e)) :
    ∃ (quotient factor : Fraction) (scaled sum : Equation),
      s.leader.coefficient.div d.leader.coefficient = .ok quotient ∧
        quotient.neg = .ok factor ∧ factor.recip? = .ok (some c) ∧
          s.row.unscale factor = .ok scaled ∧ d.row.addTerms scaled.terms = .ok sum ∧
            sum.simplify = .ok e := by
  obtain ⟨quotient, hq, h⟩ := bind_eq_ok.1 h
  obtain ⟨factor, hf, h⟩ := bind_eq_ok.1 h
  obtain ⟨c?, hc, h⟩ := bind_eq_ok.1 h
  cases c? with
  | none => cases h
  | some c' =>
    obtain ⟨scaled, hsc, h⟩ := bind_eq_ok.1 h
    obtain ⟨sum, hsum, h⟩ := bind_eq_ok.1 h
    obtain ⟨e', he, h⟩ := bind_eq_ok.1 h
    cases h
    exact ⟨quotient, factor, scaled, sum, hq, hf, hc, hsc, hsum, he⟩

/-- The new row is a positive multiple of the destination plus a multiple of the source. -/
theorem evalSum_combine {s d : LedRow} {c : Fraction} {e : Equation}
    (h : combine s d = .ok (c, e)) : ∃ q : ℚ, 0 < q ∧ ∀ v, Term.evalSum v e.terms =
      q * (Term.evalSum v d.row.terms + c.value * Term.evalSum v s.row.terms) := by
  obtain ⟨quotient, factor, scaled, sum, _, _, hc, hsc, hsum, he⟩ := combine_eq_ok h
  obtain ⟨q, hq, hm⟩ := Equation.isMultiple_of_simplify he
  refine ⟨q, hq, fun v => ?_⟩
  rw [hm.evalSum v, Equation.evalSum_addTerms v hsum,
    (Equation.isMultiple_of_unscale hsc).2.evalSum v, (Fraction.value_recip? hc).2]

/-- A row may take the place of another beside a source row. -/
structure Replaces (source row e : Equation) : Prop where
  policy : e.policy = row.policy
  isTidy : row.IsTidy → e.IsTidy
  satisfied : source.IsTidy → ∀ v, source.Satisfied v → (e.Satisfied v ↔ row.Satisfied v)
  of_unknowns : ∀ n ∈ e.unknowns, n ∈ row.unknowns ∨ n ∈ source.unknowns
  to_unknowns : ∀ n ∈ row.unknowns, n ∈ e.unknowns ∨ n ∈ source.unknowns

theorem replaces_of_combine {s d : LedRow} {c : Fraction} {e : Equation}
    (h : combine s d = .ok (c, e)) : Replaces s.row d.row e := by
  obtain ⟨quotient, factor, scaled, sum, _, _, _, hsc, hsum, he⟩ := combine_eq_ok h
  have hscaled := (Equation.isMultiple_of_unscale hsc).2.names
  have hnames := Equation.names_simplify he
  refine ⟨?_, fun hd => (hd.addTerms hsum).simplify he, fun _ v hs => ?_, fun n hn => ?_,
    fun n hn => ?_⟩
  · exact (Equation.policy_simplify he).trans (Equation.policy_addTerms hsum)
  · obtain ⟨q, hq, hv⟩ := evalSum_combine h
    have hs0 : Term.evalSum v s.row.terms = 0 := hs
    rw [Equation.Satisfied, hv v, hs0, mul_zero, add_zero, mul_eq_zero, or_iff_right hq.ne']
    rfl
  · rw [Equation.mem_unknowns_iff_names, hnames] at hn
    simp only [Equation.mem_unknowns_iff_names]
    have hadd := (Equation.names_addTerms hsum n).1
    rw [hscaled] at hadd
    tauto
  · rw [Equation.mem_unknowns_iff_names] at hn
    simp only [Equation.mem_unknowns_iff_names, hnames]
    have hadd := (Equation.names_addTerms hsum n).2
    rw [hscaled] at hadd
    tauto

theorem replaces_of_substitute? {source row e : Equation} {n : Name} {x : Fraction}
    (hs : source.Assigns n x) (h : row.substitute? n x = .ok (some e)) :
    Replaces source row e := by
  have hn := Equation.isBlank_of_solution? hs
  have hperm := Equation.unknowns_substitute? hn h
  refine ⟨Equation.policy_substitute? h, fun hr => hr.substitute? h, fun hts v hv => ?_,
    fun m hm => .inl (hperm.mem_iff.2 (by simp [hm])), fun m hm => ?_⟩
  · have hval := (Equation.satisfied_of_solution?_assignment hts.isCanonical hs v).1 hv
    exact Equation.satisfied_substitute? h ((v.weight_of_isBlank_eq_false hn).trans hval)
  · rw [Equation.unknowns_of_solution?_assignment hs, List.mem_singleton]
    exact (List.mem_cons.1 (hperm.mem_iff.1 hm)).symm

theorem RowStep.exists_replaces {rows rows' : List Equation} (h : RowStep rows rows') :
    ∃ (i j : ℕ) (source row e : Equation), i ≠ j ∧ rows[i]? = some source ∧
      rows[j]? = some row ∧ rows' = rows.set j e ∧ Replaces source row e := by
  cases h with
  | @substituted i j source row e n x hi hs hij hj hu he =>
    exact ⟨i, j, source, row, e, hij, hi, hj, rfl, replaces_of_substitute? hs he⟩
  | @reduced s d c e hs hd hlt hn he =>
    exact ⟨s.index, d.index, s.row, d.row, e, hlt.ne, hs.row, hd.row, rfl, replaces_of_combine he⟩

theorem mem_iff_of_getElem? {rows : List Equation} {j : ℕ} {row : Equation}
    (hj : rows[j]? = some row) {a : Equation} :
    a ∈ rows ↔ a = row ∨ ∃ k, k ≠ j ∧ rows[k]? = some a := by
  rw [List.mem_iff_getElem?]
  constructor
  · rintro ⟨k, hk⟩
    by_cases hkj : k = j
    · subst hkj
      exact .inl (Option.some.inj (hk.symm.trans hj))
    · exact .inr ⟨k, hkj, hk⟩
  · rintro (rfl | ⟨k, _, hk⟩)
    · exact ⟨j, hj⟩
    · exact ⟨k, hk⟩

theorem mem_set_iff {rows : List Equation} {j : ℕ} {row e : Equation} (hj : rows[j]? = some row)
    {a : Equation} : a ∈ rows.set j e ↔ a = e ∨ ∃ k, k ≠ j ∧ rows[k]? = some a := by
  obtain ⟨hlt, _⟩ := List.getElem?_eq_some_iff.1 hj
  rw [mem_iff_of_getElem? (List.getElem?_set_self hlt)]
  have hk (k : ℕ) : k ≠ j ∧ (rows.set j e)[k]? = some a ↔ k ≠ j ∧ rows[k]? = some a :=
    and_congr_right fun h => by rw [List.getElem?_set_ne h.symm]
  simp only [hk]

def AreTidy (p : Policy) (rows : List Equation) : Prop := ∀ e ∈ rows, e.policy = p ∧ e.IsTidy

def AreSatisfied (v : Valuation) (rows : List Equation) : Prop := ∀ e ∈ rows, e.Satisfied v

theorem RowStep.areTidy {p : Policy} {rows rows' : List Equation} (h : RowStep rows rows')
    (ht : AreTidy p rows) : AreTidy p rows' := by
  obtain ⟨i, j, source, row, e, _, _, hj, rfl, hr⟩ := h.exists_replaces
  intro a ha
  rcases (mem_set_iff hj).1 ha with rfl | ⟨k, _, hk⟩
  · obtain ⟨hp, hrow⟩ := ht row (List.mem_of_getElem? hj)
    exact ⟨hr.policy.trans hp, hr.isTidy hrow⟩
  · exact ht a (List.mem_of_getElem? hk)

theorem RowStep.areSatisfied_iff {p : Policy} {rows rows' : List Equation} (h : RowStep rows rows')
    (ht : AreTidy p rows) (v : Valuation) : AreSatisfied v rows' ↔ AreSatisfied v rows := by
  obtain ⟨i, j, source, row, e, hij, hi, hj, rfl, hr⟩ := h.exists_replaces
  have hts := (ht source (List.mem_of_getElem? hi)).2
  constructor
  · intro hs a ha
    have hsource : source.Satisfied v := hs source ((mem_set_iff hj).2 (.inr ⟨i, hij, hi⟩))
    rcases (mem_iff_of_getElem? hj).1 ha with rfl | hk
    · exact (hr.satisfied hts v hsource).1 (hs e ((mem_set_iff hj).2 (.inl rfl)))
    · exact hs a ((mem_set_iff hj).2 (.inr hk))
  · intro hs a ha
    rcases (mem_set_iff hj).1 ha with rfl | ⟨k, _, hk⟩
    · exact (hr.satisfied hts v (hs source (List.mem_of_getElem? hi))).2
        (hs row (List.mem_of_getElem? hj))
    · exact hs a (List.mem_of_getElem? hk)

/-- A step neither loses nor invents a variable. -/
theorem RowStep.exists_mem_unknowns_iff {rows rows' : List Equation} (h : RowStep rows rows')
    (n : Name) : (∃ e ∈ rows', n ∈ e.unknowns) ↔ ∃ e ∈ rows, n ∈ e.unknowns := by
  obtain ⟨i, j, source, row, e, hij, hi, hj, rfl, hr⟩ := h.exists_replaces
  have hsource : source ∈ rows.set j e := (mem_set_iff hj).2 (.inr ⟨i, hij, hi⟩)
  constructor
  · rintro ⟨a, ha, hn⟩
    rcases (mem_set_iff hj).1 ha with rfl | ⟨k, _, hk⟩
    · rcases hr.of_unknowns n hn with hn | hn
      · exact ⟨row, List.mem_of_getElem? hj, hn⟩
      · exact ⟨source, List.mem_of_getElem? hi, hn⟩
    · exact ⟨a, List.mem_of_getElem? hk, hn⟩
  · rintro ⟨a, ha, hn⟩
    rcases (mem_iff_of_getElem? hj).1 ha with rfl | hk
    · rcases hr.to_unknowns n hn with hn | hn
      · exact ⟨e, (mem_set_iff hj).2 (.inl rfl), hn⟩
      · exact ⟨source, hsource, hn⟩
    · exact ⟨a, (mem_set_iff hj).2 (.inr hk), hn⟩

/-- A step makes its new row by operations on the old one. -/
theorem RowStep.reachable {allowed : Policy → Prop} {rows rows' : List Equation}
    (h : RowStep rows rows') (hr : ∀ e ∈ rows, e.Reachable allowed) :
    ∀ e ∈ rows', e.Reachable allowed := by
  intro a ha
  cases h with
  | substituted hi hs hij hj hu he =>
    rcases List.mem_or_eq_of_mem_set ha with ha | rfl
    · exact hr a ha
    · exact .substitute (hr _ (List.mem_of_getElem? hj)) he
  | reduced hs hd hlt hn he =>
    rcases List.mem_or_eq_of_mem_set ha with ha | rfl
    · exact hr a ha
    · obtain ⟨_, _, scaled, sum, _, _, _, _, hsum, he⟩ := combine_eq_ok he
      exact .simplify (.addTerms (hr _ (List.mem_of_getElem? hd.row)) hsum) he

namespace RowSteps

variable {rows rows' : List Equation} {p : Policy}

theorem reachable {allowed : Policy → Prop} (h : RowSteps rows rows')
    (hr : ∀ e ∈ rows, e.Reachable allowed) : ∀ e ∈ rows', e.Reachable allowed := by
  induction h with
  | refl => exact hr
  | tail _ hstep ih => exact hstep.reachable ih

theorem areTidy (h : RowSteps rows rows') (ht : AreTidy p rows) : AreTidy p rows' := by
  induction h with
  | refl => exact ht
  | tail _ hstep ih => exact hstep.areTidy ih

theorem areSatisfied_iff (h : RowSteps rows rows') (ht : AreTidy p rows) (v : Valuation) :
    AreSatisfied v rows' ↔ AreSatisfied v rows := by
  induction h with
  | refl => exact Iff.rfl
  | tail hsteps hstep ih => exact (hstep.areSatisfied_iff (areTidy hsteps ht) v).trans ih

theorem length_eq (h : RowSteps rows rows') : rows'.length = rows.length := by
  induction h with
  | refl => rfl
  | tail _ hstep ih =>
    obtain ⟨_, _, _, _, _, _, _, _, rfl, _⟩ := hstep.exists_replaces
    rw [List.length_set, ih]

theorem exists_mem_unknowns_iff (h : RowSteps rows rows') (n : Name) :
    (∃ e ∈ rows', n ∈ e.unknowns) ↔ ∃ e ∈ rows, n ∈ e.unknowns := by
  induction h with
  | refl => exact Iff.rfl
  | tail _ hstep ih => exact (hstep.exists_mem_unknowns_iff n).trans ih

end RowSteps

theorem not_areSatisfied_of_clash {p : Policy} {rows : List Equation} (ht : AreTidy p rows)
    (h : Clash rows) (v : Valuation) : ¬AreSatisfied v rows := by
  intro hs
  rcases h with ⟨row, hr, hc⟩ | ⟨a, ha, b, hb, n, x, y, hx, hy, hne⟩
  · exact Equation.not_satisfied_of_isContradiction (ht row hr).2.isCanonical hc v (hs row hr)
  · have hca := (ht a ha).2.isCanonical
    have hcb := (ht b hb).2.isCanonical
    have hvx := (Equation.satisfied_of_solution?_assignment hca hx v).1 (hs a ha)
    have hvy := (Equation.satisfied_of_solution?_assignment hcb hy v).1 (hs b hb)
    exact hne (Fraction.value_injective (hvx.symm.trans hvy))

end ExactLinear
