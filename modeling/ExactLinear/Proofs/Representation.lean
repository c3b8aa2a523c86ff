import ExactLinear.Proofs.Outcome.Solutions

/-! # The form of equations

However an equation comes about, and whatever a solver has made of it, it has one term for each
name, its coefficients are in lowest terms and not zero, and its constant is last. The equations of
a system are under the policy of the system.
-/

namespace ExactLinear

/-- The form that every equation has. -/
structure Equation.IsNormal (e : Equation) : Prop where
  distinct : (e.terms.map Term.name).Nodup
  trimmed : ∀ t ∈ e.terms, Text.trim t.name.text = t.name.text
  lowest : ∀ t ∈ e.terms, t.coefficient.numerator ≠ 0 ∧ 0 < t.coefficient.denominator ∧
    t.coefficient.numerator.natAbs.Coprime t.coefficient.denominator
  constantLast : ∀ l t r, e.terms = l ++ t :: r → t.isConstant → r = []
  increasing : e.policy.isBuiltIn → e.terms.Pairwise fun t u => e.policy.compare t u = .lt

theorem Equation.IsTidy.isNormal {e : Equation} (h : e.IsTidy) : e.IsNormal := by
  have hc := h.isCanonical
  refine ⟨hc.nodup, fun t _ => t.name.isTrimmed, fun t ht => ?_, fun l t r he ht => ?_,
    fun hp => ?_⟩
  · exact Fraction.lowest_of_ne_zero (hc.nonzero t ht)
  · have hlast := hc.constantLast
    rw [he, List.pairwise_append, List.pairwise_cons] at hlast
    -- a term after the constant would make it a variable
    rw [List.eq_nil_iff_forall_not_mem]
    intro u hu
    simp [hlast.2.1.1 u hu] at ht
  · exact h.isStrictlySorted (Policy.ordersNames_of_isBuiltIn hp)

namespace LinearSystem

variable {allowed : Policy → Prop} {s r : LinearSystem}

theorem Reachable.append (hs : s.Reachable allowed) {es : List Equation}
    (he : ∀ e ∈ es, e.Reachable allowed) : (s.append es).Reachable allowed := by
  induction es generalizing s with
  | nil => exact hs
  | cons e es ih =>
    obtain ⟨he, hes⟩ := List.forall_mem_cons.1 he
    exact ih (hs.push he) hes

theorem Reachable.solve (hs : s.Reachable allowed) {passes : ℕ} {o : Option Outcome}
    (h : (s.solve passes).result = .ok (r, o)) : r.Reachable allowed := by
  obtain ⟨ending, he⟩ := eliminate_of_solve h
  exact hs.eliminate he

/-- Every equation that can be reached has the form, and so has every equation of a system that is
put together and solved in part or in full, which keeps the system's policy besides. -/
theorem isNormal_of_reachable (allowed : Policy → Prop) :
    (∀ e : Equation, e.Reachable allowed → e.IsNormal) ∧
      ∀ s : LinearSystem, s.Reachable allowed →
        (∀ e ∈ s.equations, e.IsNormal ∧ e.policy = s.policy) ∧
          (∀ es, (∀ e ∈ es, e.Reachable allowed) →
            ∀ e ∈ (s.append es).equations, e.IsNormal ∧ e.policy = (s.append es).policy) ∧
              ∀ passes r o, (s.solve passes).result = .ok (r, o) →
                ∀ e ∈ r.equations, e.IsNormal ∧ e.policy = r.policy := by
  have key (s : LinearSystem) (hs : s.Reachable allowed) :
      ∀ e ∈ s.equations, e.IsNormal ∧ e.policy = s.policy := by
    intro e he
    obtain ⟨hp, ht⟩ := hs.isTidy e he
    exact ⟨ht.isNormal, hp⟩
  refine ⟨fun e he => he.isTidy.isNormal, fun s hs => ⟨key s hs, fun es hes => ?_,
    fun passes r o hr => ?_⟩⟩
  · exact key _ (hs.append hes)
  · exact key r (hs.solve hr)

/-- The sum and the difference are solved by two equations of the form. -/
theorem isNormal_of_reachable_sumDifference :
    sumDifference.Reachable (fun p => p.isBuiltIn) ∧
      ∃ r, sumDifference.Returns r (.solved sumDifferenceValues) ∧ r.equations.length = 2 ∧
        ∀ e ∈ r.equations, e.IsNormal ∧ e.policy = .descending := by
  have hs := reachable_sumDifference fun p => p.isBuiltIn
  obtain ⟨passes, h⟩ := returns_sumDifference
  exact ⟨hs, _, ⟨passes, h⟩, rfl, ((isNormal_of_reachable _).2 _ hs).2.2 passes _ _ h⟩

end LinearSystem
end ExactLinear
