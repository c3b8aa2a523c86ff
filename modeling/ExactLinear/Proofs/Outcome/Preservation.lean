import ExactLinear.Proofs.Outcome.Solutions

/-! # Solution sets along a run

Whatever the policy, and in whatever order the operations of the solver are made, the valuations
that satisfy the system stay the same. What the run ends with is therefore true of the
system that it started from.
-/

namespace ExactLinear.LinearSystem

variable {s t r : LinearSystem}

theorem not_satisfied_of_answers (he : s.Evolves t) (hs : s.IsTidy) {passes : ℕ}
    (h : (t.solve passes).result = .ok (r, some .inconsistent)) (v : Valuation) :
    ¬s.Satisfied v := by
  obtain ⟨hr, hans⟩ := answers_of_solve (he.isTidy hs) h
  cases hans with
  | inconsistent hc => exact not_satisfied_of_clash (he.trans hr) hs hc v

theorem solutions_of_answers (he : s.Evolves t) (hs : s.IsTidy) {passes : ℕ} {a : Solution}
    (h : (t.solve passes).result = .ok (r, some (.solved a))) :
    a.known.keys = s.unknowns ∧ (∃! f, f ∈ s.solutions) ∧
      ∀ f, f ∈ s.solutions ↔ ∀ u, (a.known.get? u.1).map Fraction.value = some (f u) := by
  obtain ⟨hr, hans⟩ := answers_of_solve (he.isTidy hs) h
  cases hans with
  | solved hd hu hk =>
    rw [he.unknowns] at hk
    have her := he.trans hr
    exact ⟨hk, existsUnique_solution her hs hd hu hk, mem_solutions_iff_known her hs hd hu hk⟩

/-- Every operation of the solver, after any run of others and under any policy, keeps the satisfying
valuations, refutes the system where it meets a contradiction, and finds its only solution where it
has one for every unknown. -/
theorem satisfied_iff_of_leadsTo {allowed : Policy → Prop} (hs : s.Reachable allowed)
    (h : s.LeadsTo t) :
    (∀ v, t.Satisfied v ↔ s.Satisfied v) ∧
      (∀ r, t.substitute.result = .ok (r, .contradiction) →
        (∀ v, r.Satisfied v ↔ s.Satisfied v) ∧ ∀ v, ¬s.Satisfied v) ∧
      (∀ passes r ending, (t.eliminate passes).result = .ok (r, ending) →
        (∀ v, r.Satisfied v ↔ s.Satisfied v) ∧ (ending = .contradiction → ∀ v, ¬s.Satisfied v)) ∧
      ∀ r o, t.Returns r o →
        (∀ v, r.Satisfied v ↔ s.Satisfied v) ∧ (o = .inconsistent → ∀ v, ¬s.Satisfied v) ∧
          ∀ a, o = .solved a → a.known.keys = s.unknowns ∧ (∃! f, f ∈ s.solutions) ∧
            ∀ f, f ∈ s.solutions ↔ ∀ u, (a.known.get? u.1).map Fraction.value = some (f u) := by
  have ht := hs.isTidy
  have he := h.evolves
  refine ⟨he.satisfied_iff ht, fun r hr => ?_, fun passes r ending hr => ?_,
    fun r o hr => ?_⟩
  · obtain ⟨her, hclash⟩ := evolves_of_substitute hr
    have hsr := he.trans her
    exact ⟨hsr.satisfied_iff ht, not_satisfied_of_clash hsr ht (hclash rfl)⟩
  · obtain ⟨her, hclash, _⟩ := evolves_of_eliminate hr
    have hsr := he.trans her
    exact ⟨hsr.satisfied_iff ht, fun hc => not_satisfied_of_clash hsr ht (hclash hc)⟩
  · obtain ⟨passes, hr⟩ := hr
    obtain ⟨her, _⟩ := answers_of_solve (he.isTidy ht) hr
    refine ⟨(he.trans her).satisfied_iff ht, fun ho => ?_, fun a ho => ?_⟩
    · subst ho
      exact not_satisfied_of_answers he ht hr
    · subst ho
      exact solutions_of_answers he ht hr

def otherSumRow : Equation :=
  ⟨.descending, [⟨.one, .ofText "y"⟩, ⟨.one, .ofText "x"⟩, .constant .one]⟩

def oneRow : Equation := ⟨.descending, [.constant .one]⟩

/-- The sum of `x` and `y` cannot be three and minus one, as a reduction and a round of substitution
show. -/
theorem satisfied_iff_of_leadsTo_sums :
    Reachable (fun _ => True) (.ofEquations [sumRow, otherSumRow]) ∧
      LeadsTo (.ofEquations [sumRow, otherSumRow]) (.ofEquations [sumRow, oneRow]) ∧
        ∀ v, ¬Satisfied v (.ofEquations [sumRow, otherSumRow]) := by
  have hs : Reachable (fun _ => True) (.ofEquations [sumRow, otherSumRow]) :=
    .push (.push .empty (.of_terms (by cbv))) (.of_terms (by cbv))
  have hstep : LeadsTo (.ofEquations [sumRow, otherSumRow]) (.ofEquations [sumRow, oneRow]) :=
    ⟨[.reduce], by cbv⟩
  have hround : (substitute (.ofEquations [sumRow, oneRow])).result =
      .ok (.ofEquations [sumRow, oneRow], .contradiction) := by cbv
  exact ⟨hs, hstep, ((satisfied_iff_of_leadsTo hs hstep).2.1 _ hround).2⟩

end ExactLinear.LinearSystem
