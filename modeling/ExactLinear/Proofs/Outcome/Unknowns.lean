import ExactLinear.Proofs.Elimination.Clashes
import ExactLinear.Proofs.Outcome.Solutions

/-! # Unknowns along a run

Rows lose variables to eliminations, substitutions and chance, but every variable that one row loses
is still in another. A run therefore keeps the unknowns, and once every row is directly solved each
of them has a value.
-/

namespace ExactLinear

theorem exists_readOff_of_solved {rows : List Equation} (s : Solution) (complete : Bool)
    (h : ∀ row ∈ rows, ∃ d, row.solution? = .ok (some d)) :
    ∃ a, readOff rows s complete = .ok (some (a, complete)) := by
  induction rows generalizing s with
  | nil => exact ⟨s, rfl⟩
  | cons row rest ih =>
    obtain ⟨⟨d, hd⟩, hrest⟩ := List.forall_mem_cons.1 h
    rw [readOff, Equation.isContradiction_of_solution? hd, hd]
    cases d with
    | trivial => exact ih s hrest
    | assignment n x => exact ih _ hrest

namespace LinearSystem

variable {s t r : LinearSystem}

theorem exists_solved_of_eliminate (hs : s.IsTidy) {passes : ℕ}
    (h : (s.eliminate passes).result = .ok (r, .finished))
    (hd : ∀ row ∈ r.equations, ∃ d, row.solution? = .ok (some d)) :
    ∃ a, (s.solve passes).result = .ok (r, some (.solved a)) ∧ a.known.keys = s.unknowns := by
  obtain ⟨hev, _, hfin⟩ := evolves_of_eliminate h
  obtain ⟨hset, hun⟩ := hfin rfl
  have hread : ∃ o, Outcome.ofRows s.unknowns r.equations = .ok o := by
    obtain ⟨a, ha⟩ := exists_readOff_of_solved {} true hd
    rw [Outcome.ofRows, ha, ok_bind]
    dsimp only
    split <;> exact ⟨_, rfl⟩
  obtain ⟨o, ho⟩ := hread
  have hsolve : (s.solve passes).result = .ok (r, some o) :=
    Logged.bind_result_eq_ok.2 ⟨_, h, Logged.bind_result_eq_ok.2 ⟨o, ho, rfl⟩⟩
  cases answers_of_ofRows hev (hev.isTidy hs) hset hun ho with
  | inconsistent hc => exact absurd hc hset.not_clash
  | @solved a _ _ hk => exact ⟨a, hsolve, hk⟩
  | underdetermined _ _ hu =>
    obtain ⟨row, hrow, hnone⟩ := hu
    obtain ⟨d, hd⟩ := hd row hrow
    cases hnone.symm.trans hd

/-- Whatever the solver does to a system, and also where it meets a contradiction, the unknowns stay
the same. Where it finishes with every row directly solved or trivial they all have values. -/
theorem unknowns_of_leadsTo {allowed : Policy → Prop} (hs : s.Reachable allowed)
    (h : s.LeadsTo t) :
    t.unknowns = s.unknowns ∧ ∀ passes r, (t.eliminate passes).result = .ok (r, .finished) →
      (∀ row ∈ r.equations, ∃ d, row.solution? = .ok (some d)) →
        ∃ a, (t.solve passes).result = .ok (r, some (.solved a)) ∧ a.known.keys = s.unknowns := by
  have he := h.evolves
  refine ⟨he.unknowns, fun passes r hr hd => ?_⟩
  rw [← he.unknowns]
  exact exists_solved_of_eliminate (he.isTidy hs.isTidy) hr hd

def sumFirst : LinearSystem := .ofEquations [sumRow, firstRow]

/-- The second unknown leaves the second equation, and both unknowns have values in the end. -/
theorem unknowns_of_leadsTo_sumDifference :
    sumDifference.Reachable (fun p => p.isBuiltIn) ∧ sumDifference.LeadsTo sumFirst ∧
      sumFirst.unknowns = sumDifference.unknowns ∧
        ∃ r a, (sumFirst.solve 3).result = .ok (r, some (.solved a)) ∧
          a.known.keys = sumDifference.unknowns := by
  have hs := reachable_sumDifference fun p => p.isBuiltIn
  have hstep : sumDifference.LeadsTo sumFirst :=
    ⟨[.reduce], by cbv⟩
  have hfin := eliminate_result_of_eliminateWithin (s := sumFirst) (show
    eliminateWithin 3 3 _ = some ([.ofPairs .descending [(1, "y"), (-2, "")], firstRow], .finished)
      by cbv)
  have h := unknowns_of_leadsTo hs hstep
  obtain ⟨a, ha⟩ := h.2 3 _ hfin (by
    simp only [List.mem_cons, List.not_mem_nil, or_false, forall_eq_or_imp, forall_eq]
    exact ⟨⟨.assignment (.ofText "y") (.whole 2), by cbv⟩,
      ⟨.assignment (.ofText "x") (.whole 1), by cbv⟩⟩)
  exact ⟨hs, hstep, h.1, _, a, ha⟩

end LinearSystem
end ExactLinear
