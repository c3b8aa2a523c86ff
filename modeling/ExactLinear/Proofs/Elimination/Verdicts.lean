import ExactLinear.Proofs.Elimination.Clashes
import ExactLinear.Proofs.Elimination.Evaluation
import ExactLinear.Proofs.Failures.Solving

/-! # What a round says

The verdict of a round of substitution is right, whatever rows it rewrites on its way: it misses no
clash, rows that it leaves alone are settled, and a change takes a variable out of some row.
-/

namespace ExactLinear.LinearSystem

variable {s r : LinearSystem} {v : Verdict}

theorem substitutionRound_of_substitute (h : s.substitute.result = .ok (r, v)) :
    (substitutionRound s.equations).result = .ok (r.equations, v) ∧
      r = { s with equations := r.equations } := by
  obtain ⟨⟨rows, w⟩, hr, h⟩ := Logged.bind_result_eq_ok.1 h
  cases h
  exact ⟨hr, rfl⟩

theorem eq_of_substitute_unchanged (h : s.substitute.result = .ok (r, .unchanged)) : r = s := by
  obtain ⟨hr, hsame⟩ := substitutionRound_of_substitute h
  rw [hsame, (passes_substitutionRound hr).unchanged rfl]

/-- A round fails by overflow only. It finds every clash that it starts from, and what it calls a
contradiction is a clash. Without a change no equation contradicts itself, the direct solutions
agree, none of their variables is left in an equation without one, and the next round finds the
same. A change leaves fewer variable terms. -/
theorem verdict_of_substitute (s : LinearSystem) :
    (∀ allowed, s.Reachable allowed → ∀ f, s.substitute.result = .error f → f.IsOverflow) ∧
      ∀ r v, s.substitute.result = .ok (r, v) →
        (Clash s.equations → v = .contradiction) ∧ (v = .contradiction → Clash r.equations) ∧
        (v = .unchanged → r = s ∧ (∀ e ∈ s.equations, e.isContradiction = false) ∧
          (∀ a ∈ s.equations, ∀ b ∈ s.equations, ∀ n x, a.Assigns n x → b.IsUnsolved →
            n ∉ b.unknowns) ∧
          (∀ a ∈ s.equations, ∀ b ∈ s.equations, ∀ n x y, a.Assigns n x → b.Assigns n y →
            x = y) ∧
          r.substitute.result = .ok (r, .unchanged)) ∧
        (v = .changed → variableCount r.equations < variableCount s.equations) := by
  refine ⟨fun allowed hs f hf => (FailsWith.substitute hf).isOverflow hs.isTidy, fun r v h => ?_⟩
  obtain ⟨hr, _⟩ := substitutionRound_of_substitute h
  refine ⟨fun hc => hc.eq_contradiction hr, (passes_substitutionRound hr).clash, ?_, ?_⟩
  · rintro rfl
    obtain rfl := eq_of_substitute_unchanged h
    have hs := settled_of_substitutionRound hr
    exact ⟨rfl, fun e he => hs.isContradiction_eq_false he, hs.cleared, hs.agree, h⟩
  · rintro rfl
    exact variableCount_substitutionRound hr

def sumAndFirst : LinearSystem := .ofEquations
  [.ofPairs .descending [(1, "y"), (1, "x"), (-3, "")], .ofPairs .descending [(1, "x"), (-1, "")]]

def secondAndFirst : LinearSystem := .ofEquations
  [.ofPairs .descending [(1, "y"), (-2, "")], .ofPairs .descending [(1, "x"), (-1, "")]]

def twoValues : LinearSystem := .ofEquations
  [.ofPairs .descending [(1, "x"), (-1, "")], .ofPairs .descending [(1, "x"), (-2, "")]]

/-- The value of `x` takes its place in the sum, and then nothing is left to do. Two values of `x`
are a contradiction. -/
theorem verdict_of_substitute_sumAndFirst :
    sumAndFirst.substitute.result = .ok (secondAndFirst, .changed) ∧
      variableCount secondAndFirst.equations < variableCount sumAndFirst.equations ∧
        secondAndFirst.substitute.result = .ok (secondAndFirst, .unchanged) ∧
          (∀ e ∈ secondAndFirst.equations, e.isContradiction = false) ∧
            twoValues.substitute.result = .ok (twoValues, .contradiction) ∧
              Clash twoValues.equations := by
  have hchange : sumAndFirst.substitute.result = .ok (secondAndFirst, .changed) := by cbv
  have hrest : secondAndFirst.substitute.result = .ok (secondAndFirst, .unchanged) := by cbv
  have hclash : twoValues.substitute.result = .ok (twoValues, .contradiction) := by cbv
  obtain ⟨_, hround⟩ := verdict_of_substitute sumAndFirst
  obtain ⟨_, hagain⟩ := verdict_of_substitute secondAndFirst
  obtain ⟨_, htwo⟩ := verdict_of_substitute twoValues
  exact ⟨hchange, (hround _ _ hchange).2.2.2 rfl, hrest, ((hagain _ _ hrest).2.2.1 rfl).2.1,
    hclash, (htwo _ _ hclash).2.1 rfl⟩

end ExactLinear.LinearSystem
