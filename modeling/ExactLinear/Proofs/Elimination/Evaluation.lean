import ExactLinear.Proofs.Elimination.Systems

/-! # Evaluation with bounded rounds

How often rounds of substitution are repeated depends on the rows. With a bound on the rounds the
recursion is structural, so that runs on given systems can be evaluated, and runs that stay within
the bound are those of elimination.
-/

namespace ExactLinear

/-- An integer as a fraction, or zero if it has no word. -/
def Fraction.whole (n : ℤ) : Fraction := (ofInt n).toOption.getD zero

/-- The equation with these coefficients and names, where the empty name is that of the constant. -/
def Equation.ofPairs (p : Policy) (ts : List (ℤ × String)) : Equation :=
  ⟨p, ts.map fun t => ⟨.whole t.1, .ofText t.2⟩⟩

/-- Rounds of substitution until they come to rest, if fewer than so many change something. -/
def settleWithin : ℕ → List Equation → Option (List Equation × ℕ × Verdict)
  | 0, _ => none
  | bound + 1, rows =>
    match (substitutionRound rows).result with
    | .error _ => none
    | .ok (mid, .changed) => (settleWithin bound mid).map fun r => (r.1, r.2.1 + 1, r.2.2)
    | .ok (mid, v) => some (mid, 0, v)

theorem settle_of_settleWithin {bound : ℕ} {rows : List Equation}
    {r : List Equation × ℕ × Verdict} (h : settleWithin bound rows = some r) :
    (settle rows).result = .ok r := by
  induction bound generalizing rows r with
  | zero => cases h
  | succ bound ih =>
    rw [settleWithin] at h
    cases hr : (substitutionRound rows).result with
    | error f =>
      rw [hr] at h
      cases h
    | ok round =>
      obtain ⟨mid, v⟩ := round
      rw [hr] at h
      cases v with
      | changed =>
        obtain ⟨s, hs, rfl⟩ := Option.map_eq_some_iff.1 h
        rw [settle_of_changed hr, ih hs]
        rfl
      | unchanged =>
        cases h
        exact settle_of_ne_changed hr (by simp)
      | contradiction =>
        cases h
        exact settle_of_ne_changed hr (by simp)

/-- Passes of elimination with a bound on the rounds in each of them. -/
def eliminateWithin (bound : ℕ) : ℕ → List Equation → Option (List Equation × Ending)
  | 0, rows => some (rows, .unfinished)
  | passes + 1, rows =>
    match (reduce rows).result with
    | .error _ => none
    | .ok (mid, step) =>
      match settleWithin bound mid with
      | none => none
      | some (rest, rounds, v) =>
        if v = .contradiction then some (rest, .contradiction)
        else if step = none ∧ rounds = 0 then some (rest, .finished)
        else eliminateWithin bound passes rest

theorem eliminate_of_eliminateWithin {bound passes : ℕ} {rows : List Equation}
    {r : List Equation × Ending} (h : eliminateWithin bound passes rows = some r) :
    (eliminate passes rows).result = .ok r := by
  induction passes generalizing rows with
  | zero => cases h; rfl
  | succ passes ih =>
    rw [eliminateWithin] at h
    rw [eliminate_succ_result]
    split at h
    · cases h
    · next mid step hr =>
      split at h
      · cases h
      · next rest rounds v hs =>
        rw [hr, ok_bind]
        dsimp only
        rw [settle_of_settleWithin hs, ok_bind]
        simp only [Option.isNone_iff_eq_none]
        split_ifs at h ⊢
        · cases h; rfl
        · cases h; rfl
        · exact ih h

namespace LinearSystem

def solveWithin (bound passes : ℕ) (s : LinearSystem) : Option Outcome :=
  match eliminateWithin bound passes s.equations with
  | some (_, .contradiction) => some .inconsistent
  | some (rows, .finished) => (Outcome.ofRows s.unknowns rows).toOption
  | _ => none

theorem eliminate_result_of_eliminateWithin {bound passes : ℕ} {s : LinearSystem}
    {rows : List Equation} {ending : Ending}
    (h : eliminateWithin bound passes s.equations = some (rows, ending)) :
    (s.eliminate passes).result = .ok ({ s with equations := rows }, ending) := by
  rw [eliminate_result, eliminate_of_eliminateWithin h]
  rfl

theorem solve_of_eliminateWithin {bound passes : ℕ} {s : LinearSystem} {rows : List Equation}
    {o : Outcome} (h : eliminateWithin bound passes s.equations = some (rows, .finished))
    (ho : Outcome.ofRows s.unknowns rows = .ok o) :
    (s.solve passes).result = .ok ({ s with equations := rows }, some o) := by
  refine Logged.bind_result_eq_ok.2 ⟨_, eliminate_result_of_eliminateWithin h, ?_⟩
  exact Logged.bind_result_eq_ok.2 ⟨o, ho, rfl⟩

theorem exists_solve_of_solveWithin {bound passes : ℕ} {s : LinearSystem} {o : Outcome}
    (h : s.solveWithin bound passes = some o) :
    ∃ r, (s.solve passes).result = .ok (r, some o) := by
  rw [solveWithin] at h
  split at h
  · next rows he =>
    cases h
    exact ⟨_, Logged.bind_result_eq_ok.2 ⟨_, eliminate_result_of_eliminateWithin he, rfl⟩⟩
  · next rows he =>
    cases ho : Outcome.ofRows s.unknowns rows with
    | error f =>
      rw [ho] at h
      cases h
    | ok o' =>
      obtain rfl : o' = o := by simpa [ho, Except.toOption] using h
      exact ⟨_, solve_of_eliminateWithin he ho⟩
  · cases h

end LinearSystem
end ExactLinear
