import ExactLinear.Elimination.Substitution
import ExactLinear.Equation.Unknowns

/-! # Substitution until it comes to rest

Rounds of substitution are repeated as long as they change something. A round that does takes a
variable out of some row and puts none in, so the number of variable terms bounds the rounds.
-/

namespace ExactLinear

/-- Rows with no more variable terms than before, and fewer after a change. -/
def Shrinks (before after : Nat) (v : Verdict) : Prop :=
  after ≤ before ∧ (v = .changed → after < before)

theorem length_rewritten {n : Name} (hn : n.isBlank = false) {x : Fraction} {i j : Nat}
    {row e : Equation} (h : (meet n x i j row).result = .ok (.rewritten e)) :
    e.unknowns.length < row.unknowns.length := by
  rw [meet] at h
  split at h
  · cases h
  split at h
  · cases h
  · obtain ⟨s, _, h⟩ := Logged.bind_result_eq_ok.1 h
    split at h
    · split at h
      · obtain ⟨_, _, h⟩ := Logged.bind_result_eq_ok.1 h
        cases h
      · cases h
    · cases h
    · obtain ⟨r, hr, h⟩ := Logged.bind_result_eq_ok.1 h
      split at h
      · cases h
      · obtain ⟨_, _, h⟩ := Logged.bind_result_eq_ok.1 h
        cases h
        have hp := Equation.unknowns_substitute? hn hr
        rw [hp.length_eq]
        exact Nat.lt_succ_self _

theorem shrinks_spread {n : Name} (hn : n.isBlank = false) {x : Fraction} {i j : Nat}
    {rows rows' : List Equation} {v : Verdict}
    (h : (spread n x i j rows).result = .ok (rows', v)) :
    Shrinks (variableCount rows) (variableCount rows') v := by
  induction rows generalizing j rows' v with
  | nil => cases h; exact ⟨Nat.le_refl _, by simp⟩
  | cons row rest ih =>
    rw [spread] at h
    obtain ⟨m, hm, h⟩ := Logged.bind_result_eq_ok.1 h
    cases m with
    | contradictory => cases h; exact ⟨Nat.le_refl _, by simp⟩
    | kept =>
      obtain ⟨⟨rest', w⟩, hw, h⟩ := Logged.bind_result_eq_ok.1 h
      cases h
      have hs := ih hw
      simp only [Shrinks, variableCount] at hs ⊢
      exact ⟨by omega, fun hv => by have := hs.2 hv; omega⟩
    | rewritten e =>
      obtain ⟨⟨rest', w⟩, hw, h⟩ := Logged.bind_result_eq_ok.1 h
      cases h
      have hs := (ih hw).1
      have he := length_rewritten hn hm
      simp only [Shrinks, variableCount] at hs ⊢
      exact ⟨by omega, fun _ => by omega⟩

theorem shrinks_substituteFrom {i : Nat} {row : Equation} {rows rows' : List Equation}
    {v : Verdict} (h : (substituteFrom i row rows).result = .ok (rows', v)) :
    Shrinks (variableCount rows) (variableCount rows') v := by
  rw [substituteFrom] at h
  split at h
  · cases h; exact ⟨Nat.le_refl _, by simp⟩
  · obtain ⟨s, hs, h⟩ := Logged.bind_result_eq_ok.1 h
    split at h
    · exact shrinks_spread (Equation.isBlank_of_solution? hs) h
    · cases h; exact ⟨Nat.le_refl _, by simp⟩

theorem Shrinks.join {a b c : Nat} {v w : Verdict} (h : Shrinks a b v) (k : Shrinks b c w) :
    Shrinks a c (v.join w) := by
  refine ⟨Nat.le_trans k.1 h.1, fun hv => ?_⟩
  have h1 := h.1
  have k1 := k.1
  cases v with
  | changed => have := h.2 rfl; omega
  | contradiction => cases hv
  | unchanged =>
    cases w with
    | changed => have := k.2 rfl; omega
    | unchanged => cases hv
    | contradiction => cases hv

theorem shrinks_roundFrom {k i : Nat} {rows rows' : List Equation} {v : Verdict}
    (h : (roundFrom k i rows).result = .ok (rows', v)) :
    Shrinks (variableCount rows) (variableCount rows') v := by
  induction k generalizing i rows rows' v with
  | zero => cases h; exact ⟨Nat.le_refl _, by simp⟩
  | succ k ih =>
    rw [roundFrom] at h
    split at h
    · cases h; exact ⟨Nat.le_refl _, by simp⟩
    · obtain ⟨⟨mid, w⟩, hm, h⟩ := Logged.bind_result_eq_ok.1 h
      have hs := shrinks_substituteFrom hm
      dsimp only at h
      split at h
      · cases h; exact hs
      · obtain ⟨⟨last, u⟩, hl, h⟩ := Logged.bind_result_eq_ok.1 h
        cases h
        exact hs.join (ih hl)

/-- A round that changes something leaves fewer variable terms. -/
theorem variableCount_substitutionRound {rows rows' : List Equation}
    (h : (substitutionRound rows).result = .ok (rows', .changed)) :
    variableCount rows' < variableCount rows :=
  (shrinks_roundFrom h).2 rfl

/-- Repeats rounds until one changes nothing, and counts those before it. -/
def settle (rows : List Equation) : Logged (List Equation × Nat × Verdict) :=
  let r := substitutionRound rows
  match _h : r.result with
  | .error f => ⟨r.log, .error f⟩
  | .ok (rows, .changed) =>
    let s := settle rows
    ⟨r.log ++ s.log, s.result.map fun (rows, k, v) => (rows, k + 1, v)⟩
  | .ok (rows, v) => ⟨r.log, .ok (rows, 0, v)⟩
termination_by variableCount rows
decreasing_by exact variableCount_substitutionRound ‹_›

end ExactLinear
