import ExactLinear.Proofs.Elimination.Leaders
import ExactLinear.Proofs.Elimination.Passes

/-! # Reported reductions

Substitution reports no reduction, and a pass reports the one that it makes. The reductions in the
log of an elimination are therefore counted pass by pass, whether it ends in a result or in a fault.
-/

namespace ExactLinear

namespace Logged

variable {α β : Type} {x : Logged α} {f g : α → Logged β}

/-- The reductions that a computation reports, those before a fault included. -/
def reductions (x : Logged α) : List Reduction := Event.reductions x.log

@[simp] theorem reductions_pure (a : α) : (pure a : Logged α).reductions = [] := rfl

theorem bind_of_ok {a : α} (h : x.result = .ok a) :
    x >>= f = ⟨x.log ++ (f a).log, (f a).result⟩ := by
  change Logged.bind x f = _
  rw [Logged.bind, h]

theorem bind_of_error {e : Fault} (h : x.result = .error e) : x >>= f = ⟨x.log, .error e⟩ := by
  change Logged.bind x f = _
  rw [Logged.bind, h]

theorem reductions_bind_of_ok {a : α} (h : x.result = .ok a) :
    (x >>= f).reductions = x.reductions ++ (f a).reductions := by
  rw [bind_of_ok h]
  simp [reductions, Event.reductions]

theorem reductions_bind_of_error {e : Fault} (h : x.result = .error e) :
    (x >>= f).reductions = x.reductions := by
  rw [bind_of_error h]
  rfl

theorem reductions_bind_eq_nil (hx : x.reductions = [])
    (hf : ∀ a, x.result = .ok a → (f a).reductions = []) : (x >>= f).reductions = [] := by
  cases h : x.result with
  | error e => rw [reductions_bind_of_error h, hx]
  | ok a => rw [reductions_bind_of_ok h, hx, hf a h, List.append_nil]

/-- Only the continuation of the actual result matters. -/
theorem bind_congr (h : ∀ a, x.result = .ok a → f a = g a) : x >>= f = x >>= g := by
  cases hx : x.result with
  | error e => rw [bind_of_error hx, bind_of_error hx]
  | ok a => rw [bind_of_ok hx, bind_of_ok hx, h a hx]

end Logged

theorem reductions_meet (n : Name) (x : Fraction) (i j : ℕ) (row : Equation) :
    (meet n x i j row).reductions = [] := by
  rw [meet]
  split
  · rfl
  split
  · rfl
  · refine Logged.reductions_bind_eq_nil rfl fun s _ => ?_
    split
    · split
      · exact Logged.reductions_bind_eq_nil rfl fun _ _ => rfl
      · rfl
    · rfl
    · refine Logged.reductions_bind_eq_nil rfl fun e? _ => ?_
      split
      · rfl
      · exact Logged.reductions_bind_eq_nil rfl fun _ _ => rfl

theorem reductions_spread (n : Name) (x : Fraction) (i j : ℕ) (rows : List Equation) :
    (spread n x i j rows).reductions = [] := by
  induction rows generalizing j with
  | nil => rfl
  | cons row rest ih =>
    rw [spread]
    refine Logged.reductions_bind_eq_nil (reductions_meet n x i j row) fun m _ => ?_
    cases m with
    | contradictory => rfl
    | kept => exact Logged.reductions_bind_eq_nil (ih _) fun _ _ => rfl
    | rewritten e => exact Logged.reductions_bind_eq_nil (ih _) fun _ _ => rfl

theorem reductions_substituteFrom (i : ℕ) (row : Equation) (rows : List Equation) :
    (substituteFrom i row rows).reductions = [] := by
  rw [substituteFrom]
  split
  · rfl
  · refine Logged.reductions_bind_eq_nil rfl fun s _ => ?_
    split
    · exact reductions_spread _ _ i 0 rows
    · rfl

theorem reductions_roundFrom (k i : ℕ) (rows : List Equation) :
    (roundFrom k i rows).reductions = [] := by
  induction k generalizing i rows with
  | zero => rfl
  | succ k ih =>
    rw [roundFrom]
    split
    · rfl
    · next row _ =>
      refine Logged.reductions_bind_eq_nil (reductions_substituteFrom i row rows) fun r _ => ?_
      dsimp only
      split
      · rfl
      · exact Logged.reductions_bind_eq_nil (ih _ _) fun _ _ => rfl

theorem reductions_settle (rows : List Equation) : (settle rows).reductions = [] := by
  induction hc : variableCount rows using Nat.strong_induction_on generalizing rows with
  | _ c ih =>
    have hround : Event.reductions (substitutionRound rows).log = [] :=
      reductions_roundFrom rows.length 0 rows
    rw [settle]
    split
    · exact hround
    · next mid hr =>
      have hrest := ih _ (hc ▸ variableCount_substitutionRound hr) mid rfl
      simp only [Logged.reductions, Event.reductions, List.filterMap_append] at hround hrest ⊢
      rw [hround, hrest, List.append_nil]
    · exact hround

theorem reductions_reduce_of_ok {rows mid : List Equation} {step : Option Reduction}
    (h : (reduce rows).result = .ok (mid, step)) : (reduce rows).reductions = step.toList := by
  rw [reduce] at h ⊢
  obtain ⟨p?, hp, h⟩ := Logged.bind_result_eq_ok.1 h
  rw [Logged.reductions_bind_of_ok hp]
  cases p? with
  | none => cases h; rfl
  | some p =>
    obtain ⟨r, hc, h⟩ := Logged.bind_result_eq_ok.1 h
    dsimp only
    rw [Logged.reductions_bind_of_ok hc]
    cases h
    rfl

theorem reductions_reduce_of_error {rows : List Equation} {f : Fault}
    (h : (reduce rows).result = .error f) : (reduce rows).reductions = [] := by
  rw [reduce] at h ⊢
  refine Logged.reductions_bind_eq_nil rfl fun p? hp => ?_
  rw [Logged.bind_of_ok hp] at h
  cases p? with
  | none => cases h
  | some p =>
    refine Logged.reductions_bind_eq_nil rfl fun r hc => ?_
    dsimp only at h
    rw [Logged.bind_of_ok hc] at h
    cases h

theorem reductions_eliminate_succ (passes : ℕ) {rows mid rest : List Equation}
    {step : Option Reduction} {rounds : ℕ} {v : Verdict}
    (hr : (reduce rows).result = .ok (mid, step))
    (hs : (settle mid).result = .ok (rest, rounds, v)) :
    (eliminate (passes + 1) rows).reductions = step.toList ++
      if v = .contradiction ∨ step = none ∧ rounds = 0 then []
      else (eliminate passes rest).reductions := by
  rw [eliminate, Logged.reductions_bind_of_ok hr, reductions_reduce_of_ok hr]
  dsimp only
  rw [Logged.reductions_bind_of_ok hs, reductions_settle, List.nil_append]
  congr 1
  -- the report on the rounds is no reduction
  have report (x : Logged (List Equation × Ending)) :
      (Logged.emit (.settled rounds) >>= fun _ => x).reductions = x.reductions := rfl
  dsimp only
  by_cases hv : v = .contradiction
  · split <;> simp [hv, report]
  by_cases hn : step = none ∧ rounds = 0
  · simp [hv, hn]
  · split <;> simp [hv, hn, report]

/-- What a pass and those after it report, whether or not one of them fails. -/
theorem reductions_eliminate_succ_cases (passes : ℕ) (rows : List Equation) :
    (eliminate (passes + 1) rows).reductions = [] ∨
      ∃ mid step, (reduce rows).result = .ok (mid, step) ∧
        ((eliminate (passes + 1) rows).reductions = step.toList ∨
          ∃ rest rounds v, (settle mid).result = .ok (rest, rounds, v) ∧
            (eliminate (passes + 1) rows).reductions =
              step.toList ++ (eliminate passes rest).reductions) := by
  cases hr : (reduce rows).result with
  | error f =>
    left
    rw [eliminate, Logged.reductions_bind_of_error hr, reductions_reduce_of_error hr]
  | ok r =>
    obtain ⟨mid, step⟩ := r
    refine .inr ⟨mid, step, rfl, ?_⟩
    cases hs : (settle mid).result with
    | error f =>
      left
      rw [eliminate, Logged.reductions_bind_of_ok hr, reductions_reduce_of_ok hr]
      dsimp only
      rw [Logged.reductions_bind_of_error hs, reductions_settle, List.append_nil]
    | ok r =>
      obtain ⟨rest, rounds, v⟩ := r
      have h := reductions_eliminate_succ passes hr hs
      split at h
      · exact .inl (h.trans (List.append_nil _))
      · exact .inr ⟨rest, rounds, v, rfl, h⟩

theorem length_reductions_eliminate_le (passes : ℕ) (rows : List Equation) :
    (eliminate passes rows).reductions.length ≤ passes := by
  induction passes generalizing rows with
  | zero => exact le_rfl
  | succ passes ih =>
    have hone (step : Option Reduction) : step.toList.length ≤ 1 := by cases step <;> simp
    rcases reductions_eliminate_succ_cases passes rows with
      h | ⟨mid, step, _, h | ⟨rest, rounds, v, _, h⟩⟩
    · simp [h]
    · rw [h]
      exact (hone step).trans (by omega)
    · have hrest := ih rest
      have hstep := hone step
      rw [h, List.length_append]
      omega

section

variable {p : Policy} {ns : List Name} {rows mid : List Equation} (hp : p.OrdersNames)

include hp

theorem headroom_of_reduce (ht : AreTidy p rows) (hns : Mentions rows ns)
    {step : Option Reduction} (h : (reduce rows).result = .ok (mid, step)) :
    step.toList.length + headroom p ns mid ≤ headroom p ns rows := by
  cases step with
  | none =>
    obtain ⟨rfl, _⟩ := reduce_eq_none h
    simp
  | some step =>
    obtain ⟨s, d, e, hs, hd, _, hn, hc, _, rfl⟩ := reduce_eq_some h
    have hlt := headroom_combine hp ht hns hs hd hn hc
    rw [Option.toList_some, List.length_singleton]
    omega

/-- Every reduction that is reported has used up a place. -/
theorem length_reductions_eliminate_le_headroom (passes : ℕ) (ht : AreTidy p rows)
    (hns : Mentions rows ns) : (eliminate passes rows).reductions.length ≤ headroom p ns rows := by
  induction passes generalizing rows with
  | zero => exact Nat.zero_le _
  | succ passes ih =>
    rcases reductions_eliminate_succ_cases passes rows with
      h | ⟨mid, step, hr, h⟩
    · simp [h]
    · have hreduce := headroom_of_reduce hp ht hns hr
      have hmid := (steps_reduce hr).1
      rcases h with h | ⟨rest, rounds, v, hs, h⟩
      · rw [h]
        omega
      · have hrest := hmid.trans (passes_settle hs).1
        have hsettle := (passes_settle hs).1.headroom_le hp (hmid.areTidy ht) (hmid.mentions hns)
        have hlast := ih (RowSteps.areTidy hrest ht) (RowSteps.mentions hrest hns)
        rw [h, List.length_append]
        omega

end
end ExactLinear
