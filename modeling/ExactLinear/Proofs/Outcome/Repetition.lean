import ExactLinear.Proofs.Elimination.Clashes
import ExactLinear.Proofs.Outcome.Policies

/-! # Solving again

Where solving finishes without a contradiction, nothing is left to do: a further run makes no
change, reports no event and comes to the same outcome. A contradiction stays one, whatever a
further run reduces before it meets it again.
-/

namespace ExactLinear

namespace Logged

variable {α β : Type} {x : Logged α} {f : α → Logged β} {a : α}

theorem log_bind_of_ok (h : x.result = .ok a) : (x >>= f).log = x.log ++ (f a).log := by
  rw [bind_of_ok h]

end Logged

theorem log_meet_of_kept {n : Name} {x : Fraction} {i j : ℕ} {row : Equation}
    (h : (meet n x i j row).result = .ok .kept) : (meet n x i j row).log = [] := by
  rw [meet] at h ⊢
  split_ifs at h ⊢ with hj hc
  · rfl
  · cases h
  · obtain ⟨s, hs, h⟩ := Logged.bind_result_eq_ok.1 h
    rw [Logged.log_bind_of_ok hs]
    cases s with
    | none =>
      obtain ⟨r, hr, h⟩ := Logged.bind_result_eq_ok.1 h
      dsimp only
      rw [Logged.log_bind_of_ok hr]
      cases r with
      | none => rfl
      | some e =>
        obtain ⟨_, _, h⟩ := Logged.bind_result_eq_ok.1 h
        cases h
    | some d =>
      cases d with
      | trivial => rfl
      | assignment k y =>
        dsimp only at h ⊢
        split_ifs at h ⊢ with hk
        · obtain ⟨_, _, h⟩ := Logged.bind_result_eq_ok.1 h
          cases h
        · rfl

theorem log_spread_of_unchanged {n : Name} {x : Fraction} {i j : ℕ} {rows rows' : List Equation}
    (h : (spread n x i j rows).result = .ok (rows', .unchanged)) :
    (spread n x i j rows).log = [] := by
  induction rows generalizing j rows' with
  | nil => rfl
  | cons row rest ih =>
    rw [spread] at h ⊢
    obtain ⟨m, hm, h⟩ := Logged.bind_result_eq_ok.1 h
    rw [Logged.log_bind_of_ok hm]
    cases m with
    | contradictory => cases h
    | rewritten e =>
      obtain ⟨⟨rest', w⟩, _, h⟩ := Logged.bind_result_eq_ok.1 h
      cases w <;> cases h
    | kept =>
      obtain ⟨⟨rest', w⟩, hw, h⟩ := Logged.bind_result_eq_ok.1 h
      cases h
      dsimp only
      rw [log_meet_of_kept hm, Logged.log_bind_of_ok hw, ih hw]
      rfl

theorem log_substituteFrom_of_unchanged {i : ℕ} {row : Equation} {rows rows' : List Equation}
    (h : (substituteFrom i row rows).result = .ok (rows', .unchanged)) :
    (substituteFrom i row rows).log = [] := by
  rw [substituteFrom] at h ⊢
  split_ifs at h ⊢ with hc
  · cases h
  · obtain ⟨s, hs, h⟩ := Logged.bind_result_eq_ok.1 h
    rw [Logged.log_bind_of_ok hs]
    split at h
    · exact log_spread_of_unchanged h
    · rfl

theorem log_roundFrom_of_unchanged {k i : ℕ} {rows rows' : List Equation}
    (h : (roundFrom k i rows).result = .ok (rows', .unchanged)) :
    (roundFrom k i rows).log = [] := by
  induction k generalizing i rows rows' with
  | zero => rfl
  | succ k ih =>
    rw [roundFrom] at h ⊢
    cases hrow : rows[i]? with
    | none => rfl
    | some row =>
      rw [hrow] at h
      obtain ⟨⟨mid, w⟩, hm, h⟩ := Logged.bind_result_eq_ok.1 h
      dsimp only at h ⊢
      rw [Logged.log_bind_of_ok hm]
      dsimp only
      split_ifs at h ⊢ with hw
      · rw [hw] at h
        cases h
      · obtain ⟨⟨last, u⟩, hl, h⟩ := Logged.bind_result_eq_ok.1 h
        obtain ⟨_, hj⟩ := Prod.mk.inj (Except.ok.inj h)
        obtain ⟨rfl, rfl⟩ := Verdict.join_eq_unchanged.1 hj
        rw [log_substituteFrom_of_unchanged hm, Logged.log_bind_of_ok hl, ih hl]
        rfl

/-- Rows that elimination finishes with: no pair is left to reduce, and a round of substitution
leaves them as they are. -/
structure Finished (rows : List Equation) : Prop where
  reduce : (reduce rows).result = .ok (rows, none)
  atRest : AtRest rows

theorem finished_of_eliminate {passes : ℕ} {rows rows' : List Equation}
    (h : (eliminate passes rows).result = .ok (rows', .finished)) : Finished rows' := by
  induction passes generalizing rows with
  | zero => cases h
  | succ passes ih =>
    obtain ⟨mid, step, rest, rounds, v, hr, hs, hend⟩ := eliminate_succ_eq_ok h
    rcases hend with ⟨_, _, he⟩ | ⟨hv, ⟨rfl, rfl⟩, rfl, _⟩ | ⟨_, _, hrec⟩
    · cases he
    · obtain ⟨rfl, _⟩ := reduce_eq_none hr
      obtain rfl := ((passes_settle hs).2.2 hv).2 rfl
      exact ⟨hr, atRest_of_settle hs hv⟩
    · exact ih hrec

namespace Finished

variable {rows : List Equation}

theorem log_reduce (h : Finished rows) : (ExactLinear.reduce rows).log = [] := by
  have hr := h.reduce
  rw [ExactLinear.reduce] at hr ⊢
  obtain ⟨p?, hp, hr⟩ := Logged.bind_result_eq_ok.1 hr
  rw [Logged.log_bind_of_ok hp]
  cases p? with
  | none => rfl
  | some p =>
    obtain ⟨_, _, hr⟩ := Logged.bind_result_eq_ok.1 hr
    obtain ⟨_, _, hr⟩ := Logged.bind_result_eq_ok.1 hr
    cases (Prod.mk.inj (Except.ok.inj hr)).2

theorem log_settle (h : Finished rows) : (settle rows).log = [] := by
  have hround := h.atRest
  rw [settle]
  split
  · next hr => cases hround.symm.trans hr
  · next hr => cases hround.symm.trans hr
  · exact log_roundFrom_of_unchanged hround

theorem eliminate (h : Finished rows) (passes : ℕ) :
    ExactLinear.eliminate (passes + 1) rows = ⟨[], .ok (rows, .finished)⟩ := by
  rw [ExactLinear.eliminate, Logged.bind_of_ok h.reduce, h.log_reduce]
  dsimp only
  rw [Logged.bind_of_ok h.atRest.settle, h.log_settle]
  rfl

end Finished

namespace LinearSystem

variable {s r : LinearSystem} {o : Outcome}

theorem eliminate_of_finished (h : Finished s.equations) (passes : ℕ) :
    s.eliminate (passes + 1) = ⟨[], .ok (s, .finished)⟩ := by
  rw [eliminate, h.eliminate]
  rfl

theorem solve_of_finished (h : Finished s.equations)
    (ho : Outcome.ofRows s.unknowns s.equations = .ok o) (passes : ℕ) :
    s.solve (passes + 1) = ⟨[], .ok (s, some o)⟩ := by
  rw [solve, eliminate_of_finished h, Logged.bind_of_ok rfl]
  dsimp only
  rw [Logged.bind_of_ok ho]
  rfl

/-- Solving leaves finished rows from which the outcome is read off, or rows that clash. -/
theorem finished_or_clash_of_returns (h : s.Returns r o) :
    Finished r.equations ∧ Outcome.ofRows r.unknowns r.equations = .ok o ∨
      o = .inconsistent ∧ Clash r.equations := by
  obtain ⟨passes, h⟩ := h
  obtain ⟨⟨after, ending⟩, he, h⟩ := Logged.bind_result_eq_ok.1 h
  obtain ⟨hev, hclash, _⟩ := evolves_of_eliminate he
  cases ending with
  | unfinished => cases h
  | contradiction =>
    cases h
    exact .inr ⟨rfl, hclash rfl⟩
  | finished =>
    obtain ⟨out, hout, h⟩ := Logged.bind_result_eq_ok.1 h
    cases h
    obtain ⟨⟨rows, ending⟩, hrows, he⟩ := Logged.bind_result_eq_ok.1 he
    cases he
    rw [← hev.unknowns] at hout
    exact .inl ⟨finished_of_eliminate hrows, hout⟩

/-- Rows that clash are found to do so, unless a reduction before that has no word. -/
theorem solve_of_clash (h : Clash r.equations) (hr : r.IsTidy) (passes : ℕ) :
    (∃ t, (r.solve (passes + 1)).result = .ok (t, some .inconsistent)) ∨
      ∃ f, (r.solve (passes + 1)).result = .error f ∧ f.IsOverflow := by
  cases hsolve : (r.solve (passes + 1)).result with
  | error f => exact .inr ⟨f, rfl, overflows_solve hr _ f hsolve⟩
  | ok t =>
    obtain ⟨t, o?⟩ := t
    obtain ⟨⟨after, ending⟩, he, ht⟩ := Logged.bind_result_eq_ok.1 hsolve
    obtain ⟨⟨rows, ending⟩, hrows, he⟩ := Logged.bind_result_eq_ok.1 he
    cases he
    obtain ⟨mid, step, rest, rounds, v, hreduce, hs, hend⟩ := eliminate_succ_eq_ok hrows
    have hv := (h.of_steps (steps_reduce hreduce).1).eq_contradiction_of_settle hs
    rcases hend with ⟨_, _, rfl⟩ | ⟨hne, _⟩ | ⟨hne, _⟩
    · cases ht
      exact .inl ⟨_, rfl⟩
    · exact absurd hv hne
    · exact absurd hv hne

/-- Solving what solving has left comes to the same outcome. Without a contradiction it changes no
equation and reports no event; with one it can end in an overflow instead. -/
theorem solve_of_returns {allowed : Policy → Prop} (hs : s.Reachable allowed) (h : s.Returns r o)
    (passes : ℕ) :
    (o ≠ .inconsistent → r.solve (passes + 1) = ⟨[], .ok (r, some o)⟩) ∧
      (o = .inconsistent → (∃ t, (r.solve (passes + 1)).result = .ok (t, some o)) ∨
        ∃ f, (r.solve (passes + 1)).result = .error f ∧ f.IsOverflow) := by
  rcases finished_or_clash_of_returns h with ⟨hfin, ho⟩ | ⟨rfl, hclash⟩
  · have hsame := solve_of_finished hfin ho passes
    exact ⟨fun _ => hsame, fun _ => .inl ⟨r, by rw [hsame]⟩⟩
  · refine ⟨fun hne => absurd rfl hne, fun _ => ?_⟩
    obtain ⟨n, hn⟩ := h
    have hr := (answers_of_solve hs.isTidy hn).1.isTidy hs.isTidy
    exact solve_of_clash hclash hr passes

/-- The tables that ties lead to in a circle are found again, and nothing is done to find them. -/
theorem solve_of_returns_threeVariables :
    (threeVariables.withPolicy byInsertion).Reachable (fun _ => True) ∧
      ∃ r, (threeVariables.withPolicy byInsertion).Returns r (.underdetermined circularTables) ∧
        ∀ passes, r.solve (passes + 1) = ⟨[], .ok (r, some (.underdetermined circularTables))⟩ := by
  have hs : (threeVariables.withPolicy byInsertion).Reachable fun _ => True :=
    .withPolicy trivial (reachable_threeVariables _)
  obtain ⟨r, hr⟩ := returns_circularTables
  exact ⟨hs, r, hr, fun passes => (solve_of_returns hs hr passes).1 (by simp)⟩

end LinearSystem
end ExactLinear
