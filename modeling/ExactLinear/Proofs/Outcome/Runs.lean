import ExactLinear.Proofs.Elimination.Traces
import ExactLinear.Proofs.Outcome.Unknowns

/-! # Final equations along a run

The log of a run traces the equations from its start to where it stops, so every moment of the run
is a prefix of its log. From one moment to the next only equations without a direct solution change.
What holds always, contradicts itself or gives a variable its value therefore stays, also in the
middle of an operation, and every later answer has the values that were found on the way.
-/

namespace ExactLinear.LinearSystem

theorem tracesTo_eliminate (passes : ℕ) (s : LinearSystem) :
    (s.eliminate passes).TracesTo s.equations fun r => r.1.equations :=
  (ExactLinear.tracesTo_eliminate passes s.equations).bind fun _ _ => .pure rfl

theorem tracesTo_solve (passes : ℕ) (s : LinearSystem) :
    (s.solve passes).TracesTo s.equations fun r => r.1.equations := by
  refine (tracesTo_eliminate passes s).bind fun r _ => ?_
  obtain ⟨after, ending⟩ := r
  cases ending with
  | unfinished => exact .pure rfl
  | contradiction => exact .pure rfl
  | finished => exact .bind_of_log_eq_nil rfl fun _ _ => .pure rfl

theorem tracesTo_perform (s : LinearSystem) (op : Operation) :
    (s.perform op).TracesTo s.equations LinearSystem.equations := by
  cases op with
  | reduce =>
    have h : s.reduce.TracesTo s.equations fun r => r.1.equations :=
      (tracesTo_reduce s.equations).bind fun _ _ => .pure rfl
    exact h.bind fun _ _ => .pure rfl
  | substitute =>
    have h : s.substitute.TracesTo s.equations fun r => r.1.equations :=
      (tracesTo_substitutionRound s.equations).bind fun _ _ => .pure rfl
    exact h.bind fun _ _ => .pure rfl
  | eliminate passes => exact (tracesTo_eliminate passes s).bind fun _ _ => .pure rfl
  | solve passes => exact (tracesTo_solve passes s).bind fun _ _ => .pure rfl

theorem tracesTo_run (s : LinearSystem) (ops : List Operation) :
    (s.run ops).TracesTo s.equations LinearSystem.equations := by
  induction ops generalizing s with
  | nil => exact .pure rfl
  | cons op ops ih => exact (tracesTo_perform s op).bind fun r _ => ih r

variable {s t r : LinearSystem} {ops : List Operation}

/-- The log of a run goes on from that of its first operations. -/
theorem log_run_append (s : LinearSystem) (ops rest : List Operation) :
    (s.run ops).log <+: (s.run (ops ++ rest)).log := by
  induction ops generalizing s with
  | nil => exact List.nil_prefix
  | cons op ops ih =>
    change (s.perform op >>= fun r => r.run ops).log <+:
      (s.perform op >>= fun r => r.run (ops ++ rest)).log
    cases h : (s.perform op).result with
    | error f => rw [Logged.bind_of_error h, Logged.bind_of_error h]
    | ok r =>
      rw [Logged.bind_of_ok h, Logged.bind_of_ok h]
      exact (List.prefix_append_right_inj _).2 (ih r)

/-- Every moment of a run, a prefix of its log, is reached by steps from every earlier one. -/
theorem steps_of_moment {before between : List Event}
    (h : before ++ between <+: (s.run ops).log) :
    RowSteps s.equations (Event.shownAll before s.equations) ∧
      RowSteps (Event.shownAll before s.equations)
        (Event.shownAll (before ++ between) s.equations) := by
  obtain ⟨rest, hlog⟩ := h
  obtain ⟨last, htrace, _⟩ := tracesTo_run s ops
  rw [← hlog] at htrace
  obtain ⟨later, hlater, _⟩ := htrace.exists_of_append
  obtain ⟨rows, hbefore, hbetween⟩ := hlater.exists_of_append
  rw [hlater.shownAll_eq, hbefore.shownAll_eq]
  exact ⟨hbefore.steps, hbetween.steps⟩

theorem equations_of_run (h : (s.run ops).result = .ok t) :
    t.equations = Event.shownAll (s.run ops).log s.equations := by
  obtain ⟨last, htrace, hlast⟩ := tracesTo_run s ops
  rw [htrace.shownAll_eq, hlast t h]

/-- Equations that are final stay as they are. At every moment of a run of operations, whether it
comes to its end or to a fault, there are as many equations as at its start, and those final by then
are the same at every later moment. The operations that are done end at moments of the run. A value
that an equation gave a variable at some moment is its value in every later answer. -/
theorem stays_of_isFinal (s : LinearSystem) (ops : List Operation) :
    (∀ before between, before ++ between <+: (s.run ops).log →
      (Event.shownAll before s.equations).length = s.equations.length ∧
        (Event.shownAll (before ++ between) s.equations).length = s.equations.length ∧
        ∀ (k : ℕ) (row : Equation), (Event.shownAll before s.equations)[k]? = some row →
          row.IsFinal → (Event.shownAll (before ++ between) s.equations)[k]? = some row) ∧
      (∀ done, done <+: ops → (s.run done).log <+: (s.run ops).log ∧
        ∀ t, (s.run done).result = .ok t →
          t.equations = Event.shownAll (s.run done).log s.equations) ∧
      ∀ allowed, s.Reachable allowed → ∀ before, before <+: (s.run ops).log →
        ∀ row ∈ Event.shownAll before s.equations, ∀ n x, row.Assigns n x →
          ∀ t r passes o a, (s.run ops).result = .ok t →
            (t.solve passes).result = .ok (r, some o) →
              o = .solved a ∨ o = .underdetermined a → a.known.get? n = some x := by
  refine ⟨fun before between h => ?_, ?_, ?_⟩
  · obtain ⟨hbefore, hbetween⟩ := steps_of_moment h
    refine ⟨hbefore.length_eq, RowSteps.length_eq (hbefore.trans hbetween), fun k row hk hrow => ?_⟩
    exact hbetween.getElem?_eq_some hk hrow.not_isUnsolved
  · rintro done ⟨rest, rfl⟩
    exact ⟨log_run_append s done rest, fun t ht => equations_of_run ht⟩
  · rintro allowed hs before ⟨between, hlog⟩ row hrow n x hx t r passes o a ht hr ho
    have hrun := evolves_of_run ht
    obtain ⟨hev, hans⟩ := answers_of_solve (hrun.isTidy hs.isTidy) hr
    obtain ⟨k, hk⟩ := List.mem_iff_getElem?.1 hrow
    have hsteps := (steps_of_moment (by rw [hlog])).2
    rw [hlog, ← equations_of_run ht] at hsteps
    have hlast := RowSteps.getElem?_eq_some (hsteps.trans hev.steps) hk
      (Equation.not_isUnsolved_of_assigns hx)
    exact hans.known_of_assigns ho (List.mem_of_getElem? hlast) hx

/-- A reduction gives `x` its value in the second equation. The substitution after it changes the
first equation only, and the answer has that value. -/
theorem stays_of_isFinal_sumDifference :
    ∃ reduced substituted t r a,
      (sumDifference.run [.reduce, .substitute]).log = [reduced] ++ [substituted] ∧
        (sumDifference.run [.reduce, .substitute]).result = .ok t ∧
        t.equations = Event.shownAll ([reduced] ++ [substituted]) sumDifference.equations ∧
        Event.shownAll [reduced] sumDifference.equations = [sumRow, firstRow] ∧
        firstRow.IsFinal ∧
        (Event.shownAll ([reduced] ++ [substituted]) sumDifference.equations)[1]? =
          some firstRow ∧
        t.equations[0]? = some (.ofPairs .descending [(1, "y"), (-2, "")]) ∧
        (t.solve 3).result = .ok (r, some (.solved a)) ∧
        a.known.get? (.ofText "x") = some .one := by
  have hx : firstRow.Assigns (.ofText "x") .one := by cbv
  have hfinal : firstRow.IsFinal := .inr (.inr ⟨_, _, hx⟩)
  have hlog : (sumDifference.run [.reduce, .substitute]).log =
    [.reduced ⟨0, 1, .whole (-1)⟩ (.ofText "y") firstRow] ++
      [.substituted (.ofText "x") .one 0 (.ofPairs .descending [(1, "y"), (-2, "")])] := by cbv
  have ht : (sumDifference.run [.reduce, .substitute]).result =
    .ok ⟨.descending, [.ofPairs .descending [(1, "y"), (-2, "")], firstRow]⟩ := by cbv
  have hreduced : Event.shownAll [.reduced ⟨0, 1, .whole (-1)⟩ (.ofText "y") firstRow]
    sumDifference.equations = [sumRow, firstRow] := by cbv
  have hr := solve_of_eliminateWithin (s := ⟨.descending, _⟩) (show eliminateWithin 3 3
    [.ofPairs .descending [(1, "y"), (-2, "")], firstRow] = some (_, .finished) by cbv)
    (o := .solved sumDifferenceValues) (by cbv)
  obtain ⟨hstay, hdone, hvalue⟩ := stays_of_isFinal sumDifference [.reduce, .substitute]
  have hend := (hdone _ List.prefix_rfl).2 _ ht
  rw [hlog] at hend
  refine ⟨_, _, _, _, _, hlog, ht, hend, hreduced, hfinal, ?_, rfl, hr, ?_⟩
  · exact (hstay _ _ (by rw [hlog])).2.2 1 firstRow (by rw [hreduced]; rfl) hfinal
  · have hmoment := hlog ▸ List.prefix_append [Event.reduced ⟨0, 1, .whole (-1)⟩ _ firstRow] _
    exact hvalue _ (reachable_sumDifference fun _ => True) _ hmoment firstRow
      (by rw [hreduced]; simp) _ _ hx _ _ _ _ _ ht hr (.inl rfl)

end ExactLinear.LinearSystem
