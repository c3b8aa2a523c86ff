import ExactLinear.Proofs.Elimination.Entries
import ExactLinear.Proofs.Elimination.Observers
import ExactLinear.Proofs.Outcome.Repetition
import ExactLinear.Proofs.Outcome.Runs

/-! # Traces as audit logs

The entries of a trace suffice to do the run again: replayed on the original equations they end in
the final ones, and on the way every entry shows the row that it is about. No reduction is missing,
because an observer is shown the same ones.
-/

namespace ExactLinear

def Event.change? : Event → Option (ℕ × Equation)
  | substituted _ _ j e => some (j, e)
  | reduced step _ e => some (step.destination, e)
  | _ => none

namespace TraceEntry

def equationText? (t : TraceEntry) : Option String :=
  if t.message = "substituted" then t.fields.lookup "equation"
  else if t.message = "reduced" then t.fields.lookup "result"
  else none

def stepText? (t : TraceEntry) : Option String :=
  if t.message = "reduced" then t.fields.lookup "step" else none

end TraceEntry

namespace Event

variable {event : Event} {t : TraceEntry} {log after : List Event} {entries : List TraceEntry}
  {rows last : List Equation}

theorem equationText?_of_entry (h : event.entry = .ok t) {j : ℕ} {e : Equation}
    (hc : event.change? = some (j, e)) :
    ∃ text, e.text = .ok text ∧ t.equationText? = some text := by
  cases event with
  | conflict n x y => cases hc
  | settled rounds => cases hc
  | substituted n x j e =>
    obtain ⟨text, htext, h⟩ := bind_eq_ok.1 h
    cases h
    cases hc
    exact ⟨text, htext, by simp [TraceEntry.equationText?, List.lookup]⟩
  | reduced step n e =>
    obtain ⟨text, htext, h⟩ := bind_eq_ok.1 h
    cases h
    cases hc
    exact ⟨text, htext, by simp [TraceEntry.equationText?, List.lookup]⟩

theorem exists_entry (h : (log ++ event :: after).mapM Event.entry = .ok entries) :
    ∃ t, event.entry = .ok t ∧ entries[log.length]? = some t := by
  induction log generalizing entries with
  | nil =>
    rw [List.nil_append, List.mapM_cons] at h
    obtain ⟨t, ht, h⟩ := bind_eq_ok.1 h
    obtain ⟨rest, _, h⟩ := bind_eq_ok.1 h
    cases h
    exact ⟨t, ht, rfl⟩
  | cons first log ih =>
    rw [List.cons_append, List.mapM_cons] at h
    obtain ⟨_, _, h⟩ := bind_eq_ok.1 h
    obtain ⟨rest, hrest, h⟩ := bind_eq_ok.1 h
    cases h
    exact ih hrest

/-- An entry names a step if and only if its event is a reduction. -/
theorem stepText?_of_entry (h : event.entry = .ok t) :
    t.stepText?.toList = (Event.reductions [event]).map Reduction.text := by
  cases event with
  | conflict n x y => cases h; simp [TraceEntry.stepText?, reductions]
  | settled rounds => cases h; simp [TraceEntry.stepText?, reductions]
  | substituted n x j e =>
    obtain ⟨text, htext, h⟩ := bind_eq_ok.1 h
    cases h
    simp [TraceEntry.stepText?, reductions]
  | reduced step n e =>
    obtain ⟨text, htext, h⟩ := bind_eq_ok.1 h
    cases h
    simp [TraceEntry.stepText?, reductions, List.lookup]

theorem filterMap_stepText? (h : log.mapM Event.entry = .ok entries) :
    entries.filterMap TraceEntry.stepText? = (Event.reductions log).map Reduction.text := by
  have hlog := forall₂_of_mapM h
  clear h
  induction hlog with
  | nil => rfl
  | @cons event t log entries he _ ih =>
    have hcons : (t :: entries).filterMap TraceEntry.stepText? =
        t.stepText?.toList ++ entries.filterMap TraceEntry.stepText? := by
      cases h : t.stepText? <;> simp [h]
    have hsplit : reductions (event :: log) = reductions [event] ++ reductions log :=
      List.filterMap_append (l := [event])
    rw [hcons, hsplit, stepText?_of_entry he, ih, List.map_append]

theorem Reports.replay_eq (h : event.Reports rows last) : event.replay rows = .ok last := by
  cases h with
  | conflict => rfl
  | settled => rfl
  | substituted hi hs hij hj hu he =>
    rw [replay, replaySubstitution, hj]
    dsimp only
    rw [he]
    rfl
  | reduced hs hd hlt hn he =>
    obtain ⟨quotient, factor, scaled, sum, _, _, hc, hsc, hsum, hs'⟩ := combine_eq_ok he
    rw [replay, replayReduction, hs.row, hd.row]
    dsimp only
    rw [Equation.multiply_of_unscale hc hsc, ok_bind, hsum, ok_bind, hs']
    rfl

theorem Reports.getElem? (h : event.Reports rows last) {j : ℕ} {e : Equation}
    (hc : event.change? = some (j, e)) : last[j]? = some e := by
  cases h with
  | conflict => cases hc
  | settled => cases hc
  | substituted hi hs hij hj hu he =>
    cases hc
    simp [(List.getElem?_eq_some_iff.1 hj).1]
  | reduced hs hd hlt hn he =>
    cases hc
    simp [(List.getElem?_eq_some_iff.1 hd.row).1]

/-- Replaying leads where the log traces. -/
theorem Traces.replayAll_eq (h : Traces log rows last) : replayAll log rows = .ok last := by
  induction h with
  | nil => rfl
  | cons he _ ih =>
    rw [replayAll, List.foldlM_cons, he.replay_eq, ok_bind]
    exact ih

/-- In the middle of a log the last event shows the row that it has just changed. -/
theorem Traces.exists_replayAll (h : Traces (log ++ event :: after) rows last) :
    ∃ mid, replayAll (log ++ [event]) rows = .ok mid ∧
      ∀ j e, event.change? = some (j, e) → mid[j]? = some e := by
  obtain ⟨before, hbefore, hrest⟩ := h.exists_of_append
  cases hrest with
  | cons he hafter =>
    refine ⟨_, (hbefore.append (.cons he (.nil _))).replayAll_eq, ?_⟩
    intro j e
    apply he.getElem?

end Event

/-- The log of a round that changes something comes before those of the rounds after it. -/
theorem settle_of_round {rows mid last : List Equation} {log log' : List Event} {k : ℕ}
    {v : Verdict} (h : substitutionRound rows = ⟨log, .ok (mid, .changed)⟩)
    (hs : settle mid = ⟨log', .ok (last, k, v)⟩) :
    settle rows = ⟨log ++ log', .ok (last, k + 1, v)⟩ := by
  rw [settle]
  split
  · next hr => simp [h] at hr
  · next hr =>
    obtain rfl : mid = _ := by simpa [h] using hr
    simp [h, hs, Except.map]
  · next hv hr =>
    simp only [h, Except.ok.injEq, Prod.mk.injEq] at hr
    exact absurd hr.2.symm hv

namespace LinearSystem

/-- The trace of a run that comes to its end is a complete record of it. Whatever has these entries,
its instructions take the original equations to the final ones. After each entry the row that it is
about has the text that it shows, and any observer is shown the steps of the trace in their
order. -/
theorem replayAll_of_solve {s r : LinearSystem} {passes : ℕ} {o : Option Outcome}
    {entries : List TraceEntry} (h : (s.solve passes).result = .ok (r, o))
    (ht : (s.solve passes).log.mapM Event.entry = .ok entries) :
    (∀ log, log.mapM Event.entry = .ok entries →
        Event.replayAll log s.equations = .ok r.equations) ∧
      (∀ before event after, (s.solve passes).log = before ++ event :: after →
        ∃ entry rows, event.entry = .ok entry ∧ entries[before.length]? = some entry ∧
          Event.replayAll (before ++ [event]) s.equations = .ok rows ∧
          ∀ j e, event.change? = some (j, e) → ∃ row text, rows[j]? = some row ∧
            row.text = .ok text ∧ entry.equationText? = some text) ∧
      ∀ steps, Event.reductions (s.solve passes).log = steps →
        entries.filterMap TraceEntry.stepText? = steps.map Reduction.text ∧
          ∀ (σ : Type) (observer : Observer σ) (a : σ),
            (s.solveWith observer passes).run.run a = (.ok (r, o), observer.watch steps a) := by
  obtain ⟨last, htrace, hlast⟩ := tracesTo_solve passes s
  obtain rfl := hlast _ h
  refine ⟨?_, ?_, ?_⟩
  · intro log hlog
    rw [Event.replayAll_eq_of_trace hlog ht]
    exact htrace.replayAll_eq
  · intro before event after hsplit
    rw [hsplit] at htrace ht
    obtain ⟨rows, hrows, hshown⟩ := htrace.exists_replayAll
    obtain ⟨entry, hentry, hat⟩ := Event.exists_entry ht
    refine ⟨entry, rows, hentry, hat, hrows, ?_⟩
    intro j e hc
    obtain ⟨text, htext, hfield⟩ := Event.equationText?_of_entry hentry hc
    exact ⟨e, text, hshown j e hc, htext, hfield⟩
  · rintro steps rfl
    refine ⟨Event.filterMap_stepText? ht, ?_⟩
    intro σ observer a
    rw [mirrors_solveWith observer passes s a, h]
    rfl

def secondValue : Equation := .ofPairs .descending [(1, "y"), (-2, "")]

/-- The first row is taken from the second, which gives `x` its value. That goes into the first row,
and the second pass finds nothing more to do. -/
theorem solve_sumDifference : sumDifference.solve 3 =
    ⟨[.reduced ⟨0, 1, .whole (-1)⟩ (.ofText "y") firstRow,
      .substituted (.ofText "x") .one 0 secondValue, .settled 1],
      .ok (⟨.descending, [secondValue, firstRow]⟩, some (.solved sumDifferenceValues))⟩ := by
  have hreduce : ExactLinear.reduce sumDifference.equations =
      ⟨[.reduced ⟨0, 1, .whole (-1)⟩ (.ofText "y") firstRow],
        .ok ([sumRow, firstRow], some ⟨0, 1, .whole (-1)⟩)⟩ := by cbv
  have hround : substitutionRound [sumRow, firstRow] =
      ⟨[.substituted (.ofText "x") .one 0 secondValue],
        .ok ([secondValue, firstRow], .changed)⟩ := by cbv
  have hfinished : Finished [secondValue, firstRow] := ⟨by cbv, by cbv⟩
  have hrest : settle [secondValue, firstRow] =
      ⟨[], .ok ([secondValue, firstRow], 0, .unchanged)⟩ :=
    congrArg₂ Logged.mk hfinished.log_settle hfinished.atRest.settle
  have hsettle := settle_of_round hround hrest
  have heliminate : ExactLinear.eliminate 3 sumDifference.equations =
      ⟨[.reduced ⟨0, 1, .whole (-1)⟩ (.ofText "y") firstRow,
        .substituted (.ofText "x") .one 0 secondValue, .settled 1],
        .ok ([secondValue, firstRow], .finished)⟩ := by
    rw [ExactLinear.eliminate, hreduce, Logged.bind_of_ok rfl]
    dsimp only
    rw [hsettle, Logged.bind_of_ok rfl]
    dsimp only
    rw [hfinished.eliminate]
    rfl
  have houtcome : Outcome.ofRows sumDifference.unknowns [secondValue, firstRow] =
      .ok (.solved sumDifferenceValues) := by cbv
  rw [solve, eliminate, heliminate, Logged.bind_of_ok rfl, Logged.bind_of_ok rfl]
  dsimp only
  rw [Logged.bind_of_ok (x := liftM (Outcome.ofRows _ _)) houtcome]
  rfl

/-- A recorder of the sum and the difference is shown the one reduction of the trace. -/
theorem replayAll_of_solve_sumDifference :
    ∃ r entries, (sumDifference.solve 3).result = .ok (r, some (.solved sumDifferenceValues)) ∧
      (sumDifference.solve 3).log.mapM Event.entry = .ok entries ∧
      entries.filterMap TraceEntry.equationText? = ["-x = -1", "y = 2"] ∧
      entries.filterMap TraceEntry.stepText? = ["-1 * p_\x7b0\x7d + p_\x7b1\x7d"] ∧
      Event.replayAll (sumDifference.solve 3).log sumDifference.equations = .ok r.equations ∧
      (sumDifference.solveWith (fun step => modify (step :: ·)) 3).run.run [] =
        (.ok (r, some (.solved sumDifferenceValues)), [⟨0, 1, .whole (-1)⟩]) := by
  have hresult := congrArg Logged.result solve_sumDifference
  have hlog := congrArg Logged.log solve_sumDifference
  have hentries : (sumDifference.solve 3).log.mapM Event.entry = .ok
      [⟨.debug, "reduced", [("step", "-1 * p_\x7b0\x7d + p_\x7b1\x7d"), ("variable", "y"),
          ("result", "-x = -1")]⟩,
        ⟨.trace, "substituted", [("variable", "x"), ("value", "1"), ("row", "0"),
          ("equation", "y = 2")]⟩,
        ⟨.debug, "substitution finished", [("rounds", "1")]⟩] := by
    rw [hlog]
    cbv
  obtain ⟨hreplay, _, hsteps⟩ := replayAll_of_solve hresult hentries
  obtain ⟨hstep, hobserve⟩ := hsteps _ rfl
  refine ⟨_, _, hresult, hentries, ?_, ?_, hreplay _ hentries, ?_⟩
  · simp [TraceEntry.equationText?, List.lookup]
  · simp [TraceEntry.stepText?, List.lookup]
  · rw [hobserve, hlog]
    rfl

end LinearSystem
end ExactLinear
