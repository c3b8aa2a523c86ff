import ExactLinear.Proofs.Elimination.Reports
import ExactLinear.Run

/-! # Traces of the rows

Every change of a row is reported by the next event, which shows the row as it is then. The log of
each operation therefore traces the rows from where it starts to where it stops, be that a result or
a fault.
-/

namespace ExactLinear

namespace Event

/-- The event reports what the first rows become: the row of a step, or no change. -/
inductive Reports : Event → List Equation → List Equation → Prop
  | conflict (n : Name) (x y : Fraction) (rows : List Equation) :
    Reports (.conflict n x y) rows rows
  | settled (rounds : ℕ) (rows : List Equation) : Reports (.settled rounds) rows rows
  | substituted {rows : List Equation} {i j : ℕ} {source row e : Equation} {n : Name}
      {x : Fraction} (hi : rows[i]? = some source) (hs : source.Assigns n x) (hij : i ≠ j)
      (hj : rows[j]? = some row) (hu : row.IsUnsolved)
      (he : row.substitute? n x = .ok (some e)) :
    Reports (.substituted n x j e) rows (rows.set j e)
  | reduced {rows : List Equation} {s d : LedRow} {c : Fraction} {e : Equation}
      (hs : s.IsIn rows) (hd : d.IsIn rows) (hlt : s.index < d.index)
      (hn : s.leader.name = d.leader.name) (he : combine s d = .ok (c, e)) :
    Reports (.reduced ⟨s.index, d.index, c⟩ s.leader.name e) rows (rows.set d.index e)

inductive Traces : List Event → List Equation → List Equation → Prop
  | nil (rows : List Equation) : Traces [] rows rows
  | cons {event : Event} {log : List Event} {rows mid last : List Equation}
      (h : event.Reports rows mid) (hs : Traces log mid last) : Traces (event :: log) rows last

variable {event : Event} {log log' : List Event} {rows mid last : List Equation}

theorem Reports.shown_eq (h : event.Reports rows last) : event.shown rows = last := by
  cases h <;> rfl

theorem Reports.steps (h : event.Reports rows last) : RowSteps rows last := by
  cases h with
  | conflict => exact .refl
  | settled => exact .refl
  | substituted hi hs hij hj hu he => exact .single (.substituted hi hs hij hj hu he)
  | reduced hs hd hlt hn he => exact .single (.reduced hs hd hlt hn he)

namespace Traces

theorem append (h : Traces log rows mid) (k : Traces log' mid last) :
    Traces (log ++ log') rows last := by
  induction h with
  | nil => exact k
  | cons he _ ih => exact .cons he (ih k)

theorem exists_of_append (h : Traces (log ++ log') rows last) :
    ∃ mid, Traces log rows mid ∧ Traces log' mid last := by
  induction log generalizing rows with
  | nil => exact ⟨rows, .nil rows, h⟩
  | cons event log ih =>
    cases h with
    | cons he hs =>
      obtain ⟨mid, hlog, hrest⟩ := ih hs
      exact ⟨mid, .cons he hlog, hrest⟩

theorem shownAll_eq (h : Traces log rows last) : shownAll log rows = last := by
  induction h with
  | nil => rfl
  | cons he _ ih =>
    rw [shownAll, List.foldl_cons, he.shown_eq]
    exact ih

theorem steps (h : Traces log rows last) : RowSteps rows last := by
  induction h with
  | nil => exact .refl
  | cons he _ ih => exact he.steps.trans ih

end Traces
end Event

namespace Logged

variable {α β : Type}

/-- The log traces the rows to where the computation stops. In a result they are its last rows. -/
def TracesTo (x : Logged α) (rows : List Equation) (last : α → List Equation) : Prop :=
  ∃ rows', Event.Traces x.log rows rows' ∧ ∀ a, x.result = .ok a → last a = rows'

namespace TracesTo

variable {x : Logged α} {f : α → Logged β} {rows rows' : List Equation}
  {mid : α → List Equation} {last : β → List Equation}

theorem of_log_eq_nil (hx : x.log = []) (h : ∀ a, x.result = .ok a → mid a = rows) :
    x.TracesTo rows mid := by
  refine ⟨rows, ?_, h⟩
  rw [hx]
  exact .nil rows

theorem pure {a : α} (h : mid a = rows) : (Pure.pure a : Logged α).TracesTo rows mid :=
  of_log_eq_nil rfl fun _ hb => by cases hb; exact h

theorem emit {event : Event} (h : event.Reports rows rows') :
    (Logged.emit event).TracesTo rows fun _ => rows' :=
  ⟨rows', .cons h (.nil rows'), fun _ _ => rfl⟩

theorem bind (hx : x.TracesTo rows mid)
    (hf : ∀ a, x.result = .ok a → (f a).TracesTo (mid a) last) :
    (x >>= f).TracesTo rows last := by
  obtain ⟨rows', htrace, hmid⟩ := hx
  cases h : x.result with
  | error e =>
    rw [bind_of_error h]
    exact ⟨rows', htrace, fun _ hb => by cases hb⟩
  | ok a =>
    obtain ⟨rows'', hrest, hlast⟩ := hf a h
    rw [hmid a h] at hrest
    rw [bind_of_ok h]
    exact ⟨rows'', htrace.append hrest, hlast⟩

theorem bind_of_log_eq_nil (hx : x.log = [])
    (hf : ∀ a, x.result = .ok a → (f a).TracesTo rows last) : (x >>= f).TracesTo rows last :=
  bind (of_log_eq_nil hx fun _ _ => rfl) hf

end TracesTo
end Logged

def Meeting.rows (rows : List Equation) (j : ℕ) : Meeting → List Equation
  | .rewritten e => rows.set j e
  | _ => rows

theorem tracesTo_meet {n : Name} {x : Fraction} {i j : ℕ} {rows : List Equation}
    {source row : Equation} (hi : rows[i]? = some source) (hs : source.Assigns n x)
    (hj : rows[j]? = some row) : (meet n x i j row).TracesTo rows (Meeting.rows rows j) := by
  rw [meet]
  split
  · exact .pure rfl
  split
  · exact .pure rfl
  · next hji _ =>
    refine .bind_of_log_eq_nil rfl fun d hd => ?_
    split
    · split
      · exact .bind (.emit (.conflict _ _ _ rows)) fun _ _ => .pure rfl
      · exact .pure rfl
    · exact .pure rfl
    · refine .bind_of_log_eq_nil rfl fun e? he => ?_
      split
      · exact .pure rfl
      · exact .bind (.emit (.substituted hi hs (Ne.symm hji) hj hd he)) fun _ _ => .pure rfl

/-- The rows before the spread, among them perhaps row `i`, stay as they are. -/
theorem tracesTo_spread {n : Name} {x : Fraction} {i : ℕ} (before : List Equation)
    {rows : List Equation} {source : Equation} (hi : (before ++ rows)[i]? = some source)
    (hs : source.Assigns n x) :
    (spread n x i before.length rows).TracesTo (before ++ rows) fun r => before ++ r.1 := by
  induction rows generalizing before with
  | nil => exact .pure rfl
  | cons row rest ih =>
    have tail (r : Equation) (hr : (before ++ r :: rest)[i]? = some source) :
        (spread n x i (before.length + 1) rest).TracesTo (before ++ r :: rest) fun t =>
          before ++ r :: t.1 := by
      have ht := ih (before ++ [r]) (by simpa using hr)
      simpa using ht
    rw [spread]
    refine .bind (tracesTo_meet hi hs (by simp)) fun m hm => ?_
    cases m with
    | contradictory => exact .pure rfl
    | kept => exact .bind (tail row hi) fun _ _ => .pure rfl
    | rewritten e =>
      have hset : (before ++ row :: rest).set before.length e = before ++ e :: rest := by simp
      have hi' : (before ++ e :: rest)[i]? = some source := by
        cases meets_of_meet hm with
        | rewritten hij _ _ => rw [← hset, List.getElem?_set_ne hij.symm, hi]
      rw [Meeting.rows, hset]
      exact .bind (tail e hi') fun _ _ => .pure rfl

theorem tracesTo_substituteFrom {i : ℕ} {row : Equation} {rows : List Equation}
    (hi : rows[i]? = some row) : (substituteFrom i row rows).TracesTo rows Prod.fst := by
  rw [substituteFrom]
  split
  · exact .pure rfl
  · refine .bind_of_log_eq_nil rfl fun d hd => ?_
    split
    · exact tracesTo_spread [] hi hd
    · exact .pure rfl

theorem tracesTo_roundFrom (k i : ℕ) (rows : List Equation) :
    (roundFrom k i rows).TracesTo rows Prod.fst := by
  induction k generalizing i rows with
  | zero => exact .pure rfl
  | succ k ih =>
    rw [roundFrom]
    split
    · exact .pure rfl
    · next row hrow =>
      refine .bind (tracesTo_substituteFrom hrow) fun r _ => ?_
      dsimp only
      split
      · exact .pure rfl
      · exact .bind (ih _ _) fun _ _ => .pure rfl

theorem tracesTo_substitutionRound (rows : List Equation) :
    (substitutionRound rows).TracesTo rows Prod.fst := tracesTo_roundFrom rows.length 0 rows

theorem tracesTo_settle (rows : List Equation) : (settle rows).TracesTo rows Prod.fst := by
  induction hc : variableCount rows using Nat.strong_induction_on generalizing rows with
  | _ c ih =>
    obtain ⟨rows', hround, hmid⟩ := tracesTo_substitutionRound rows
    rw [settle]
    split
    · exact ⟨rows', hround, fun _ ha => by cases ha⟩
    · next mid hr =>
      obtain ⟨rows'', hrest, hlast⟩ := ih _ (hc ▸ variableCount_substitutionRound hr) mid rfl
      obtain rfl : mid = rows' := hmid _ hr
      refine ⟨rows'', hround.append hrest, fun a ha => ?_⟩
      obtain ⟨r, hs, rfl⟩ := map_eq_ok.1 ha
      exact hlast r hs
    · next hr =>
      refine ⟨rows', hround, fun a ha => ?_⟩
      cases ha
      exact hmid _ hr

theorem tracesTo_reduce (rows : List Equation) : (reduce rows).TracesTo rows Prod.fst := by
  rw [reduce]
  refine .bind_of_log_eq_nil rfl fun p? hp => ?_
  split
  · exact .pure rfl
  · obtain ⟨hs, hd, hlt, hn⟩ := pair?_eq_some [] hp
    refine .bind_of_log_eq_nil rfl fun r hc => ?_
    exact .bind (.emit (.reduced hs hd hlt hn hc)) fun _ _ => .pure rfl

theorem tracesTo_eliminate (passes : ℕ) (rows : List Equation) :
    (eliminate passes rows).TracesTo rows Prod.fst := by
  induction passes generalizing rows with
  | zero => exact .pure rfl
  | succ passes ih =>
    rw [eliminate]
    refine .bind (tracesTo_reduce rows) fun r _ => .bind (tracesTo_settle r.1) fun t _ => ?_
    have goOn : Logged.TracesTo (if t.2.2 = .contradiction then pure (t.1, .contradiction)
        else if r.2.isNone ∧ t.2.1 = 0 then pure (t.1, .finished) else eliminate passes t.1)
        t.1 Prod.fst := by
      split
      · exact .pure rfl
      split
      · exact .pure rfl
      · exact ih _
    dsimp only
    split
    · exact .bind (.emit (.settled _ _)) fun _ _ => goOn
    · exact goOn

end ExactLinear
