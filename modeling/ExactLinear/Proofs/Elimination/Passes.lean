import ExactLinear.Proofs.Elimination.Steps

/-! # Passes of elimination

A reduction is one step, taken from the first two rows that one variable leads. Passes that come to
their end leave settled rows, no two of them led by the same variable.
-/

namespace ExactLinear

theorem partner?_eq_some {n : Name} (before : List Equation) {rows : List Equation} {d : LedRow}
    (h : partner? n before.length rows = .ok (some d)) :
    d.IsIn (before ++ rows) ∧ before.length ≤ d.index ∧ d.leader.name = n := by
  induction rows generalizing before with
  | nil => cases h
  | cons row rest ih =>
    have tail (h : partner? n (before.length + 1) rest = .ok (some d)) :
        d.IsIn (before ++ row :: rest) ∧ before.length ≤ d.index ∧ d.leader.name = n := by
      have hd := ih (before ++ [row]) (by simpa using h)
      simp only [List.append_assoc, List.cons_append, List.nil_append, List.length_append,
        List.length_singleton] at hd
      exact ⟨hd.1, by omega, hd.2.2⟩
    rw [partner?] at h
    obtain ⟨l, hl, h⟩ := bind_eq_ok.1 h
    cases l with
    | none => exact tail h
    | some t =>
      dsimp only at h
      split at h
      · next hn =>
        cases h
        exact ⟨⟨by simp, hl⟩, le_rfl, hn⟩
      · exact tail h

theorem pair?_eq_some (before : List Equation) {rows : List Equation} {s d : LedRow}
    (h : pair? before.length rows = .ok (some (s, d))) :
    s.IsIn (before ++ rows) ∧ d.IsIn (before ++ rows) ∧ s.index < d.index ∧
      s.leader.name = d.leader.name := by
  induction rows generalizing before with
  | nil => cases h
  | cons row rest ih =>
    have tail (h : pair? (before.length + 1) rest = .ok (some (s, d))) :
        s.IsIn (before ++ row :: rest) ∧ d.IsIn (before ++ row :: rest) ∧ s.index < d.index ∧
          s.leader.name = d.leader.name := by
      have hp := ih (before ++ [row]) (by simpa using h)
      simpa using hp
    rw [pair?] at h
    obtain ⟨l, hl, h⟩ := bind_eq_ok.1 h
    cases l with
    | none => exact tail h
    | some t =>
      obtain ⟨d?, hd, h⟩ := bind_eq_ok.1 h
      cases d? with
      | none => exact tail h
      | some d' =>
        cases h
        have hp := partner?_eq_some (before ++ [row]) (by simpa using hd)
        simp only [List.append_assoc, List.cons_append, List.nil_append, List.length_append,
          List.length_singleton] at hp
        exact ⟨⟨by simp, hl⟩, hp.1, hp.2.1, hp.2.2.symm⟩

/-- The variable comes first in the equation, which is not left alone. -/
def Equation.IsLedBy (e : Equation) (n : Name) : Prop :=
  ¬e.IsFinal ∧ e.leadingTerm?.map Term.name = some n

theorem Equation.isLedBy_iff {e : Equation} {l : Option Term} (h : e.leader? = .ok l) {n : Name} :
    e.IsLedBy n ↔ ∃ t, l = some t ∧ t.name = n := by
  rw [leader?] at h
  split at h
  · next hc =>
    cases h
    simp [IsLedBy, IsFinal, hc]
  · next hc =>
    obtain ⟨d?, hd, h⟩ := bind_eq_ok.1 h
    cases d? with
    | some d =>
      cases h
      have hfinal : e.IsFinal := by
        cases d with
        | trivial => exact .inl (terms_of_solution?_trivial hd)
        | assignment n x => exact .inr (.inr ⟨n, x, hd⟩)
      simp [IsLedBy, hfinal]
    | none =>
      cases h
      have hopen : ¬e.IsFinal := fun hfinal => hfinal.not_isUnsolved hd
      simp [IsLedBy, hopen]

def SharesLeader (rows : List Equation) (i j : ℕ) : Prop :=
  i < j ∧ ∃ a b n, rows[i]? = some a ∧ rows[j]? = some b ∧ a.IsLedBy n ∧ b.IsLedBy n

theorem sharesLeader_of_isIn {rows : List Equation} {s d : LedRow} (hs : s.IsIn rows)
    (hd : d.IsIn rows) (hlt : s.index < d.index) (hn : s.leader.name = d.leader.name) :
    SharesLeader rows s.index d.index :=
  ⟨hlt, s.row, d.row, s.leader.name, hs.row, hd.row,
    (Equation.isLedBy_iff hs.leader).2 ⟨_, rfl, rfl⟩,
    (Equation.isLedBy_iff hd.leader).2 ⟨_, rfl, hn.symm⟩⟩

/-- The search for a partner ends at the first row that the variable leads. -/
theorem partner?_least {n : Name} {k : ℕ} {rows : List Equation} {d? : Option LedRow}
    (h : partner? n k rows = .ok d?) {m : ℕ} {row : Equation} (hm : rows[m]? = some row)
    (hn : row.IsLedBy n) : ∃ d, d? = some d ∧ d.index ≤ k + m := by
  induction rows generalizing k m with
  | nil => simp at hm
  | cons r rest ih =>
    rw [partner?] at h
    obtain ⟨l, hl, h⟩ := bind_eq_ok.1 h
    cases m with
    | zero =>
      obtain rfl : r = row := by simpa using hm
      obtain ⟨t, rfl, hname⟩ := (Equation.isLedBy_iff hl).1 hn
      simp only [hname, if_true] at h
      cases h
      exact ⟨_, rfl, Nat.le_refl k⟩
    | succ m =>
      have tail (h : partner? n (k + 1) rest = .ok d?) :
          ∃ d, d? = some d ∧ d.index ≤ k + (m + 1) := by
        obtain ⟨d, hd, hle⟩ := ih h (by simpa using hm)
        exact ⟨d, hd, by omega⟩
      cases l with
      | none => exact tail h
      | some t =>
        dsimp only at h
        split at h
        · cases h
          exact ⟨_, rfl, Nat.le_add_right k _⟩
        · exact tail h

/-- The search for a pair ends at the lexicographically least one. -/
theorem pair?_least {k : ℕ} {rows : List Equation} {p? : Option (LedRow × LedRow)}
    (h : pair? k rows = .ok p?) {i j : ℕ} (hs : SharesLeader rows i j) :
    ∃ s d, p? = some (s, d) ∧ (s.index < k + i ∨ s.index = k + i ∧ d.index ≤ k + j) := by
  induction rows generalizing k i j with
  | nil =>
    obtain ⟨_, a, _, _, ha, _⟩ := hs
    simp at ha
  | cons r rest ih =>
    obtain ⟨hlt, a, b, n, ha, hb, hna, hnb⟩ := hs
    obtain ⟨j, rfl⟩ := Nat.exists_eq_add_one_of_ne_zero (Nat.ne_zero_of_lt hlt)
    rw [pair?] at h
    obtain ⟨l, hl, h⟩ := bind_eq_ok.1 h
    cases i with
    | zero =>
      obtain rfl : r = a := by simpa using ha
      obtain ⟨t, rfl, rfl⟩ := (Equation.isLedBy_iff hl).1 hna
      obtain ⟨d?, hd, h⟩ := bind_eq_ok.1 h
      obtain ⟨d, rfl, hle⟩ := partner?_least hd (by simpa using hb) hnb
      cases h
      exact ⟨_, d, rfl, .inr ⟨rfl, by omega⟩⟩
    | succ i =>
      -- the pair is among the later rows
      have tail (h : pair? (k + 1) rest = .ok p?) : ∃ s d, p? = some (s, d) ∧
          (s.index < k + (i + 1) ∨ s.index = k + (i + 1) ∧ d.index ≤ k + (j + 1)) := by
        obtain ⟨s, d, hp, hle⟩ := ih h (i := i) (j := j)
          ⟨by omega, a, b, n, by simpa using ha, by simpa using hb, hna, hnb⟩
        exact ⟨s, d, hp, by omega⟩
      cases l with
      | none => exact tail h
      | some t =>
        obtain ⟨d?, hd, h⟩ := bind_eq_ok.1 h
        cases d? with
        | none => exact tail h
        | some d =>
          cases h
          exact ⟨_, d, rfl, .inl (by dsimp only; omega)⟩

def Unpaired (rows : List Equation) : Prop :=
  rows.Pairwise fun a b => ∀ t u, a.leader? = .ok (some t) → b.leader? = .ok (some u) →
    t.name ≠ u.name

theorem pair?_eq_none {i : ℕ} {rows : List Equation} (h : pair? i rows = .ok none) :
    Unpaired rows := by
  refine List.pairwise_iff_getElem.2 fun j k hj hk hlt t u ht hu hn => ?_
  have hs : SharesLeader rows j k := ⟨hlt, _, _, t.name, List.getElem?_eq_getElem hj,
    List.getElem?_eq_getElem hk, (Equation.isLedBy_iff ht).2 ⟨t, rfl, rfl⟩,
    (Equation.isLedBy_iff hu).2 ⟨u, rfl, hn.symm⟩⟩
  obtain ⟨_, _, hno, _⟩ := pair?_least h hs
  cases hno

theorem reduce_eq_ok {rows rows' : List Equation} {step? : Option Reduction}
    (h : (reduce rows).result = .ok (rows', step?)) :
    (pair? 0 rows = .ok none ∧ step? = none ∧ rows' = rows) ∨
      ∃ (s d : LedRow) (c : Fraction) (e : Equation), pair? 0 rows = .ok (some (s, d)) ∧
        combine s d = .ok (c, e) ∧ step? = some ⟨s.index, d.index, c⟩ ∧
          rows' = rows.set d.index e := by
  rw [reduce] at h
  obtain ⟨p?, hp, h⟩ := Logged.bind_result_eq_ok.1 h
  cases p? with
  | none =>
    cases h
    exact .inl ⟨hp, rfl, rfl⟩
  | some p =>
    obtain ⟨s, d⟩ := p
    obtain ⟨⟨c, e⟩, hc, h⟩ := Logged.bind_result_eq_ok.1 h
    obtain ⟨_, _, h⟩ := Logged.bind_result_eq_ok.1 h
    cases h
    exact .inr ⟨s, d, c, e, hp, hc, rfl, rfl⟩

/-- The rows of a reduction are led by one variable, and the later one is replaced. -/
theorem reduce_eq_some {rows rows' : List Equation} {step : Reduction}
    (h : (reduce rows).result = .ok (rows', some step)) :
    ∃ (s d : LedRow) (e : Equation), s.IsIn rows ∧ d.IsIn rows ∧ s.index < d.index ∧
      s.leader.name = d.leader.name ∧ combine s d = .ok (step.coefficient, e) ∧
        step = ⟨s.index, d.index, step.coefficient⟩ ∧ rows' = rows.set d.index e := by
  obtain ⟨_, hno, _⟩ | ⟨s, d, c, e, hp, hc, hstep, rfl⟩ := reduce_eq_ok h
  · cases hno
  · cases hstep
    obtain ⟨hs, hd, hlt, hn⟩ := pair?_eq_some [] hp
    exact ⟨s, d, e, hs, hd, hlt, hn, hc, rfl, rfl⟩

theorem reduce_eq_none {rows rows' : List Equation}
    (h : (reduce rows).result = .ok (rows', none)) : rows' = rows ∧ Unpaired rows := by
  obtain ⟨hp, _, rfl⟩ | ⟨_, _, _, _, _, _, hno, _⟩ := reduce_eq_ok h
  · exact ⟨rfl, pair?_eq_none hp⟩
  · cases hno

/-- A reduction is one step, and there is none only if no two rows have one leader. -/
theorem steps_reduce {rows rows' : List Equation} {step : Option Reduction}
    (h : (reduce rows).result = .ok (rows', step)) :
    RowSteps rows rows' ∧ (step = none → rows' = rows ∧ Unpaired rows) := by
  cases step with
  | none =>
    obtain ⟨rfl, hun⟩ := reduce_eq_none h
    exact ⟨.refl, fun _ => ⟨rfl, hun⟩⟩
  | some step =>
    obtain ⟨s, d, e, hs, hd, hlt, hn, hc, _, rfl⟩ := reduce_eq_some h
    exact ⟨.single (.reduced hs hd hlt hn hc), by simp⟩

/-- One pass and what follows it. The report on the rounds has no say in the result. -/
theorem eliminate_succ_result (passes : ℕ) (rows : List Equation) :
    (eliminate (passes + 1) rows).result = (do
      let (mid, step) ← (reduce rows).result
      let (rest, rounds, v) ← (settle mid).result
      if v = .contradiction then .ok (rest, .contradiction)
      else if step.isNone ∧ rounds = 0 then .ok (rest, .finished)
      else (eliminate passes rest).result) := by
  rw [eliminate, Logged.bind_result]
  congr 1
  funext reduced
  rcases reduced with ⟨mid, step⟩
  rw [Logged.bind_result]
  congr 1
  funext settled
  rcases settled with ⟨rest, rounds, v⟩
  dsimp only
  split
  · rw [Logged.bind_result, Logged.emit_result, ok_bind]
    split
    · rfl
    · split <;> rfl
  · split
    · rfl
    · split <;> rfl

theorem eliminate_succ_eq_ok {passes : ℕ} {rows rows' : List Equation} {ending : Ending}
    (h : (eliminate (passes + 1) rows).result = .ok (rows', ending)) :
    ∃ mid step rest rounds v, (reduce rows).result = .ok (mid, step) ∧
      (settle mid).result = .ok (rest, rounds, v) ∧
        (v = .contradiction ∧ rows' = rest ∧ ending = .contradiction ∨
          v ≠ .contradiction ∧ (step = none ∧ rounds = 0) ∧ rows' = rest ∧ ending = .finished ∨
          v ≠ .contradiction ∧ ¬(step = none ∧ rounds = 0) ∧
            (eliminate passes rest).result = .ok (rows', ending)) := by
  rw [eliminate_succ_result] at h
  obtain ⟨⟨mid, step⟩, hr, h⟩ := bind_eq_ok.1 h
  obtain ⟨⟨rest, rounds, v⟩, hs, h⟩ := bind_eq_ok.1 h
  refine ⟨mid, step, rest, rounds, v, hr, hs, ?_⟩
  dsimp only at h
  split at h
  · next hv => cases h; exact .inl ⟨hv, rfl, rfl⟩
  · next hv =>
    split at h
    · next hn =>
      cases h
      exact .inr (.inl ⟨hv, hn.imp_left Option.isNone_iff_eq_none.1, rfl, rfl⟩)
    · next hn =>
      exact .inr (.inr ⟨hv, mt (And.imp_left Option.isNone_iff_eq_none.2) hn, h⟩)

theorem eliminate_succ_of_goesOn (passes : ℕ) {rows mid rest : List Equation}
    {step : Option Reduction} {rounds : ℕ} {v : Verdict}
    (hr : (reduce rows).result = .ok (mid, step))
    (hs : (settle mid).result = .ok (rest, rounds, v)) (hv : v ≠ .contradiction)
    (hn : ¬(step = none ∧ rounds = 0)) :
    (eliminate (passes + 1) rows).result = (eliminate passes rest).result := by
  rw [eliminate_succ_result, hr, ok_bind]
  dsimp only
  rw [hs, ok_bind]
  dsimp only
  rw [if_neg hv, if_neg (mt (And.imp_left Option.isNone_iff_eq_none.1) hn)]

theorem eliminate_succ_eq_unfinished {passes : ℕ} {rows last : List Equation}
    (h : (eliminate (passes + 1) rows).result = .ok (last, .unfinished)) :
    ∃ mid step rest rounds v, (reduce rows).result = .ok (mid, step) ∧
      (settle mid).result = .ok (rest, rounds, v) ∧ v ≠ .contradiction ∧
        ¬(step = none ∧ rounds = 0) ∧ (eliminate passes rest).result = .ok (last, .unfinished) := by
  obtain ⟨mid, step, rest, rounds, v, hr, hs, hend⟩ := eliminate_succ_eq_ok h
  rcases hend with ⟨_, _, he⟩ | ⟨_, _, _, he⟩ | ⟨hv, hn, hrec⟩
  · cases he
  · cases he
  · exact ⟨mid, step, rest, rounds, v, hr, hs, hv, hn, hrec⟩

/-- Passes of elimination: a run of steps that ends in a clash, or in settled rows of which no two
have one leader, or with the budget used up. -/
theorem steps_eliminate {passes : ℕ} {rows rows' : List Equation} {ending : Ending}
    (h : (eliminate passes rows).result = .ok (rows', ending)) :
    RowSteps rows rows' ∧ (ending = .contradiction → Clash rows') ∧
      (ending = .finished → Settled rows' ∧ Unpaired rows') := by
  induction passes generalizing rows with
  | zero => cases h; exact ⟨.refl, by simp, by simp⟩
  | succ passes ih =>
    obtain ⟨mid, step, rest, rounds, v, hr, hs, hend⟩ := eliminate_succ_eq_ok h
    obtain ⟨hsteps, hpair⟩ := steps_reduce hr
    obtain ⟨hsettle, hclash, hsettled⟩ := passes_settle hs
    rcases hend with ⟨hv, rfl, rfl⟩ | ⟨hv, ⟨rfl, rfl⟩, rfl, rfl⟩ | ⟨_, _, hrec⟩
    · exact ⟨hsteps.trans hsettle, fun _ => hclash hv, by simp⟩
    · obtain ⟨hset, hsame⟩ := hsettled hv
      obtain ⟨rfl, hun⟩ := hpair rfl
      obtain rfl := hsame rfl
      exact ⟨hsteps.trans hsettle, by simp, fun _ => ⟨hset, hun⟩⟩
    · obtain ⟨hrest, hlast⟩ := ih hrec
      exact ⟨(hsteps.trans hsettle).trans hrest, hlast⟩

end ExactLinear
