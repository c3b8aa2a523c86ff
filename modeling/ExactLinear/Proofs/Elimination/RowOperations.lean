import ExactLinear.Proofs.Elimination.Leaders
import ExactLinear.Proofs.Failures.Solving
import ExactLinear.Proofs.Outcome.Unknowns

/-! # Reductions as row operations

Of the pairs of rows that one variable leads a reduction takes the first in lexicographic order. The
coefficient that it reports is the one that clears the variable, and the new row is a positive
multiple of the exact sum, coefficient by coefficient. All other rows stay.
-/

namespace ExactLinear

theorem isLeast_of_pair? {rows : List Equation} {s d : LedRow}
    (h : pair? 0 rows = .ok (some (s, d))) :
    IsLeast {p : ℕ ×ₗ ℕ | SharesLeader rows (ofLex p).1 (ofLex p).2}
      (toLex (s.index, d.index)) := by
  obtain ⟨hs, hd, hlt, hn⟩ := pair?_eq_some [] h
  refine ⟨sharesLeader_of_isIn hs hd hlt hn, fun p hp => ?_⟩
  obtain ⟨_, _, hsame, hle⟩ := pair?_least h hp
  cases hsame
  rw [Prod.Lex.le_iff]
  simpa using hle

/-- The equation is the destination with the multiple of the source added term by term, and then
multiplied by the positive number that simplifies it. So is every coefficient. -/
def IsRowOperation (c : Fraction) (source destination e : Equation) : Prop :=
  ∃ (scaled sum : Equation) (q : ℚ), source.multiply c = .ok scaled ∧
    destination.addTerms scaled.terms = .ok sum ∧ sum.simplify = .ok e ∧
      0 < q ∧ Equation.IsMultiple q sum e ∧ e.IsTidy ∧ ∀ n, (e.coefficientOf n).value =
        q * ((destination.coefficientOf n).value + c.value * (source.coefficientOf n).value)

theorem isRowOperation_of_combine {s d : LedRow} {c : Fraction} {e : Equation}
    (hs : s.row.IsTidy) (hd : d.row.IsTidy) (h : combine s d = .ok (c, e)) :
    IsRowOperation c s.row d.row e := by
  obtain ⟨quotient, factor, scaled, sum, _, _, hc, hsc, hsum, he⟩ := combine_eq_ok h
  have hmul := Equation.multiply_of_unscale hc hsc
  obtain ⟨q, hq, hm⟩ := Equation.isMultiple_of_simplify he
  have htidy : e.IsTidy := (replaces_of_combine h).isTidy hd
  refine ⟨scaled, sum, q, hmul, hsum, he, hq, hm, htidy, fun n => ?_⟩
  rw [Equation.value_coefficientOf htidy.isCanonical.nodup,
    Equation.value_coefficientOf hd.isCanonical.nodup,
    Equation.value_coefficientOf hs.isCanonical.nodup, hm.coefficientSum,
    Equation.coefficientSum_addTerms hsum,
    (Equation.isMultiple_of_multiply hmul).coefficientSum]

theorem compare_of_combine {p : Policy} {rows : List Equation} (hp : p.OrdersNames)
    (ht : AreTidy p rows) {s d : LedRow} {c : Fraction} {e : Equation} (hs : s.IsIn rows)
    (hd : d.IsIn rows) (hn : s.leader.name = d.leader.name) (h : combine s d = .ok (c, e)) :
    ∀ w ∈ e.terms, w.isConstant = false → p.compare d.leader w = .lt := by
  intro w hw hv
  obtain ⟨_, hst⟩ := ht s.row (List.mem_of_getElem? hs.row)
  obtain ⟨_, hdt⟩ := ht d.row (List.mem_of_getElem? hd.row)
  have hmem : w.name ∈ e.unknowns := Equation.mem_unknowns.2 ⟨w, hw, hv, rfl⟩
  have hne : d.leader.name ≠ w.name := by
    intro heq
    exact notMem_unknowns_of_combine hst hdt hs.leader hd.leader hn h (heq ▸ hmem)
  rw [hp.compare_eq _ _ hne]
  exact compareNames_of_combine hp ht hs hd hn h _ hmem

namespace LinearSystem

/-- A reduction is the row operation that it reports. It fails by overflow only. There is none only
if no variable leads two equations, and then nothing changes. Otherwise its rows are the
lexicographically least pair that one variable leads, its coefficient is the opposite of the
quotient of their leading coefficients, and the second row alone changes, to a positive multiple of
its sum with the multiple of the first. The shared variable is no longer in it, and under a built-in
policy every variable that is, the new leading one among them, comes after the old one. -/
theorem isRowOperation_of_reduce {allowed : Policy → Prop} {s : LinearSystem}
    (hs : s.Reachable allowed) :
    (∀ f, s.reduce.result = .error f → f.IsOverflow) ∧
      ∀ r step?, s.reduce.result = .ok (r, step?) →
        (step? = none ↔ ∀ i j, ¬SharesLeader s.equations i j) ∧
        (step? = none → r = s) ∧
        ∀ step, step? = some step →
          IsLeast {p : ℕ ×ₗ ℕ | SharesLeader s.equations (ofLex p).1 (ofLex p).2}
            (toLex (step.source, step.destination)) ∧
          ∃ source destination t u e,
            s.equations[step.source]? = some source ∧
            s.equations[step.destination]? = some destination ∧
            source.leadingTerm? = some t ∧ destination.leadingTerm? = some u ∧
            step.coefficient.value = -(u.coefficient.value / t.coefficient.value) ∧
            r = { s with equations := s.equations.set step.destination e } ∧
            IsRowOperation step.coefficient source destination e ∧
            t.name = u.name ∧ t.name ∉ e.unknowns ∧
            (s.policy.isBuiltIn → ∀ w ∈ e.terms, w.isConstant = false →
              s.policy.compare u w = .lt) := by
  refine ⟨fun f hf => (FailsWith.reduce hf).isOverflow hs.isTidy, fun r step? h => ?_⟩
  obtain ⟨⟨rows, step'⟩, hr, h⟩ := Logged.bind_result_eq_ok.1 h
  cases h
  obtain ⟨hp, rfl, rfl⟩ | ⟨a, b, c, e, hp, hc, rfl, rfl⟩ := reduce_eq_ok hr
  · refine ⟨⟨fun _ i j hij => ?_, fun _ => rfl⟩, fun _ => rfl, fun _ hno => by cases hno⟩
    obtain ⟨_, _, hno, _⟩ := pair?_least hp hij
    cases hno
  · obtain ⟨ha, hb, hlt, hn⟩ := pair?_eq_some [] hp
    have hshared := sharesLeader_of_isIn ha hb hlt hn
    refine ⟨⟨nofun, fun hno => absurd hshared (hno _ _)⟩, nofun, fun step hstep => ?_⟩
    cases hstep
    obtain ⟨_, hat⟩ := hs.isTidy a.row (List.mem_of_getElem? ha.row)
    obtain ⟨_, hbt⟩ := hs.isTidy b.row (List.mem_of_getElem? hb.row)
    have hgone := notMem_unknowns_of_combine hat hbt ha.leader hb.leader hn hc
    exact ⟨isLeast_of_pair? hp, a.row, b.row, a.leader, b.leader, e, ha.row, hb.row,
      (Equation.leader?_eq_some ha.leader).2, (Equation.leader?_eq_some hb.leader).2,
      value_of_combine (hb.coefficient_ne_zero hbt) hc, rfl, isRowOperation_of_combine hat hbt hc,
      hn, hn ▸ hgone, fun hpol => compare_of_combine (Policy.ordersNames_of_isBuiltIn hpol)
        hs.isTidy ha hb hn hc⟩

def threeSums : LinearSystem := .ofEquations
  [.ofPairs .descending [(2, "z"), (4, "x"), (-8, "")],
    .ofPairs .descending [(1, "y"), (1, "x"), (-1, "")],
    .ofPairs .descending [(1, "z"), (-2, "y")]]

/-- Minus one half of the first equation is added to the third, and one half of the sum takes its
place. Where every variable leads one equation at most there is nothing to reduce. -/
theorem isRowOperation_of_reduce_threeSums :
    threeSums.Reachable (fun p => p.isBuiltIn) ∧
      (∃ r c source destination t u e, threeSums.reduce.result = .ok (r, some ⟨0, 2, c⟩) ∧
        c.value = -(1 / 2) ∧ e = .ofPairs .descending [(-1, "y"), (-1, "x"), (2, "")] ∧
        r = { threeSums with equations := threeSums.equations.set 2 e } ∧
        IsLeast {p : ℕ ×ₗ ℕ | SharesLeader threeSums.equations (ofLex p).1 (ofLex p).2}
          (toLex (0, 2)) ∧
        threeSums.equations[0]? = some source ∧ threeSums.equations[2]? = some destination ∧
        source.leadingTerm? = some t ∧ destination.leadingTerm? = some u ∧
        IsRowOperation c source destination e ∧ t.name ∉ e.unknowns ∧
        ∀ w ∈ e.terms, w.isConstant = false → threeSums.policy.compare u w = .lt) ∧
      sumFirst.reduce.result = .ok (sumFirst, none) ∧
        ∀ i j, ¬SharesLeader sumFirst.equations i j := by
  have hs : threeSums.Reachable (fun p => p.isBuiltIn) :=
    .push (.push (.push .empty (.of_terms (by cbv))) (.of_terms (by cbv))) (.of_terms (by cbv))
  have hf : sumFirst.Reachable (fun p => p.isBuiltIn) :=
    .push (.push .empty (.of_terms (by cbv))) (.of_terms (by cbv))
  have hr : threeSums.reduce.result = .ok (⟨.descending, threeSums.equations.set 2
    (.ofPairs .descending [(-1, "y"), (-1, "x"), (2, "")])⟩,
      some ⟨0, 2, ⟨-1, 2, .inr (by decide)⟩⟩) := by cbv
  have hrest : sumFirst.reduce.result = .ok (sumFirst, none) := by cbv
  obtain ⟨_, _, hstep⟩ := (isRowOperation_of_reduce hs).2 _ _ hr
  obtain ⟨hleast, source, destination, t, u, e, hsource, hdestination, ht, hu, _, hset, hop, _,
    hgone, hlater⟩ := hstep _ rfl
  have he : some (.ofPairs .descending [(-1, "y"), (-1, "x"), (2, "")]) = some e :=
    congrArg (fun r : LinearSystem => r.equations[2]?) hset
  refine ⟨hs, ⟨_, _, source, destination, t, u, e, hr, by norm_num [Fraction.value],
    (Option.some.inj he).symm, hset, hleast, hsource, hdestination, ht, hu, hop, hgone,
    hlater rfl⟩, hrest, ?_⟩
  exact ((isRowOperation_of_reduce hf).2 _ _ hrest).1.1 rfl

end LinearSystem
end ExactLinear
