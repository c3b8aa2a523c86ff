import ExactLinear.Proofs.Elimination.Systems
import ExactLinear.Proofs.Failures.Arithmetic
import ExactLinear.Proofs.Outcome.ReadOff
import ExactLinear.Proofs.Reading.Language

/-! # Failures of the reader and the solver

Reading ends a run by overflow only, and on tidy rows every operation of the solver fails by
overflow only, at whatever point of a run it is made. Direct solutions are asked for where there is
no contradiction, and a reduction divides by leading coefficients.
-/

namespace ExactLinear

open Equation

/-- If the error ends the run, then by overflow. -/
def ParseError.IsPlain (e : ParseError) : Prop := ∀ f, e.fatal? = some f → f.IsOverflow

/-- The fault is that of a sum of what was read. -/
theorem readsPlainly_parse (s : String) : FailsOnly ParseError.IsPlain (Equation.parse s) := by
  intro e he f hf
  obtain ⟨_, _, _, _, _, hsum⟩ := exists_isEquationOf_of_parse he hf
  exact Fraction.isOverflow_of_ofRat hsum

theorem overflows_bind {α β : Type} {x : Logged α} {f : α → Logged β} (hx : Overflows x.result)
    (hf : ∀ a, x.result = .ok a → Overflows (f a).result) : Overflows (x >>= f).result := by
  rw [Logged.bind_result]
  exact .bind hx hf

theorem overflows_meet {n : Name} {x : Fraction} {i j : ℕ} {row : Equation} (hr : row.IsTidy) :
    Overflows (meet n x i j row).result := by
  rw [meet]
  split
  · exact .ok _
  split
  · exact .ok _
  · next hc =>
    refine overflows_bind (overflows_solution? hr.isCanonical (by simpa using hc)) fun s _ => ?_
    split
    · split
      · exact overflows_bind (.ok _) fun _ _ => .ok _
      · exact .ok _
    · exact .ok _
    · refine overflows_bind (overflows_substitute? hr.isCanonical.nonzero n x) fun e? _ => ?_
      split
      · exact .ok _
      · exact overflows_bind (.ok _) fun _ _ => .ok _

theorem overflows_spread {n : Name} {x : Fraction} {i j : ℕ} {rows : List Equation}
    (hr : ∀ row ∈ rows, row.IsTidy) : Overflows (spread n x i j rows).result := by
  induction rows generalizing j with
  | nil => exact .ok _
  | cons row rest ih =>
    obtain ⟨hrow, hrest⟩ := List.forall_mem_cons.1 hr
    rw [spread]
    refine overflows_bind (overflows_meet hrow) fun m _ => ?_
    cases m with
    | contradictory => exact .ok _
    | kept => exact overflows_bind (ih hrest) fun _ _ => .ok _
    | rewritten e => exact overflows_bind (ih hrest) fun _ _ => .ok _

variable {p : Policy} {rows : List Equation}

theorem overflows_substituteFrom {i : ℕ} {row : Equation} (hr : row.IsTidy) (ht : AreTidy p rows) :
    Overflows (substituteFrom i row rows).result := by
  rw [substituteFrom]
  split
  · exact .ok _
  · next hc =>
    refine overflows_bind (overflows_solution? hr.isCanonical (by simpa using hc)) fun s _ => ?_
    split
    · exact overflows_spread fun row hrow => (ht row hrow).2
    · exact .ok _

theorem overflows_roundFrom {k i : ℕ} (ht : AreTidy p rows) :
    Overflows (roundFrom k i rows).result := by
  induction k generalizing i rows with
  | zero => exact .ok _
  | succ k ih =>
    rw [roundFrom]
    split
    · exact .ok _
    · next row hrow =>
      have hr := (ht row (List.mem_of_getElem? hrow)).2
      refine overflows_bind (overflows_substituteFrom hr ht) fun r hm => ?_
      rcases r with ⟨mid, v⟩
      -- the rows that are left are tidy by the steps made so far
      have hmid := (passes_substituteFrom hrow hm).steps.areTidy ht
      dsimp only
      split
      · exact .ok _
      · exact overflows_bind (ih hmid) fun _ _ => .ok _

theorem overflows_settle (ht : AreTidy p rows) : Overflows (settle rows).result := by
  induction hc : variableCount rows using Nat.strong_induction_on generalizing rows with
  | _ c ih =>
    have hround : Overflows (substitutionRound rows).result := overflows_roundFrom ht
    rw [settle]
    split
    · next f hf => exact .error (hround f hf)
    · next mid hr =>
      have hmid := (passes_substitutionRound hr).steps.areTidy ht
      have hlt := variableCount_substitutionRound hr
      exact FailsOnly.map (ih _ (hc ▸ hlt) hmid rfl)
    · exact .ok _

theorem overflows_partner? {n : Name} {j : ℕ} (hr : ∀ row ∈ rows, row.IsTidy) :
    Overflows (partner? n j rows) := by
  induction rows generalizing j with
  | nil => exact .ok none
  | cons row rest ih =>
    obtain ⟨hrow, hrest⟩ := List.forall_mem_cons.1 hr
    rw [partner?]
    refine .bind (overflows_leader? hrow.isCanonical) fun l _ => ?_
    split
    · split
      · exact .ok _
      · exact ih hrest
    · exact ih hrest

theorem overflows_pair? {i : ℕ} (hr : ∀ row ∈ rows, row.IsTidy) : Overflows (pair? i rows) := by
  induction rows generalizing i with
  | nil => exact .ok none
  | cons row rest ih =>
    obtain ⟨hrow, hrest⟩ := List.forall_mem_cons.1 hr
    rw [pair?]
    refine .bind (overflows_leader? hrow.isCanonical) fun l _ => ?_
    split
    · exact ih hrest
    · refine .bind (overflows_partner? hrest) fun d _ => ?_
      split
      · exact .ok _
      · exact ih hrest

theorem LedRow.IsIn.coefficient_ne_zero {r : LedRow} (h : r.IsIn rows) (hr : r.row.IsTidy) :
    r.leader.coefficient ≠ .zero := by
  obtain ⟨_, hl⟩ := leader?_eq_some h.leader
  exact hr.isCanonical.nonzero _ (List.mem_of_mem_head? hl)

/-- Neither leading coefficient is zero, so the factor and its reciprocal exist. -/
theorem overflows_combine {s d : LedRow} (hs : s.row.IsTidy) (hd : d.row.IsTidy)
    (hs0 : s.leader.coefficient ≠ .zero) (hd0 : d.leader.coefficient ≠ .zero) :
    Overflows (combine s d) := by
  refine .bind (fun _ => Fraction.isOverflow_div hd0) fun quotient hq =>
    .bind (fun _ => Fraction.isOverflow_neg) fun factor hf => ?_
  have hfactor : factor ≠ .zero := by
    rintro rfl
    have hv := Fraction.value_neg hf
    rw [Fraction.value_div hd0 hq, Fraction.value_zero, eq_comm, neg_eq_zero] at hv
    exact div_ne_zero (Fraction.value_ne_zero hs0) (Fraction.value_ne_zero hd0) hv
  refine .bind (fun _ => Fraction.isOverflow_recip?) fun c? hc => ?_
  cases c? with
  | none => exact absurd (Fraction.recip?_eq_none_iff.1 hc) hfactor
  | some c =>
    exact .bind (overflows_unscale hs.isCanonical hfactor) fun scaled _ =>
      .bind (overflows_addTerms _ _) fun sum hsum =>
        .bind (overflows_simplify (hd.addTerms hsum).isCanonical.nonzero) fun e _ => .ok _

theorem overflows_reduce (ht : AreTidy p rows) : Overflows (reduce rows).result := by
  have hr : ∀ row ∈ rows, row.IsTidy := fun row hrow => (ht row hrow).2
  rw [reduce]
  refine overflows_bind (overflows_pair? hr) fun pair hpair => ?_
  split
  · exact .ok _
  · next s d =>
    obtain ⟨hs, hd, _⟩ := pair?_eq_some [] hpair
    have hst := hr _ (List.mem_of_getElem? hs.row)
    have hdt := hr _ (List.mem_of_getElem? hd.row)
    have hcombine := overflows_combine hst hdt (hs.coefficient_ne_zero hst)
      (hd.coefficient_ne_zero hdt)
    exact overflows_bind hcombine fun _ _ => overflows_bind (.ok _) fun _ _ => .ok _

theorem overflows_eliminate {passes : ℕ} (ht : AreTidy p rows) :
    Overflows (eliminate passes rows).result := by
  induction passes generalizing rows with
  | zero => exact .ok _
  | succ passes ih =>
    rw [eliminate_succ_result]
    refine .bind (overflows_reduce ht) fun reduced hm => ?_
    rcases reduced with ⟨mid, step⟩
    have hmid := (steps_reduce hm).1.areTidy ht
    refine .bind (overflows_settle hmid) fun settled hs => ?_
    rcases settled with ⟨rest, rounds, v⟩
    have hrest := (passes_settle hs).1.areTidy hmid
    dsimp only
    split
    · exact .ok _
    · split
      · exact .ok _
      · exact ih hrest

theorem overflows_readOff {s : Solution} {complete : Bool} (hr : ∀ row ∈ rows, row.IsTidy) :
    Overflows (readOff rows s complete) := by
  induction rows generalizing s complete with
  | nil => exact .ok _
  | cons row rest ih =>
    obtain ⟨hrow, hrest⟩ := List.forall_mem_cons.1 hr
    rw [readOff]
    split
    · exact .ok none
    · next hc =>
      refine .bind (overflows_solution? hrow.isCanonical (by simpa using hc)) fun d _ => ?_
      split
      · exact ih hrest
      · exact ih hrest
      · split
        · exact ih hrest
        · refine .bind (overflows_express? row _) fun ts? _ => ?_
          split <;> exact ih hrest

theorem overflows_ofRows {ns : List Name} (hr : ∀ row ∈ rows, row.IsTidy) :
    Overflows (Outcome.ofRows ns rows) := by
  refine .bind (overflows_readOff hr) fun read? _ => ?_
  split
  · exact .ok _
  · split <;> exact .ok _

/-- An operation on the equation fails with the fault. The division by zero that is reported for the
factor zero does not count, and the direct solution is asked for where there is no contradiction. -/
inductive Equation.FailsWith (e : Equation) : Fault → Prop
  | addTerm {t : Term} {f : Fault} (h : e.addTerm t = .error f) : FailsWith e f
  | addTerms {ts : List Term} {f : Fault} (h : e.addTerms ts = .error f) : FailsWith e f
  | scale {x : Fraction} {f : Fault} (hx : x = .zero → f.isFatal) (h : e.scale x = .error f) :
    FailsWith e f
  | unscale {x : Fraction} {f : Fault} (hx : x = .zero → f.isFatal) (h : e.unscale x = .error f) :
    FailsWith e f
  | simplify {f : Fault} (h : e.simplify = .error f) : FailsWith e f
  | substitute {n : Name} {x : Fraction} {f : Fault} (h : e.substitute? n x = .error f) :
    FailsWith e f
  | express {n : Name} {f : Fault} (h : e.express? n = .error f) : FailsWith e f
  | hasSolution {f : Fault} (h : e.hasSolution = .error f) : FailsWith e f
  | solution {f : Fault} (hc : e.isContradiction = false) (h : e.solution? = .error f) :
    FailsWith e f

theorem Equation.FailsWith.isOverflow {e : Equation} (he : e.IsTidy) {f : Fault}
    (h : e.FailsWith f) : f.IsOverflow := by
  have hc := he.isCanonical
  cases h with
  | addTerm h => exact overflows_addTerm e _ f h
  | addTerms h => exact overflows_addTerms e _ f h
  | scale hx h =>
    refine Fault.isOverflow_of_isFatal hx (fun h0 => ?_) fun h0 => overflows_scale hc h0 f h
    rw [h0, scale_zero] at h
    exact (Except.error.inj h).symm
  | unscale hx h =>
    refine Fault.isOverflow_of_isFatal hx (fun h0 => ?_) fun h0 => overflows_unscale hc h0 f h
    rw [h0, unscale_zero] at h
    exact (Except.error.inj h).symm
  | simplify h => exact overflows_simplify hc.nonzero f h
  | substitute h => exact overflows_substitute? hc.nonzero _ _ f h
  | express h => exact overflows_express? e _ f h
  | hasSolution h => exact overflows_hasSolution hc f h
  | solution h0 h => exact overflows_solution? hc h0 f h

inductive LinearSystem.FailsWith (s : LinearSystem) : Fault → Prop
  | reduce {f : Fault} (h : s.reduce.result = .error f) : FailsWith s f
  | substitute {f : Fault} (h : s.substitute.result = .error f) : FailsWith s f
  | eliminate {passes : ℕ} {f : Fault} (h : (s.eliminate passes).result = .error f) : FailsWith s f
  | solve {passes : ℕ} {f : Fault} (h : (s.solve passes).result = .error f) : FailsWith s f

namespace LinearSystem

theorem overflows_systemEliminate {s : LinearSystem} (hs : s.IsTidy) (passes : ℕ) :
    Overflows (s.eliminate passes).result :=
  overflows_bind (overflows_eliminate hs) fun _ _ => .ok _

theorem overflows_solve {s : LinearSystem} (hs : s.IsTidy) (passes : ℕ) :
    Overflows (s.solve passes).result := by
  refine overflows_bind (overflows_systemEliminate hs passes) fun ended he => ?_
  rcases ended with ⟨after, ending⟩
  have hafter := (evolves_of_eliminate he).1.isTidy hs
  cases ending with
  | unfinished => exact .ok _
  | contradiction => exact .ok _
  | finished =>
    exact overflows_bind (overflows_ofRows fun row hrow => (hafter row hrow).2) fun _ _ => .ok _

theorem FailsWith.isOverflow {s : LinearSystem} (hs : s.IsTidy) {f : Fault} (h : s.FailsWith f) :
    f.IsOverflow := by
  cases h with
  | reduce h => exact overflows_bind (overflows_reduce hs) (fun _ _ => .ok _) f h
  | substitute h => exact overflows_bind (overflows_roundFrom hs) (fun _ _ => .ok _) f h
  | eliminate h => exact overflows_systemEliminate hs _ f h
  | solve h => exact overflows_solve hs _ f h

end LinearSystem

/-- Numbers without a word are the only cause of failure: of the arithmetic of fractions, of reading
and building equations, and of every operation on equations and systems that can be reached. -/
theorem isOverflow_of_failure (allowed : Policy → Prop) :
    (∀ f, Fraction.FailsWith f → f.IsOverflow) ∧
      (∀ s e f, Equation.parse s = .error e → e.fatal? = some f → f.IsOverflow) ∧
      (∀ ts f, Equation.ofTerms ts = .error f → f.IsOverflow) ∧
      (∀ e : Equation, e.Reachable allowed → ∀ f, e.FailsWith f → f.IsOverflow) ∧
      ∀ s : LinearSystem, s.Reachable allowed → ∀ f, s.FailsWith f → f.IsOverflow := by
  refine ⟨fun f hf => hf.isOverflow, fun s e f h => readsPlainly_parse s e h f,
    fun ts f => overflows_addTerms {} ts f, fun e he f hf => hf.isOverflow he.isTidy,
    fun s hs f hf => hf.isOverflow hs.isTidy⟩

def largestWordSystem : LinearSystem :=
  let largest : Fraction := ⟨9223372036854775807, 1, .inr (by decide)⟩
  .ofEquations [⟨.descending, [⟨largest, .ofText "y"⟩, ⟨.one, .ofText "x"⟩]⟩,
    ⟨.descending, [⟨.one, .ofText "y"⟩, ⟨largest, .ofText "x"⟩]⟩]

theorem reachable_largestWordSystem (allowed : Policy → Prop) :
    largestWordSystem.Reachable allowed :=
  .push (.push .empty (.of_terms (by cbv))) (.of_terms (by cbv))

/-- A sum that has no word ends the reduction of the second row. -/
theorem isOverflow_of_failure_largestWordSystem :
    largestWordSystem.FailsWith (.overflow (9223372036854775807 ^ 2 - 1)) ∧
      (Fault.overflow (9223372036854775807 ^ 2 - 1)).IsOverflow := by
  have hf : largestWordSystem.FailsWith (.overflow (9223372036854775807 ^ 2 - 1)) :=
    .reduce (by cbv)
  have hs := reachable_largestWordSystem fun p => p.isBuiltIn
  exact ⟨hf, (isOverflow_of_failure _).2.2.2.2 _ hs _ hf⟩

end ExactLinear
