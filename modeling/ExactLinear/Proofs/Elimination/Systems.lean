import ExactLinear.Proofs.Bindings
import ExactLinear.Proofs.Elimination.Invariants
import ExactLinear.Proofs.Elimination.Passes
import ExactLinear.Run

/-! # Elimination on systems

Every operation of a solver is a run of steps on the equations of a system, under the policy that
the system keeps. Such a run keeps the satisfying valuations and the unknowns.
-/

namespace ExactLinear.LinearSystem

abbrev Satisfied (v : Valuation) (s : LinearSystem) : Prop := AreSatisfied v s.equations

abbrev IsTidy (s : LinearSystem) : Prop := AreTidy s.policy s.equations

theorem mem_unknowns {s : LinearSystem} {n : Name} :
    n ∈ s.unknowns ↔ ∃ e ∈ s.equations, n ∈ e.unknowns := by
  have key (ns : List Name) : n ∈ ns.foldr Name.insertInto [] ↔ n ∈ ns := by
    induction ns with
    | nil => simp
    | cons m ms ih => simp [Name.mem_insertInto, ih]
  rw [unknowns, key, List.mem_flatMap]

theorem isAscending_unknowns (s : LinearSystem) : Name.IsAscending s.unknowns := by
  rw [unknowns]
  induction s.equations.flatMap Equation.unknowns with
  | nil => exact .nil
  | cons n ns ih => exact ih.insertInto n

theorem satisfied_congr {s : LinearSystem} {v w : Valuation} (h : ∀ n ∈ s.unknowns, v n = w n) :
    s.Satisfied v ↔ s.Satisfied w := by
  apply forall₂_congr
  intro e he
  exact Equation.satisfied_congr fun n hn => h n (mem_unknowns.2 ⟨e, he, hn⟩)

theorem IsTidy.push {s : LinearSystem} {e : Equation} (hs : s.IsTidy) (he : e.IsTidy) :
    (s.push e).IsTidy := by
  intro d hd
  rcases List.mem_append.1 hd with hd | hd
  · exact hs d hd
  · rw [List.mem_singleton.1 hd]
    exact ⟨rfl, he.withPolicy s.policy⟩

theorem IsTidy.withPolicy {s : LinearSystem} (hs : s.IsTidy) (p : Policy) :
    (s.withPolicy p).IsTidy := by
  intro d hd
  obtain ⟨e, he, rfl⟩ := List.mem_map.1 hd
  exact ⟨rfl, (hs e he).2.withPolicy p⟩

theorem IsTidy.sorted {s : LinearSystem} (hs : s.IsTidy) : s.sorted.IsTidy := by
  intro d hd
  exact hs d ((sortBy_perm _ s.equations).mem_iff.1 hd)

/-- The second system has the policy of the first and comes from it by steps. -/
structure Evolves (s r : LinearSystem) : Prop where
  policy : r.policy = s.policy
  steps : RowSteps s.equations r.equations

namespace Evolves

variable {s t r : LinearSystem}

theorem refl (s : LinearSystem) : s.Evolves s := ⟨rfl, .refl⟩

theorem trans (h : s.Evolves t) (k : t.Evolves r) : s.Evolves r :=
  ⟨k.policy.trans h.policy, h.steps.trans k.steps⟩

theorem isTidy (h : s.Evolves r) (hs : s.IsTidy) : r.IsTidy := by
  rw [IsTidy, h.policy]
  exact h.steps.areTidy hs

theorem satisfied_iff (h : s.Evolves r) (hs : s.IsTidy) (v : Valuation) :
    r.Satisfied v ↔ s.Satisfied v := h.steps.areSatisfied_iff hs v

theorem unknowns (h : s.Evolves r) : r.unknowns = s.unknowns := by
  apply r.isAscending_unknowns.ext s.isAscending_unknowns
  intro n
  rw [mem_unknowns, mem_unknowns, h.steps.exists_mem_unknowns_iff]

theorem reachable {allowed : Policy → Prop} (h : s.Evolves r)
    (hs : allowed s.policy ∧ ∀ e ∈ s.equations, e.Reachable allowed) :
    allowed r.policy ∧ ∀ e ∈ r.equations, e.Reachable allowed :=
  ⟨h.policy ▸ hs.1, h.steps.reachable hs.2⟩

end Evolves

theorem evolves_of_substitute {s r : LinearSystem} {v : Verdict}
    (h : s.substitute.result = .ok (r, v)) :
    s.Evolves r ∧ (v = .contradiction → Clash r.equations) := by
  obtain ⟨⟨rows, w⟩, hr, h⟩ := Logged.bind_result_eq_ok.1 h
  cases h
  have hp := passes_substitutionRound hr
  exact ⟨⟨rfl, hp.steps⟩, hp.clash⟩

theorem evolves_of_reduce {s r : LinearSystem} {step : Option Reduction}
    (h : s.reduce.result = .ok (r, step)) : s.Evolves r := by
  obtain ⟨⟨rows, st⟩, hr, h⟩ := Logged.bind_result_eq_ok.1 h
  cases h
  exact ⟨rfl, (steps_reduce hr).1⟩

theorem eliminate_result (s : LinearSystem) (passes : ℕ) :
    (s.eliminate passes).result = (ExactLinear.eliminate passes s.equations).result.map
      fun r => ({ s with equations := r.1 }, r.2) := by
  rw [eliminate, Logged.bind_result]
  cases (ExactLinear.eliminate passes s.equations).result <;> rfl

theorem evolves_of_eliminate {s r : LinearSystem} {passes : ℕ} {ending : Ending}
    (h : (s.eliminate passes).result = .ok (r, ending)) :
    s.Evolves r ∧ (ending = .contradiction → Clash r.equations) ∧
      (ending = .finished → Settled r.equations ∧ Unpaired r.equations) := by
  obtain ⟨⟨rows, e⟩, hr, h⟩ := Logged.bind_result_eq_ok.1 h
  cases h
  obtain ⟨hsteps, hend⟩ := steps_eliminate hr
  exact ⟨⟨rfl, hsteps⟩, hend⟩

theorem Reachable.isTidy {allowed : Policy → Prop} {s : LinearSystem} (h : s.Reachable allowed) :
    s.IsTidy := by
  induction h with
  | empty => intro e he; cases he
  | push _ he ih => exact ih.push he.isTidy
  | withPolicy _ _ ih => exact ih.withPolicy _
  | sorted _ ih => exact ih.sorted
  | substitute _ h ih => exact (evolves_of_substitute h).1.isTidy ih
  | reduce _ h ih => exact (evolves_of_reduce h).isTidy ih
  | eliminate _ h ih => exact (evolves_of_eliminate h).1.isTidy ih

/-- The rows of a system can be reached as equations by themselves: a step changes a row as the
operations on an equation do. -/
theorem Reachable.of_mem {allowed : Policy → Prop} {s : LinearSystem} (hs : s.Reachable allowed)
    (hd : allowed .descending) : allowed s.policy ∧ ∀ e ∈ s.equations, e.Reachable allowed := by
  induction hs with
  | empty => exact ⟨hd, by simp⟩
  | push _ he ih =>
    refine ⟨ih.1, fun d hd => ?_⟩
    rcases List.mem_append.1 hd with hd | hd
    · exact ih.2 d hd
    · rw [List.mem_singleton.1 hd]
      exact .withPolicy ih.1 he
  | withPolicy hp _ ih =>
    refine ⟨hp, fun d hd => ?_⟩
    obtain ⟨e, he, rfl⟩ := List.mem_map.1 hd
    exact .withPolicy hp (ih.2 e he)
  | sorted _ ih => exact ⟨ih.1, fun d hd => ih.2 d ((sortBy_perm _ _).mem_iff.1 hd)⟩
  | substitute _ h ih => exact (evolves_of_substitute h).1.reachable ih
  | reduce _ h ih => exact (evolves_of_reduce h).reachable ih
  | eliminate _ h ih => exact (evolves_of_eliminate h).1.reachable ih

theorem eliminate_of_solve {s r : LinearSystem} {passes : ℕ} {o : Option Outcome}
    (h : (s.solve passes).result = .ok (r, o)) :
    ∃ ending, (s.eliminate passes).result = .ok (r, ending) := by
  obtain ⟨⟨after, ending⟩, he, h⟩ := Logged.bind_result_eq_ok.1 h
  have hafter : r = after := by
    cases ending with
    | unfinished => cases h; rfl
    | contradiction => cases h; rfl
    | finished =>
      obtain ⟨o', _, h⟩ := Logged.bind_result_eq_ok.1 h
      cases h
      rfl
  exact ⟨ending, hafter ▸ he⟩

/-- A run of operations, in any order, ends in this system. -/
def LeadsTo (s t : LinearSystem) : Prop := ∃ ops, (s.run ops).result = .ok t

theorem exists_of_fst {β : Type} {x : Logged (LinearSystem × β)} {r : LinearSystem}
    (h : (x >>= fun a => pure a.1).result = .ok r) : ∃ b, x.result = .ok (r, b) := by
  obtain ⟨⟨_, b⟩, hx, h⟩ := Logged.bind_result_eq_ok.1 h
  cases h
  exact ⟨b, hx⟩

theorem evolves_of_perform {s r : LinearSystem} {op : Operation}
    (h : (s.perform op).result = .ok r) : s.Evolves r := by
  cases op with
  | reduce =>
    obtain ⟨_, hr⟩ := exists_of_fst h
    exact evolves_of_reduce hr
  | substitute =>
    obtain ⟨_, hr⟩ := exists_of_fst h
    exact (evolves_of_substitute hr).1
  | eliminate passes =>
    obtain ⟨_, hr⟩ := exists_of_fst h
    exact (evolves_of_eliminate hr).1
  | solve passes =>
    obtain ⟨_, hr⟩ := exists_of_fst h
    obtain ⟨_, he⟩ := eliminate_of_solve hr
    exact (evolves_of_eliminate he).1

theorem evolves_of_run {s r : LinearSystem} {ops : List Operation}
    (h : (s.run ops).result = .ok r) : s.Evolves r := by
  induction ops generalizing s with
  | nil =>
    cases h
    exact .refl _
  | cons op ops ih =>
    obtain ⟨mid, hmid, h⟩ := Logged.bind_result_eq_ok.1 h
    exact (evolves_of_perform hmid).trans (ih h)

theorem LeadsTo.evolves {s t : LinearSystem} (h : s.LeadsTo t) : s.Evolves t := by
  obtain ⟨ops, h⟩ := h
  exact evolves_of_run h

end ExactLinear.LinearSystem
