import Mathlib
import ExactLinear.CommandLine.Report
import ExactLinear.Proofs.Elimination.Evaluation
import ExactLinear.Proofs.Outcome.Answers

/-! # Outcomes and solution sets

The solutions of a system assign rational numbers to its unknowns. The outcome under a built-in
policy says how many there are: none, one, or infinitely many, which the free variables parametrize.
-/

namespace ExactLinear

namespace LinearSystem

/-- A rational number for every unknown. -/
abbrev Assignment (s : LinearSystem) := {n : Name // n ∈ s.unknowns} → ℚ

def valuation (s : LinearSystem) (f : s.Assignment) : Valuation := fun n =>
  if h : n ∈ s.unknowns then f ⟨n, h⟩ else 0

/-- The assignments that satisfy every equation. -/
def solutions (s : LinearSystem) : Set s.Assignment := {f | s.Satisfied (s.valuation f)}

/-- Solving comes to an end, with this system and this outcome. -/
def Returns (s r : LinearSystem) (o : Outcome) : Prop :=
  ∃ passes, (s.solve passes).result = .ok (r, some o)

variable {s r : LinearSystem}

@[simp] theorem valuation_apply (f : s.Assignment) (u : {n : Name // n ∈ s.unknowns}) :
    s.valuation f u = f u := by
  simp [valuation, u.2]

theorem restrict_mem_solutions {v : Valuation} :
    (fun u => v u.1) ∈ s.solutions ↔ s.Satisfied v := by
  apply satisfied_congr
  intro n hn
  exact valuation_apply _ ⟨n, hn⟩

theorem mem_freeNames {ns : List Name} {a : Solution} {n : Name} :
    n ∈ CommandLine.freeNames ns a ↔ n ∈ ns ∧ a.IsFree n := by
  have hk := Bindings.contains_iff_mem_keys (b := a.known) (n := n)
  have he := Bindings.contains_iff_mem_keys (b := a.expressed) (n := n)
  simp only [CommandLine.freeNames, List.mem_filter, Solution.IsFree, ← hk, ← he]
  simp

theorem solutions_eq_empty (he : s.Evolves r) (hs : s.IsTidy) (h : Clash r.equations) :
    s.solutions = ∅ := by
  ext f
  simp [solutions, not_satisfied_of_clash he hs h]

theorem expressed_eq_nil {a : Solution} (h : a.Describes r.equations)
    (hu : ∀ row ∈ r.equations, ¬row.IsUnsolved) : a.expressed.entries = [] := by
  have hnone (n : Name) : n ∉ a.expressed.keys := by
    intro hn
    obtain ⟨ts, hts⟩ := Bindings.mem_keys.1 hn
    obtain ⟨row, hr, he⟩ := (h.expressed n ts).1 hts
    exact hu row hr he.isUnsolved
  exact List.map_eq_nil_iff.1 (List.eq_nil_iff_forall_not_mem.2 hnone)

section

variable {a : Solution} (he : s.Evolves r) (hs : s.IsTidy) (h : a.Describes r.equations)

include he hs h

theorem mem_solutions_iff_holds (f : s.Assignment) : f ∈ s.solutions ↔ a.Holds (s.valuation f) :=
  satisfied_iff_holds he hs h _

theorem satisfied_iff_known (hu : ∀ row ∈ r.equations, ¬row.IsUnsolved) (v : Valuation) :
    s.Satisfied v ↔ ∀ n x, a.known.get? n = some x → v n = x.value := by
  rw [satisfied_iff_holds he hs h]
  refine ⟨fun hv => hv.known, fun hv => ⟨hv, fun n ts hts => ?_⟩⟩
  rw [Bindings.get?, expressed_eq_nil h hu] at hts
  cases hts

theorem mem_solutions_iff_known (hu : ∀ row ∈ r.equations, ¬row.IsUnsolved)
    (hk : a.known.keys = s.unknowns) (f : s.Assignment) :
    f ∈ s.solutions ↔ ∀ u, (a.known.get? u.1).map Fraction.value = some (f u) := by
  have hmem (n : Name) : n ∈ s.unknowns ↔ ∃ x, a.known.get? n = some x := by
    rw [← hk, Bindings.mem_keys]
  refine (satisfied_iff_known he hs h hu _).trans ?_
  constructor
  · intro hv u
    obtain ⟨x, hx⟩ := (hmem u.1).1 u.2
    rw [hx, ← valuation_apply f u, hv u.1 x hx]
    rfl
  · intro hv n x hx
    have hn := (hmem n).2 ⟨x, hx⟩
    have hf := hv ⟨n, hn⟩
    rw [hx] at hf
    rw [valuation_apply f ⟨n, hn⟩]
    exact (Option.some.inj hf).symm

theorem existsUnique_solution (hu : ∀ row ∈ r.equations, ¬row.IsUnsolved)
    (hk : a.known.keys = s.unknowns) : ∃! f, f ∈ s.solutions := by
  have hmem (u : {n : Name // n ∈ s.unknowns}) : ∃ x, a.known.get? u.1 = some x := by
    rw [← Bindings.mem_keys, hk]
    exact u.2
  choose x hx using hmem
  have hiff := mem_solutions_iff_known he hs h hu hk
  refine ⟨fun u => (x u).value, (hiff _).2 fun u => by rw [hx u]; rfl, fun g hg => ?_⟩
  funext u
  have hgu := (hiff g).1 hg u
  rw [hx u] at hgu
  exact (Option.some.inj hgu).symm

section

variable {rank : Name → ℕ} (ht : a.IsTriangular s.unknowns rank)

include ht

/-- Triangular tables extend every choice of the free variables to one solution. -/
theorem existsUnique_extension_of_isTriangular (free : Valuation) :
    ∃! f : s.Assignment, f ∈ s.solutions ∧ ∀ u, a.IsFree u.1 → f u = free u.1 := by
  obtain ⟨v, hv, hfree⟩ := ht.exists_holds free
  have hsol : (fun u => v u.1) ∈ s.solutions :=
    restrict_mem_solutions.2 ((satisfied_iff_holds he hs h v).2 hv)
  refine ⟨fun u => v u.1, ⟨hsol, fun u hu => hfree u.1 hu⟩, fun g hg => ?_⟩
  obtain ⟨hgsol, hgfree⟩ := hg
  rw [mem_solutions_iff_holds he hs h] at hgsol
  funext u
  rw [← valuation_apply g u]
  refine ht.eq_of_holds hgsol hv (fun n hn hf => ?_) u.1 u.2
  rw [valuation_apply g ⟨n, hn⟩, hgfree ⟨n, hn⟩ hf, hfree n hf]

omit he hs in
theorem exists_isFree_of_isTriangular (hu : ∃ row ∈ r.equations, row.IsUnsolved) :
    ∃ n ∈ s.unknowns, a.IsFree n := by
  obtain ⟨row, hr, hun⟩ := hu
  rcases h.shown row hr with htriv | ⟨n, x, ha⟩ | ⟨n, ts, hex⟩
  · cases htriv.symm.trans hun
  · cases ha.symm.trans hun
  · exact ht.exists_isFree (Bindings.mem_keys.2 ⟨ts, (h.expressed n ts).2 ⟨row, hr, hex⟩⟩)

theorem infinite_solutions_of_isTriangular (hu : ∃ row ∈ r.equations, row.IsUnsolved) :
    s.solutions.Infinite := by
  obtain ⟨n, hn, hfree⟩ := exists_isFree_of_isTriangular h ht hu
  -- one free variable takes every rational number as its value
  choose f hf _ using fun q : ℚ => existsUnique_extension_of_isTriangular he hs h ht fun _ => q
  apply Set.infinite_of_injective_forall_mem (f := f)
  · intro p q hpq
    rw [← (hf p).2 ⟨n, hn⟩ hfree, hpq]
    exact (hf q).2 ⟨n, hn⟩ hfree
  · intro q
    exact (hf q).1

end

theorem isTriangular_of_ordersNames (hp : s.policy.OrdersNames) (hset : Settled r.equations) :
    a.IsTriangular s.unknowns (s.policy.rank s.unknowns) := by
  have ht := he.isTidy hs
  rw [IsTidy, he.policy] at ht
  refine h.isTriangular hp ht hset fun row hr n hn => ?_
  rw [← he.unknowns]
  exact mem_unknowns.2 ⟨row, hr, hn⟩

variable (hp : s.policy.isBuiltIn) (hset : Settled r.equations)

include hp hset

theorem isTriangular_of_describes :
    a.IsTriangular s.unknowns (s.policy.rank s.unknowns) :=
  isTriangular_of_ordersNames he hs h (Policy.ordersNames_of_isBuiltIn hp) hset

theorem existsUnique_extension (free : Valuation) :
    ∃! f : s.Assignment, f ∈ s.solutions ∧ ∀ u, a.IsFree u.1 → f u = free u.1 :=
  existsUnique_extension_of_isTriangular he hs h (isTriangular_of_describes he hs h hp hset) free

theorem exists_isFree (hu : ∃ row ∈ r.equations, row.IsUnsolved) :
    ∃ n ∈ s.unknowns, a.IsFree n :=
  exists_isFree_of_isTriangular h (isTriangular_of_describes he hs h hp hset) hu

theorem infinite_solutions (hu : ∃ row ∈ r.equations, row.IsUnsolved) : s.solutions.Infinite :=
  infinite_solutions_of_isTriangular he hs h (isTriangular_of_describes he hs h hp hset) hu

end

theorem solutions_eq_singleton (h : ∃! f, f ∈ s.solutions) : ∃ f, s.solutions = {f} := by
  obtain ⟨f, hf, hu⟩ := h
  exact ⟨f, Set.eq_singleton_iff_unique_mem.2 ⟨hf, hu⟩⟩

def sumRow : Equation :=
  ⟨.descending, [⟨.one, .ofText "y"⟩, ⟨.one, .ofText "x"⟩, .constant ⟨-3, 1, .inr (by decide)⟩]⟩

def firstRow : Equation :=
  ⟨.descending, [⟨⟨-1, 1, .inr (by decide)⟩, .ofText "x"⟩, .constant .one]⟩

def differenceRow : Equation :=
  ⟨.descending, [⟨.one, .ofText "y"⟩, ⟨⟨-1, 1, .inr (by decide)⟩, .ofText "x"⟩,
    .constant ⟨-1, 1, .inr (by decide)⟩]⟩

def sumDifference : LinearSystem := .ofEquations [sumRow, differenceRow]

def sumDifferenceValues : Solution where
  known := ⟨[(.ofText "x", .one), (.ofText "y", ⟨2, 1, .inr (by decide)⟩)]⟩

theorem reachable_sumDifference (allowed : Policy → Prop) : sumDifference.Reachable allowed :=
  .push (.push .empty (.of_terms (by cbv))) (.of_terms (by cbv))

theorem returns_sumDifference : sumDifference.Returns ⟨.descending,
    [⟨.descending, [⟨.one, .ofText "y"⟩, .constant ⟨-2, 1, .inr (by decide)⟩]⟩, firstRow]⟩
    (.solved sumDifferenceValues) :=
  ⟨3, solve_of_eliminateWithin (show eliminateWithin 3 3 sumDifference.equations =
    some (_, .finished) by cbv) (by cbv)⟩

/-- Under a built-in policy the outcome tells apart none, one and infinitely many solutions, and
the one solution is the table of the known values. -/
theorem outcome_iff_solutions {allowed : Policy → Prop} {o : Outcome} (hs : s.Reachable allowed)
    (hp : s.policy.isBuiltIn) (h : s.Returns r o) :
    (o = .inconsistent ↔ s.solutions = ∅) ∧
      ((∃ a, o = .solved a) ↔ ∃! f, f ∈ s.solutions) ∧
      (∀ a, o = .solved a → a.expressed.entries = [] ∧ a.known.keys = s.unknowns ∧
        ∀ f, f ∈ s.solutions ↔ ∀ u, (a.known.get? u.1).map Fraction.value = some (f u)) ∧
      ((∃ a, o = .underdetermined a) ↔ s.solutions.Infinite) := by
  have ht := hs.isTidy
  obtain ⟨passes, h⟩ := h
  obtain ⟨he, hans⟩ := answers_of_solve ht h
  cases hans with
  | inconsistent hc =>
    have hempty := solutions_eq_empty he ht hc
    simp [hempty]
  | @solved a hd hu hk =>
    obtain ⟨f, hf⟩ := solutions_eq_singleton (existsUnique_solution he ht hd hu hk)
    refine ⟨by simp [hf], by simp [hf], fun b hb => ?_, by simp [hf]⟩
    cases hb
    exact ⟨expressed_eq_nil hd hu, hk, mem_solutions_iff_known he ht hd hu hk⟩
  | @underdetermined a hd hset hu =>
    have hinf := infinite_solutions he ht hd hp hset hu
    have hone : ¬∃! f, f ∈ s.solutions := by
      intro hone
      obtain ⟨f, hf⟩ := solutions_eq_singleton hone
      rw [hf] at hinf
      exact hinf (Set.finite_singleton f)
    have hempty : s.solutions ≠ ∅ := hinf.nonempty.ne_empty
    exact ⟨by simp [hempty], by simp [hone], by simp, by simp [hinf]⟩

/-- The sum and the difference have one solution, and it is the one that is found. -/
theorem outcome_iff_solutions_sumDifference :
    sumDifference.Reachable (fun p => p.isBuiltIn) ∧ sumDifference.policy.isBuiltIn ∧
      (∃ r, sumDifference.Returns r (.solved sumDifferenceValues)) ∧
        (∃! f, f ∈ sumDifference.solutions) ∧ ∀ f, f ∈ sumDifference.solutions ↔
          ∀ u, (sumDifferenceValues.known.get? u.1).map Fraction.value = some (f u) := by
  have hs := reachable_sumDifference fun p => p.isBuiltIn
  have h := outcome_iff_solutions hs rfl returns_sumDifference
  exact ⟨hs, rfl, ⟨_, returns_sumDifference⟩, h.2.1.1 ⟨_, rfl⟩, (h.2.2.1 _ rfl).2.2⟩

/-- Under a built-in policy the tables of an underdetermined system parametrize its solutions by the
free variables, of which there is one at least. -/
theorem existsUnique_solution_of_free {allowed : Policy → Prop} {a : Solution}
    (hs : s.Reachable allowed) (hp : s.policy.isBuiltIn) (h : s.Returns r (.underdetermined a)) :
    (∀ n ∈ a.known.keys, n ∉ a.expressed.keys) ∧
      (∀ n ts, a.expressed.get? n = some ts → ∀ t ∈ ts, t.name ∉ a.known.keys) ∧
      CommandLine.freeNames s.unknowns a ≠ [] ∧
      (∀ g : {n // n ∈ CommandLine.freeNames s.unknowns a} → ℚ, ∃! f : s.Assignment,
        f ∈ s.solutions ∧ ∀ u (hu : u.1 ∈ CommandLine.freeNames s.unknowns a), f u = g ⟨u.1, hu⟩) ∧
      ∀ f, f ∈ s.solutions ↔ a.Holds (s.valuation f) := by
  have ht := hs.isTidy
  obtain ⟨passes, h⟩ := h
  obtain ⟨he, hans⟩ := answers_of_solve ht h
  cases hans with
  | underdetermined hd hset hu =>
    have htri := isTriangular_of_describes he ht hd hp hset
    refine ⟨htri.disjoint, fun n ts hts t htm hk => ?_, ?_, fun g => ?_,
      mem_solutions_iff_holds he ht hd⟩
    · cases hv : t.name.isBlank with
      | false => exact (htri.later n ts hts t.name (List.mem_map_of_mem htm) hv).2.1 hk
      | true =>
        obtain ⟨row, _, hn⟩ := hd.exists_of_mem_known hk
        rw [Equation.isBlank_of_mem_unknowns hn] at hv
        cases hv
    · obtain ⟨n, hn, hf⟩ := exists_isFree he ht hd hp hset hu
      exact List.ne_nil_of_mem (mem_freeNames.2 ⟨hn, hf⟩)
    · -- the values of the free variables, with zero for all other names
      let free : Valuation := fun n =>
        if h : n ∈ CommandLine.freeNames s.unknowns a then g ⟨n, h⟩ else 0
      have hfree (f : s.Assignment) : (∀ u, a.IsFree u.1 → f u = free u.1) ↔
          ∀ u (hu : u.1 ∈ CommandLine.freeNames s.unknowns a), f u = g ⟨u.1, hu⟩ := by
        apply forall_congr'
        intro u
        have hm : u.1 ∈ CommandLine.freeNames s.unknowns a ↔ a.IsFree u.1 := by
          simp [mem_freeNames, u.2]
        constructor
        · intro hf hu
          rw [hf (hm.1 hu)]
          simp [free, hu]
        · intro hf hu
          rw [hf (hm.2 hu)]
          simp [free, hm.2 hu]
      have hex := existsUnique_extension he ht hd hp hset free
      simpa only [hfree] using hex

def sumAndValue : LinearSystem := .ofEquations [sumRow,
  ⟨.descending, [⟨.one, .ofText "z"⟩, .constant ⟨-2, 1, .inr (by decide)⟩]⟩]

def sumAndValueTables : Solution where
  known := ⟨[(.ofText "z", ⟨2, 1, .inr (by decide)⟩)]⟩
  expressed := ⟨[(.ofText "y", [⟨⟨-1, 1, .inr (by decide)⟩, .ofText "x"⟩,
    .constant ⟨3, 1, .inr (by decide)⟩])]⟩

/-- The tables of the sum and the value leave `x` free, and nothing else. -/
theorem existsUnique_solution_of_free_sumAndValue :
    sumAndValue.Reachable (fun p => p.isBuiltIn) ∧ sumAndValue.policy.isBuiltIn ∧
      sumAndValue.Returns sumAndValue (.underdetermined sumAndValueTables) ∧
        CommandLine.freeNames sumAndValue.unknowns sumAndValueTables = [.ofText "x"] ∧
          ∀ f, f ∈ sumAndValue.solutions ↔ sumAndValueTables.Holds (sumAndValue.valuation f) := by
  have hs : sumAndValue.Reachable fun p => p.isBuiltIn :=
    .push (.push .empty (.of_terms (by cbv))) (.of_terms (by cbv))
  have hr : sumAndValue.Returns sumAndValue (.underdetermined sumAndValueTables) := ⟨3, by cbv⟩
  have h := existsUnique_solution_of_free hs rfl hr
  exact ⟨hs, rfl, hr, by cbv, h.2.2.2.2⟩

end LinearSystem
end ExactLinear
