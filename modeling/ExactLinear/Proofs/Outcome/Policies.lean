import ExactLinear.Proofs.Elimination.Evaluation
import ExactLinear.Proofs.Elimination.Termination
import ExactLinear.Proofs.Outcome.Solutions

/-! # Outcomes under two policies

A policy arranges the terms of a system and leaves its solutions as they are. Two policies that
order the names therefore come to the same kind of outcome and to the same values. A policy with
ties can leave a system underdetermined that is not, and never the other way round.
-/

namespace ExactLinear

namespace Equation

theorem satisfied_withPolicy (e : Equation) (p : Policy) (v : Valuation) :
    (e.withPolicy p).Satisfied v ↔ e.Satisfied v := by
  rw [Satisfied, Satisfied, withPolicy, Term.evalSum_perm v (p.sort_perm e.terms)]

theorem mem_unknowns_withPolicy (e : Equation) (p : Policy) {n : Name} :
    n ∈ (e.withPolicy p).unknowns ↔ n ∈ e.unknowns := by
  simp only [mem_unknowns, withPolicy, (p.sort_perm e.terms).mem_iff]

end Equation

namespace LinearSystem

theorem satisfied_withPolicy (s : LinearSystem) (p : Policy) (v : Valuation) :
    (s.withPolicy p).Satisfied v ↔ s.Satisfied v := by
  simp [Satisfied, AreSatisfied, withPolicy, Equation.satisfied_withPolicy]

theorem unknowns_withPolicy (s : LinearSystem) (p : Policy) :
    (s.withPolicy p).unknowns = s.unknowns := by
  apply (s.withPolicy p).isAscending_unknowns.ext s.isAscending_unknowns
  intro n
  simp [mem_unknowns, withPolicy, Equation.mem_unknowns_withPolicy]

end LinearSystem

namespace Outcome

/-- The outcome leaves nothing open. -/
def IsDetermined (o : Outcome) : Prop := ∀ a, o ≠ .underdetermined a

/-- Outcomes of one kind, and with the same values if they are solved. -/
inductive Agrees : Outcome → Outcome → Prop
  | inconsistent : Agrees .inconsistent .inconsistent
  | solved {a b : Solution} (h : a.known = b.known) : Agrees (.solved a) (.solved b)
  | underdetermined (a b : Solution) : Agrees (.underdetermined a) (.underdetermined b)

theorem not_isDetermined {o : Outcome} : ¬o.IsDetermined ↔ ∃ a, o = .underdetermined a := by
  simp [IsDetermined]

theorem Agrees.isDetermined_iff {o o' : Outcome} (h : o.Agrees o') :
    o.IsDetermined ↔ o'.IsDetermined := by
  cases h <;> simp [IsDetermined]

/-- What the outcome says about the solutions of the system holds. -/
def IsTrueOf (s : LinearSystem) : Outcome → Prop
  | inconsistent => ∀ v, ¬s.Satisfied v
  | solved a => a.known.keys = s.unknowns ∧
      ∀ v, s.Satisfied v ↔ ∀ n x, a.known.get? n = some x → v n = x.value
  | underdetermined _ => ∃ v w, s.Satisfied v ∧ s.Satisfied w ∧ ∃ n ∈ s.unknowns, v n ≠ w n

variable {s r : LinearSystem} {o o' : Outcome}

theorem isTrueOf_withPolicy (p : Policy) : o.IsTrueOf (s.withPolicy p) ↔ o.IsTrueOf s := by
  cases o <;> simp only [IsTrueOf, LinearSystem.satisfied_withPolicy,
    LinearSystem.unknowns_withPolicy]

theorem IsTrueOf.exists_satisfied {a : Solution} (h : (solved a).IsTrueOf s) :
    ∃ v, s.Satisfied v := by
  refine ⟨fun n => ((a.known.get? n).map Fraction.value).getD 0, (h.2 _).2 fun n x hx => ?_⟩
  rw [hx]
  rfl

theorem IsTrueOf.eq_of_satisfied {a : Solution} (h : (solved a).IsTrueOf s) {v w : Valuation}
    (hv : s.Satisfied v) (hw : s.Satisfied w) {n : Name} (hn : n ∈ s.unknowns) : v n = w n := by
  rw [← h.1, Bindings.mem_keys] at hn
  obtain ⟨x, hx⟩ := hn
  rw [(h.2 v).1 hv n x hx, (h.2 w).1 hw n x hx]

theorem IsTrueOf.get?_eq_some {a b : Solution} (ha : (solved a).IsTrueOf s)
    (hb : (solved b).IsTrueOf s) {n : Name} {x : Fraction} (hx : a.known.get? n = some x) :
    b.known.get? n = some x := by
  have hn : n ∈ b.known.keys := by
    rw [hb.1, ← ha.1]
    exact Bindings.mem_keys.2 ⟨x, hx⟩
  obtain ⟨y, hy⟩ := Bindings.mem_keys.1 hn
  obtain ⟨v, hv⟩ := ha.exists_satisfied
  have hxy : x.value = y.value := ((ha.2 v).1 hv n x hx).symm.trans ((hb.2 v).1 hv n y hy)
  rw [hy, Fraction.value_injective hxy]

theorem IsTrueOf.known_eq {a b : Solution} (ha : (solved a).IsTrueOf s)
    (hb : (solved b).IsTrueOf s) : a.known = b.known := by
  apply Bindings.ext_of_get?
  · rw [ha.1]
    exact s.isAscending_unknowns
  · rw [hb.1]
    exact s.isAscending_unknowns
  · intro n
    apply Option.ext
    intro x
    exact ⟨ha.get?_eq_some hb, hb.get?_eq_some ha⟩

theorem IsTrueOf.agrees (h : o.IsTrueOf s) (h' : o'.IsTrueOf s) : o.Agrees o' := by
  cases o with
  | inconsistent =>
    cases o' with
    | inconsistent => exact .inconsistent
    | solved b =>
      obtain ⟨v, hv⟩ := h'.exists_satisfied
      exact absurd hv (h v)
    | underdetermined b =>
      obtain ⟨v, _, hv, _⟩ := h'
      exact absurd hv (h v)
  | solved a =>
    cases o' with
    | inconsistent =>
      obtain ⟨v, hv⟩ := h.exists_satisfied
      exact absurd hv (h' v)
    | solved b => exact .solved (h.known_eq h')
    | underdetermined b =>
      obtain ⟨v, w, hv, hw, n, hn, hne⟩ := h'
      exact absurd (h.eq_of_satisfied hv hw hn) hne
  | underdetermined a =>
    obtain ⟨v, w, hv, hw, n, hn, hne⟩ := h
    cases o' with
    | inconsistent => exact absurd hv (h' v)
    | solved b => exact absurd (h'.eq_of_satisfied hv hw hn) hne
    | underdetermined b => exact .underdetermined a b

end Outcome

namespace LinearSystem

variable {s r : LinearSystem} {o : Outcome}

/-- An outcome is true, but for an underdetermined one that a policy with ties comes to. -/
theorem isTrueOf_of_returns (hs : s.IsTidy) (h : s.Returns r o)
    (ho : s.policy.OrdersNames ∨ o.IsDetermined) : o.IsTrueOf s := by
  obtain ⟨passes, h⟩ := h
  obtain ⟨he, hans⟩ := answers_of_solve hs h
  cases hans with
  | inconsistent hc => exact not_satisfied_of_clash he hs hc
  | @solved a hd hu hk => exact ⟨hk, satisfied_iff_known he hs hd hu⟩
  | @underdetermined a hd hset hu =>
    have hp := ho.resolve_right fun hdet => hdet a rfl
    have ht := isTriangular_of_ordersNames he hs hd hp hset
    obtain ⟨n, hn, hfree⟩ := exists_isFree_of_isTriangular hd ht hu
    -- the free variable takes the values zero and one
    obtain ⟨v, hv, hv0⟩ := ht.exists_holds 0
    obtain ⟨w, hw, hw1⟩ := ht.exists_holds 1
    refine ⟨v, w, (satisfied_iff_holds he hs hd v).2 hv, (satisfied_iff_holds he hs hd w).2 hw,
      n, hn, ?_⟩
    rw [hv0 n hfree, hw1 n hfree]
    exact zero_ne_one

/-- Two policies come to outcomes that agree, if each of them orders the names or leaves nothing
open. They disagree only where one of them leaves something open that the other determines. -/
theorem agrees_iff_of_returns {allowed : Policy → Prop} {p q : Policy} {r' : LinearSystem}
    {o' : Outcome} (hs : s.Reachable allowed) (h : (s.withPolicy p).Returns r o)
    (h' : (s.withPolicy q).Returns r' o') :
    (o.Agrees o' ↔ (o.IsDetermined ↔ o'.IsDetermined)) ∧
      (p.OrdersNames ∨ o.IsDetermined → q.OrdersNames ∨ o'.IsDetermined → o.Agrees o') := by
  have ht := hs.isTidy
  have key (hp : p.OrdersNames ∨ o.IsDetermined) (hq : q.OrdersNames ∨ o'.IsDetermined) :
      o.Agrees o' := by
    have ho := isTrueOf_of_returns (ht.withPolicy p) h hp
    have ho' := isTrueOf_of_returns (ht.withPolicy q) h' hq
    rw [Outcome.isTrueOf_withPolicy] at ho ho'
    exact ho.agrees ho'
  refine ⟨⟨Outcome.Agrees.isDetermined_iff, fun hiff => ?_⟩, key⟩
  by_cases hd : o.IsDetermined
  · exact key (.inr hd) (.inr (hiff.1 hd))
  · obtain ⟨a, rfl⟩ := Outcome.not_isDetermined.1 hd
    obtain ⟨b, rfl⟩ := Outcome.not_isDetermined.1 (mt hiff.2 hd)
    exact .underdetermined a b

theorem exists_returns {bound passes : ℕ} (h : s.solveWithin bound passes = some o) :
    ∃ r, s.Returns r o := by
  obtain ⟨r, hr⟩ := exists_solve_of_solveWithin h
  exact ⟨r, passes, hr⟩

def threeVariables : LinearSystem :=
  let row := Equation.ofPairs .descending
  .ofEquations [row [(1, "z"), (1, "y"), (-5, "")], row [(1, "y"), (-1, "x"), (-1, "")],
    row [(1, "z"), (-1, "x"), (-2, "")]]

def threeValues : Solution where
  known := ⟨[(.ofText "x", .whole 1), (.ofText "y", .whole 2), (.ofText "z", .whole 3)]⟩

theorem reachable_threeVariables (allowed : Policy → Prop) : threeVariables.Reachable allowed :=
  .push (.push (.push .empty (.of_terms (by cbv))) (.of_terms (by cbv))) (.of_terms (by cbv))

theorem returns_threeVariables :
    ∃ r, (threeVariables.withPolicy .descending).Returns r (.solved threeValues) :=
  exists_returns (show (threeVariables.withPolicy .descending).solveWithin 4 4 =
    some (.solved threeValues) by cbv)

/-- Whatever order of the names leads to an outcome, it leads to these three values. -/
theorem agrees_iff_of_returns_threeVariables :
    threeVariables.Reachable (fun _ => True) ∧
      (∃ r, (threeVariables.withPolicy .descending).Returns r (.solved threeValues)) ∧
      byName.OrdersNames ∧
      (∃ r, (threeVariables.withPolicy byName).Returns r (.solved threeValues)) ∧
        ∀ p r o, p.OrdersNames → (threeVariables.withPolicy p).Returns r o →
          (Outcome.solved threeValues).Agrees o := by
  have hs := reachable_threeVariables fun _ => True
  have hname : ∃ r, (threeVariables.withPolicy byName).Returns r (.solved threeValues) :=
    exists_returns (show (threeVariables.withPolicy byName).solveWithin 4 4 =
      some (.solved threeValues) by cbv)
  refine ⟨hs, returns_threeVariables, Policy.ordersNames_custom _ _, hname, fun p r o hp hr => ?_⟩
  obtain ⟨r₀, h₀⟩ := returns_threeVariables
  exact (agrees_iff_of_returns hs h₀ hr).2 (.inr fun a => by simp) (.inl hp)

/-- The expressions `-y + 3`, `x + 1` and `-y + 5` of `x`, `y` and `z`, which go round in a
circle. -/
def circularTables : Solution where
  expressed :=
    ⟨[(.ofText "x", [⟨.whole (-1), .ofText "y"⟩, .constant (.whole 3)]),
      (.ofText "y", [⟨.whole 1, .ofText "x"⟩, .constant (.whole 1)]),
      (.ofText "z", [⟨.whole (-1), .ofText "y"⟩, .constant (.whole 5)])]⟩

theorem returns_circularTables :
    ∃ r, (threeVariables.withPolicy byInsertion).Returns r (.underdetermined circularTables) :=
  exists_returns (show (threeVariables.withPolicy byInsertion).solveWithin 4 4 =
    some (.underdetermined circularTables) by cbv)

/-- Where all variables tie the system with one solution is left without any value. -/
theorem not_agrees_threeVariables :
    threeVariables.Reachable Policy.IsLawful ∧ Policy.descending.IsLawful ∧
      byInsertion.IsLawful ∧
        (∃ r, (threeVariables.withPolicy .descending).Returns r (.solved threeValues)) ∧
          (∃ r, (threeVariables.withPolicy byInsertion).Returns r
            (.underdetermined circularTables)) ∧
              ¬(Outcome.solved threeValues).Agrees (.underdetermined circularTables) := by
  refine ⟨reachable_threeVariables _, Policy.isLawful_of_isBuiltIn rfl, isLawful_byInsertion,
    returns_threeVariables, returns_circularTables, fun h => ?_⟩
  cases h

end LinearSystem
end ExactLinear
