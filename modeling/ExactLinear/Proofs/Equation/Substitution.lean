import ExactLinear.Proofs.Elimination.Evaluation
import ExactLinear.Proofs.Failures.Arithmetic

/-! # Putting a value in the place of a variable

A substitution takes one variable out of a canonical equation and leaves the others, in their order
if the policy orders the names. It says the same as the equation did wherever the variable has the
value. Where the variable does not occur nothing is computed and nothing changes.
-/

namespace ExactLinear

theorem Name.eq_ofText_iff {n : Name} {s : String} : n = ofText s ↔ n.text = Text.trim s := by
  rcases n with ⟨text, _⟩
  rw [ofText, mk.injEq]

namespace Equation

variable {e r : Equation} {n : Name} {x : Fraction}

theorem nodup_unknowns (he : e.IsCanonical) : e.unknowns.Nodup := by
  rw [unknowns_eq]
  exact he.nodup.filter _

theorem pairwise_unknowns (he : e.IsTidy) (hp : e.policy.OrdersNames) :
    e.unknowns.Pairwise fun m n => e.policy.compareNames m n = .lt := by
  rw [unknowns_eq]
  have hs := (pairwise_compare_iff hp he.isCanonical.nodup).1 (he.isStrictlySorted hp)
  exact hs.filter _

theorem takeOut?_of_notMem {ts : List Term} (h : n ∉ ts.map Term.name) : takeOut? n ts = none := by
  cases ht : takeOut? n ts with
  | none => rfl
  | some p =>
    obtain ⟨t, us⟩ := p
    obtain ⟨l, r, rfl, _, hn⟩ := takeOut?_eq_some ht
    simp [← hn] at h

theorem substitute?_of_notMem (h : n ∉ e.terms.map Term.name) : e.substitute? n x = .ok none := by
  rw [substitute?, takeOut?_of_notMem h]
  rfl

variable (hn : n.isBlank = false)

include hn

theorem substitute?_of_notMem_unknowns (h : n ∉ e.unknowns) : e.substitute? n x = .ok none :=
  substitute?_of_notMem fun hm => h (mem_unknowns_iff_names.2 ⟨hm, hn⟩)

theorem isSome_substitute?_iff {r? : Option Equation} (h : e.substitute? n x = .ok r?) :
    r?.isSome ↔ n ∈ e.unknowns := by
  cases r? with
  | none =>
    have hm := substitute?_eq_none h
    simp [mem_unknowns_iff_names, hm]
  | some r =>
    have hp := unknowns_substitute? hn h
    simp [hp.mem_iff]

theorem perm_unknowns_substitute? (h : e.substitute? n x = .ok (some r)) :
    r.unknowns.Perm (e.unknowns.erase n) :=
  (List.cons_perm_iff_perm_erase.1 (unknowns_substitute? hn h).symm).2

theorem notMem_unknowns_substitute? (he : e.IsCanonical) (h : e.substitute? n x = .ok (some r)) :
    n ∉ r.unknowns :=
  (List.nodup_cons.1 ((unknowns_substitute? hn h).nodup_iff.1 (nodup_unknowns he))).1

theorem unknowns_substitute?_eq (he : e.IsTidy) (hp : e.policy.OrdersNames)
    (h : e.substitute? n x = .ok (some r)) : r.unknowns = e.unknowns.erase n := by
  have hr := he.substitute? h
  have hpol := policy_substitute? h
  have hsorted := pairwise_unknowns hr (hpol ▸ hp)
  rw [hpol] at hsorted
  have := hp.transCmp_compareNames
  exact eq_of_perm_of_pairwise (perm_unknowns_substitute? hn h) hsorted
    ((pairwise_unknowns he hp).sublist List.erase_sublist)

omit hn

/-- Only overflow stops a substitution. It changes a canonical equation if and only if the trimmed
text is a variable of it. Then exactly the other variables are left, in their order under a built-in
policy, and wherever the variable has the value the equation says the same. -/
theorem substitute?_ofText (he : e.IsCanonical) {s : String} (hs : Text.trim s ≠ "")
    (hn : n = Name.ofText s) (x : Fraction) :
    (∀ f, e.substitute? n x = .error f → f.IsOverflow) ∧
      (n ∉ e.unknowns → e.substitute? n x = .ok none) ∧
      ∀ r?, e.substitute? n x = .ok r? →
        (r?.isSome ↔ ∃ t ∈ e.terms, t.name.text = Text.trim s) ∧
        ∀ r, r? = some r → n ∉ r.unknowns ∧ r.unknowns.Perm (e.unknowns.erase n) ∧
          (e.policy.isBuiltIn → e.IsStrictlySorted → r.unknowns = e.unknowns.erase n) ∧
          r.policy = e.policy ∧
          ∀ v : Valuation, v n = x.value → (r.Satisfied v ↔ e.Satisfied v) := by
  have hb : n.isBlank = false := by
    rw [hn]
    exact decide_eq_false hs
  have hoccurs : n ∈ e.unknowns ↔ ∃ t ∈ e.terms, t.name.text = Text.trim s := by
    simp only [mem_unknowns_iff_names, hb, and_true, List.mem_map, ← Name.eq_ofText_iff, ← hn]
  refine ⟨overflows_substitute? he.nonzero n x, substitute?_of_notMem_unknowns hb, fun r? h =>
    ⟨(isSome_substitute?_iff hb h).trans hoccurs, ?_⟩⟩
  rintro r rfl
  refine ⟨notMem_unknowns_substitute? hb he h, perm_unknowns_substitute? hb h, fun hp hsorted => ?_,
    policy_substitute? h, fun v hv => ?_⟩
  · exact unknowns_substitute?_eq hb ⟨he, fun _ => hsorted⟩ (Policy.ordersNames_of_isBuiltIn hp) h
  · exact satisfied_substitute? h ((v.weight_of_isBlank_eq_false hb).trans hv)

/-- Three in the place of `y` in `4z + 2y + 6x - 6 = 0` cancels the constant, and `2z + 3x = 0` is
left. -/
theorem substitute?_ofText_threeTerms :
    let row := ofPairs .descending [(4, "z"), (2, "y"), (6, "x"), (-6, "")]
    let rest := ofPairs .descending [(2, "z"), (3, "x")]
    row.IsCanonical ∧ row.IsStrictlySorted ∧ Text.trim " y\t" ≠ "" ∧
      row.substitute? (.ofText " y\t") (.whole 3) = .ok (some rest) ∧
        rest.unknowns = row.unknowns.erase (.ofText "y") ∧
          (∀ v : Valuation, v (.ofText "y") = (Fraction.whole 3).value →
            (rest.Satisfied v ↔ row.Satisfied v)) ∧
          row.substitute? (.ofText "w") (.whole 3) = .ok none := by
  intro row rest
  have hrow : row.IsTidy := by
    have hterms : Equation.ofTerms row.terms = .ok row := by cbv
    exact (Reachable.of_terms hterms : row.Reachable fun _ => True).isTidy
  have hsorted : row.IsStrictlySorted :=
    hrow.isStrictlySorted (Policy.ordersNames_of_isBuiltIn rfl)
  have hy : Text.trim " y\t" ≠ "" := by decide
  have hw : Text.trim "w" ≠ "" := by decide
  have hname : .ofText "y" = Name.ofText " y\t" := by decide
  have hs : row.substitute? (.ofText " y\t") (.whole 3) = .ok (some rest) := by cbv
  rw [← hname] at hs ⊢
  obtain ⟨_, _, h⟩ := substitute?_ofText hrow.isCanonical hy hname (.whole 3)
  obtain ⟨hunknowns, _, hmeaning⟩ := ((h _ hs).2 _ rfl).2.2
  obtain ⟨_, hnone, _⟩ := substitute?_ofText hrow.isCanonical hw rfl (.whole 3)
  exact ⟨hrow.isCanonical, hsorted, hy, hs, hunknowns rfl hsorted, hmeaning, hnone (by decide)⟩

end Equation
end ExactLinear
