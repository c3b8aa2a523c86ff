import ExactLinear.Proofs.Elimination.Evaluation
import ExactLinear.Proofs.Failures.Arithmetic
import ExactLinear.Proofs.Reading.Sums

/-! # The canonical form

A tidy equation is the list of its coefficients other than zero, and a policy that orders the names
leaves one way to list them. So nothing of how an equation was brought about is left in its terms
but what the variables and the constant are multiplied with.
-/

namespace ExactLinear.Equation

variable {e f : Equation}

theorem mem_terms_iff (he : e.IsCanonical) {t : Term} :
    t ∈ e.terms ↔ t.coefficient ≠ .zero ∧ e.coefficientOf t.name = t.coefficient := by
  cases hu : e.terms.find? fun w => w.name = t.name with
  | none =>
    have hzero : e.coefficientOf t.name = .zero := by rw [coefficientOf, hu]; rfl
    constructor
    · intro ht
      simpa using List.find?_eq_none.1 hu t ht
    · rintro ⟨h0, ht⟩
      exact absurd (ht.symm.trans hzero) h0
  | some u =>
    have hmem : u ∈ e.terms := List.mem_of_find?_eq_some hu
    have hname : u.name = t.name := by simpa using List.find?_some hu
    have hcoeff : e.coefficientOf t.name = u.coefficient := by rw [coefficientOf, hu]; rfl
    constructor
    · intro ht
      obtain rfl : u = t := List.inj_on_of_nodup_map he.nodup hmem ht hname
      exact ⟨he.nonzero u hmem, hcoeff⟩
    · rintro ⟨_, ht⟩
      obtain rfl : u = t := by
        rcases u with ⟨x, m⟩
        rcases t with ⟨y, n⟩
        rw [Term.mk.injEq]
        exact ⟨hcoeff.symm.trans ht, hname⟩
      exact hmem

/-- The coefficients determine the terms up to their order. -/
theorem perm_of_coefficientOf (he : e.IsCanonical) (hf : f.IsCanonical)
    (h : ∀ n, e.coefficientOf n = f.coefficientOf n) : e.terms.Perm f.terms := by
  refine (List.perm_ext_iff_of_nodup he.nodup.of_map hf.nodup.of_map).2 fun t => ?_
  rw [mem_terms_iff he, mem_terms_iff hf, h]

theorem eq_of_coefficientOf (he : e.IsTidy) (hf : f.IsTidy) (hp : e.policy.OrdersNames)
    (hpol : f.policy = e.policy) (h : ∀ n, e.coefficientOf n = f.coefficientOf n) : e = f := by
  have hperm := perm_of_coefficientOf he.isCanonical hf.isCanonical h
  calc e = e.withPolicy f.policy := (hpol ▸ he.withPolicy_eq_of_perm hp (.refl _)).symm
    _ = f := hf.withPolicy_eq_of_perm (hpol ▸ hp) hperm

theorem forall_coefficientOf_iff : (∀ n, e.coefficientOf n = f.coefficientOf n) ↔
    (∀ n : Name, n.isBlank = false → e.coefficientOf n = f.coefficientOf n) ∧
      e.constant = f.constant := by
  rw [constant_eq_coefficientOf, constant_eq_coefficientOf]
  constructor
  · exact fun h => ⟨fun n _ => h n, h .blank⟩
  · rintro ⟨hv, hc⟩ n
    cases hn : n.isBlank with
    | true => rwa [Name.eq_blank_of_isBlank hn]
    | false => exact hv n hn

theorem beq_iff : (e == f) = true ↔ e.terms = f.terms := decide_eq_true_iff

theorem coefficientOf_of_perm {ts us : List Term} (h : ts.Perm us) (he : ofTerms ts = .ok e)
    (hf : ofTerms us = .ok f) (n : Name) : e.coefficientOf n = f.coefficientOf n := by
  apply Fraction.value_injective
  rw [value_coefficientOf_ofTerms he, value_coefficientOf_ofTerms hf,
    coefficientSum_perm n (h.map _)]

/-- Equations under one built-in policy are the same if and only if the coefficients of all
variables and the constants are, whatever was done to bring them about. So terms add up to the same
equation in every order, unless adding them up overflows. -/
theorem beq_iff_coefficientOf {allowed : Policy → Prop} {p : Policy} (hp : p.isBuiltIn) :
    (∀ e f : Equation, e.Reachable allowed → f.Reachable allowed → e.policy = p → f.policy = p →
      ((e == f) = true ↔
        (∀ n : Name, n.isBlank = false → e.coefficientOf n = f.coefficientOf n) ∧
          e.constant = f.constant)) ∧
    ∀ ts us : List Term, ts.Perm us → (∀ fault, ofTerms ts = .error fault → fault.IsOverflow) ∧
      ∀ e f, ofTerms ts = .ok e → ofTerms us = .ok f → e = f := by
  constructor
  · rintro e f he hf rfl hpol
    rw [← forall_coefficientOf_iff, beq_iff]
    constructor
    · intro h n
      rw [coefficientOf, coefficientOf, h]
    · intro h
      have hord := Policy.ordersNames_of_isBuiltIn hp
      rw [eq_of_coefficientOf he.isTidy hf.isTidy hord hpol h]
  · refine fun ts us h => ⟨overflows_addTerms {} ts, fun e f he hf => ?_⟩
    have hpe : e.policy = .descending := policy_addTerms he
    have hpf : f.policy = .descending := policy_addTerms hf
    have hord : e.policy.OrdersNames := Policy.ordersNames_of_isBuiltIn (hpe ▸ rfl)
    exact eq_of_coefficientOf (isTidy_empty.addTerms he) (isTidy_empty.addTerms hf) hord
      (hpf.trans hpe.symm) (coefficientOf_of_perm h he hf)

set_option maxRecDepth 8000 in
/-- An equation that was read, and one whose terms were added under two other policies, a variable
of which cancelled. Three terms in two orders, of which some others overflow. -/
theorem beq_iff_coefficientOf_threeHistories :
    let p := Policy.byOrder ["x"]
    let read := ofPairs .descending [(1, "y"), (2, "x"), (-3, "")]
    let start := ofPairs .alphabetical [(1, "x"), (1, "z")]
    let sum := ofPairs .alphabetical [(2, "x"), (1, "y"), (-3, "")]
    let most : Term := ⟨.whole 9223372036854775807, .ofText "x"⟩
    let least : Term := ⟨.whole (-9223372036854775807), .ofText "x"⟩
    let one : Term := ⟨.one, .ofText "x"⟩
    let added := [⟨.whole (-1), .ofText "z"⟩, ⟨.one, .ofText "y"⟩, .constant (.whole (-3)), one]
    p.isBuiltIn ∧ parse "2x - 3 = -y" = .ok read ∧ start.Reachable (fun p => p.isBuiltIn) ∧
      start.addTerms added = .ok sum ∧ (read.withPolicy p).Reachable (fun p => p.isBuiltIn) ∧
      (sum.withPolicy p).Reachable (fun p => p.isBuiltIn) ∧
      (read.withPolicy p == sum.withPolicy p) ∧
      (∀ n : Name, n.isBlank = false →
        (read.withPolicy p).coefficientOf n = (sum.withPolicy p).coefficientOf n) ∧
      [most, least, one].Perm [one, least, most] ∧
      ∃ e f, ofTerms [most, least, one] = .ok e ∧ ofTerms [one, least, most] = .ok f ∧ e = f := by
  intro p read start sum most least one added
  obtain ⟨hiff, horder⟩ := @beq_iff_coefficientOf (fun p => p.isBuiltIn) p rfl
  have hparse : parse "2x - 3 = -y" = .ok read := by cbv
  have hstart : start.Reachable fun p => p.isBuiltIn := by
    have hsum : ofTerms [⟨.one, .ofText "z"⟩, one] =
        .ok (ofPairs .descending [(1, "z"), (1, "x")]) := by cbv
    exact .withPolicy (show Policy.alphabetical.isBuiltIn from rfl) (.ofTerms hsum)
  have hsum : start.addTerms added = .ok sum := by cbv
  have hbuiltIn : p.isBuiltIn := rfl
  have hread : (read.withPolicy p).Reachable fun p => p.isBuiltIn :=
    .withPolicy hbuiltIn (.parse hparse)
  have hback := Reachable.withPolicy hbuiltIn (hstart.addTerms hsum)
  have hbeq : read.withPolicy p == sum.withPolicy p := by decide +kernel
  have hperm : [most, least, one].Perm [one, least, most] := by decide
  have hmost : ofTerms [most, least, one] = .ok (ofPairs .descending [(1, "x")]) := by cbv
  have hone : ofTerms [one, least, most] = .ok (ofPairs .descending [(1, "x")]) := by cbv
  exact ⟨hbuiltIn, hparse, hstart, hsum, hread, hback, hbeq,
    ((hiff _ _ hread hback rfl rfl).1 hbeq).1, hperm, _, _, hmost, hone,
    (horder _ _ hperm).2 _ _ hmost hone⟩

end ExactLinear.Equation
