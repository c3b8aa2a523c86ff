import Mathlib.Logic.Relation
import ExactLinear.Proofs.Elimination.Evaluation
import ExactLinear.Proofs.Fraction.Words
import ExactLinear.Proofs.Policy.Listing

/-! # Terms that stay sorted

Terms are sorted where one comes in under a new name and where the policy changes. The other
operations change coefficients in their places, so the terms stay sorted if and only if the policy
does not look at the coefficients of different variables.
-/

namespace ExactLinear
open Std (OrientedCmp)

/-- The coefficients of terms of different names have no say in their order. Ties are allowed. -/
def Policy.IgnoresCoefficients (p : Policy) : Prop :=
  ∀ t u : Term, t.coefficient ≠ .zero → u.coefficient ≠ .zero → t.name ≠ u.name →
    p.compare t u = p.compareNames t.name u.name

theorem Policy.OrdersNames.ignoresCoefficients {p : Policy} (hp : p.OrdersNames) :
    p.IgnoresCoefficients := fun t u _ _ hn => hp.compare_eq t u hn

namespace Equation

section

variable {e r : Equation}

theorem isSorted_iff_names (hi : e.policy.IgnoresCoefficients) (hc : e.IsCanonical) :
    e.IsSorted ↔
      (e.terms.map Term.name).Pairwise fun m n => (e.policy.compareNames m n).isLE := by
  rw [IsSorted, List.pairwise_map]
  have hne : e.terms.Pairwise fun t u => t.name ≠ u.name := List.pairwise_map.1 hc.nodup
  have hsame {t u : Term} (ht : t ∈ e.terms) (hu : u ∈ e.terms) (hn : t.name ≠ u.name) :
      e.policy.compare t u = e.policy.compareNames t.name u.name :=
    hi t u (hc.nonzero t ht) (hc.nonzero u hu) hn
  constructor <;> intro h
  · refine (hne.and h).imp_of_mem fun {t u} ht hu htu => ?_
    rw [← hsame ht hu htu.1]
    exact htu.2
  · refine (hne.and h).imp_of_mem fun {t u} ht hu htu => ?_
    rw [hsame ht hu htu.1]
    exact htu.2

theorem IsSorted.of_names (h : e.IsSorted) (hi : e.policy.IgnoresCoefficients)
    (he : e.IsCanonical) (hr : r.IsCanonical) (hp : r.policy = e.policy)
    (hn : r.terms.map Term.name = e.terms.map Term.name) : r.IsSorted := by
  rw [isSorted_iff_names hi he] at h
  rw [isSorted_iff_names (hp ▸ hi) hr, hp, hn]
  exact h

theorem IsSorted.of_isMultiple {q : ℚ} (h : e.IsSorted) (hi : e.policy.IgnoresCoefficients)
    (he : e.IsCanonical) (hr : r.IsCanonical) (hm : IsMultiple q e r) : r.IsSorted :=
  h.of_names hi he hr hm.policy hm.names

theorem IsSorted.of_sublist (h : e.IsSorted) {ts : List Term} (hs : ts.Sublist e.terms) :
    IsSorted ⟨e.policy, ts⟩ := List.Pairwise.sublist hs h

theorem isSorted_withPolicy (e : Equation) {p : Policy} (hp : p.IsLawful) :
    (e.withPolicy p).IsSorted := Policy.pairwise_sort hp e.terms

theorem IsSorted.addTerm {t : Term} (h : e.IsSorted) (hp : e.policy.IsLawful)
    (hi : e.policy.IgnoresCoefficients) (ht : e.IsTidy) (ha : e.addTerm t = .ok r) :
    r.IsSorted := by
  have hr := (ht.addTerm ha).isCanonical
  obtain ⟨hpol, hadd⟩ := addition_of_addTerm ha
  rcases e with ⟨p, ts⟩
  rcases r with ⟨p', us⟩
  dsimp only at hpol hadd hp hi
  subst hpol
  cases hadd with
  | nothing => exact h
  | merged => exact h.of_names hi ht.isCanonical hr rfl (by simp [Term.withCoefficient])
  | cancelled => exact h.of_sublist ((List.Sublist.refl _).append (List.sublist_cons_self _ _))
  | placed => exact Policy.pairwise_sort hp _

theorem IsSorted.addTerms {ts : List Term} (h : e.IsSorted) (hp : e.policy.IsLawful)
    (hi : e.policy.IgnoresCoefficients) (ht : e.IsTidy) (ha : e.addTerms ts = .ok r) :
    r.IsSorted := by
  have key := addTerms_induction (motive := fun d => d.policy = e.policy ∧ d.IsTidy ∧ d.IsSorted)
    ha ⟨rfl, ht, h⟩ fun t _ d d' hd had => by
      obtain ⟨hpol, htidy, hsorted⟩ := hd
      exact ⟨(policy_addTerm had).trans hpol, htidy.addTerm had,
        hsorted.addTerm (hpol ▸ hp) (hpol ▸ hi) htidy had⟩
  exact key.2.2

theorem IsSorted.simplify (h : e.IsSorted) (hi : e.policy.IgnoresCoefficients) (ht : e.IsTidy)
    (hs : e.simplify = .ok r) : r.IsSorted := by
  obtain ⟨q, _, hm⟩ := isMultiple_of_simplify hs
  exact h.of_isMultiple hi ht.isCanonical (ht.simplify hs).isCanonical hm

theorem IsSorted.substitute? {n : Name} {x : Fraction} (h : e.IsSorted) (hp : e.policy.IsLawful)
    (hi : e.policy.IgnoresCoefficients) (ht : e.IsTidy) (hs : e.substitute? n x = .ok (some r)) :
    r.IsSorted := by
  obtain ⟨left, right, t, y, sum, he, _, _, hsum, hr⟩ := substitute?_eq_some hs
  have hrest : IsSorted ⟨e.policy, left ++ right⟩ := by
    apply h.of_sublist
    rw [he]
    exact (List.Sublist.refl left).append (List.sublist_cons_self t right)
  have htidy := ht.without he
  have hpol := policy_addTerm hsum
  exact (hrest.addTerm hp hi htidy hsum).simplify (hpol ▸ hi) (htidy.addTerm hsum) hr

end

/-- Under a policy that looks at names only every operation leaves the terms sorted. -/
theorem Reachable.isSorted {allowed : Policy → Prop} {e : Equation} (h : e.Reachable allowed)
    (hp : e.policy.IsLawful) (hi : e.policy.IgnoresCoefficients) : e.IsSorted := by
  have hempty : IsSorted {} := .nil
  induction h with
  | empty => exact hempty
  | parse h =>
    obtain ⟨ts, hts⟩ := ofTerms_of_parse h
    rw [policy_addTerms hts] at hp hi
    exact hempty.addTerms hp hi isTidy_empty hts
  | ofTerms h =>
    rw [policy_addTerms h] at hp hi
    exact hempty.addTerms hp hi isTidy_empty h
  | addTerm he h ih =>
    rw [policy_addTerm h] at hp hi
    exact (ih hp hi).addTerm hp hi he.isTidy h
  | addTerms he h ih =>
    rw [policy_addTerms h] at hp hi
    exact (ih hp hi).addTerms hp hi he.isTidy h
  | scale he h ih =>
    obtain ⟨_, hm⟩ := isMultiple_of_scale h
    rw [hm.policy] at hp hi
    exact (ih hp hi).of_isMultiple hi he.isTidy.isCanonical (he.isTidy.scale h).isCanonical hm
  | unscale he h ih =>
    obtain ⟨_, hm⟩ := isMultiple_of_unscale h
    rw [hm.policy] at hp hi
    exact (ih hp hi).of_isMultiple hi he.isTidy.isCanonical (he.isTidy.unscale h).isCanonical hm
  | simplify he h ih =>
    rw [policy_simplify h] at hp hi
    exact (ih hp hi).simplify hi he.isTidy h
  | substitute he h ih =>
    rw [policy_substitute? h] at hp hi
    exact (ih hp hi).substitute? hp hi he.isTidy h
  | withPolicy _ _ _ => exact isSorted_withPolicy _ hp

end Equation

namespace Fraction

theorem exists_value_div {k : ℤ} {q : ℕ} (hk : k.natAbs ≤ 9223372036854775807)
    (hq : FitsWord q) : ∃ d : Fraction, d.value = k / q ∧ d.HasOpposite := by
  have hn : FitsWord k.natAbs := by
    unfold FitsWord
    omega
  obtain ⟨d, _, hd, ho⟩ := exists_ofRat_div hn hq
  rcases Int.natAbs_eq k with hk | hk
  · refine ⟨d, ?_, ho⟩
    rw [hd, hk]
    simp
  · obtain ⟨c, _, hc, ho'⟩ := exists_neg ho
    refine ⟨c, ?_, ho'⟩
    rw [hc, hd, hk]
    simp [neg_div]

/-- One sum leads from the first fraction to the second, and one back. Neither of them is zero. -/
structure IsNear (x y : Fraction) : Prop where
  left : x ≠ zero
  right : y ≠ zero
  exists_add : ∃ d : Fraction, d.value = y.value - x.value ∧ d.HasOpposite

theorem IsNear.symm {x y : Fraction} (h : IsNear x y) : IsNear y x := by
  obtain ⟨d, hd, ho⟩ := h.exists_add
  obtain ⟨c, _, hc, ho'⟩ := exists_neg ho
  exact ⟨h.right, h.left, c, by rw [hc, hd, neg_sub], ho'⟩

theorem isNear_of_sub_eq {x y : Fraction} (hx : x.value ≠ 0) (hy : y.value ≠ 0) {k : ℤ} {q : ℕ}
    (hk : k.natAbs ≤ 9223372036854775807) (hq : FitsWord q) (h : y.value - x.value = k / q) :
    IsNear x y := by
  obtain ⟨d, hd, ho⟩ := exists_value_div hk hq
  exact ⟨mt value_eq_zero_iff.2 hx, mt value_eq_zero_iff.2 hy, d, hd.trans h.symm, ho⟩

/-- Any fraction is led to one, by way of one over its denominator or the opposite. -/
theorem reaches_one {x : Fraction} (hx : x ≠ zero) : Relation.ReflTransGen IsNear x one := by
  obtain ⟨hn, hd, _⟩ := stored_of_ne_zero hx
  have hx0 := value_ne_zero hx
  have hnum := x.fitsWord_numerator
  have hden := x.fitsWord_denominator
  have hd0 : (x.denominator : ℚ) ≠ 0 := by exact_mod_cast hd
  obtain ⟨σ, hσ, hk⟩ : ∃ σ : ℤ, (σ = 1 ∨ σ = -1) ∧
      (σ - x.numerator).natAbs ≤ 9223372036854775807 := by
    unfold FitsWord at hnum
    rcases Int.lt_or_gt_of_ne hn with hneg | hpos
    · exact ⟨-1, .inr rfl, by omega⟩
    · exact ⟨1, .inl rfl, by omega⟩
  have hσ0 : (σ : ℚ) ≠ 0 := by rcases hσ with rfl | rfl <;> norm_num
  obtain ⟨y, hy, _⟩ := exists_value_div (k := σ) (by omega) hden
  obtain ⟨z, hz, _⟩ := exists_value_div (k := σ) (q := 1) (by omega) (by decide)
  rw [Nat.cast_one, div_one] at hz
  have hy0 : y.value ≠ 0 := by
    rw [hy]
    exact div_ne_zero hσ0 hd0
  have hz0 : z.value ≠ 0 := hz ▸ hσ0
  have hxy : IsNear x y := by
    apply isNear_of_sub_eq hx0 hy0 hk hden
    rw [hy, value_eq_div]
    push_cast
    rw [sub_div]
  have hyz : IsNear y z := by
    apply isNear_of_sub_eq hy0 hz0 (k := σ * (x.denominator - 1)) (q := x.denominator) _ hden
    · rw [hz, hy]
      push_cast
      field_simp
    · have := x.denominator_lt
      rcases hσ with rfl | rfl <;> omega
  have hz1 : IsNear z one := by
    have h1 : one.value ≠ 0 := by
      rw [value_one]
      exact one_ne_zero
    apply isNear_of_sub_eq hz0 h1 (k := 1 - σ) (q := 1) (by omega) (by decide)
    rw [hz, value_one]
    push_cast
    rw [div_one]
  exact .tail (.tail (.single hxy) hyz) hz1

theorem reaches {x y : Fraction} (hx : x ≠ zero) (hy : y ≠ zero) :
    Relation.ReflTransGen IsNear x y := by
  have : Std.Symm IsNear := ⟨fun _ _ => IsNear.symm⟩
  exact (reaches_one hx).trans (symm (reaches_one hy))

end Fraction

namespace Equation

/-- Adding terms takes one coefficient to any other, and the term stays in its place. -/
theorem Reachable.withCoefficient {allowed : Policy → Prop} {p : Policy} {l r : List Term}
    {t : Term} {y : Fraction} (h : Reachable allowed ⟨p, l ++ t :: r⟩)
    (ht : t.coefficient ≠ .zero) (hy : y ≠ .zero) (hl : t.name ∉ l.map Term.name) :
    Reachable allowed ⟨p, l ++ t.withCoefficient y :: r⟩ := by
  induction Fraction.reaches ht hy with
  | refl => exact h
  | @tail x y _ hxy ih =>
    obtain ⟨d, hd, _⟩ := hxy.exists_add
    by_cases hd0 : d = .zero
    · rw [hd0, Fraction.value_zero, eq_comm, sub_eq_zero] at hd
      rw [Fraction.value_injective hd]
      exact ih hxy.left
    · have hadd : x.add d = .ok y := by
        rw [Fraction.add_eq_ofRat, Fraction.ofRat_eq_ok_iff, hd]
        ring
      exact (ih hxy.left).addTerm (addTerm_of_add (t := ⟨d, t.name⟩) (u := t.withCoefficient x)
        rfl hd0 hl rfl hadd hxy.right)

theorem reachable_pair {allowed : Policy → Prop} {p : Policy} (hp : allowed p) {t u : Term}
    (ht : t.coefficient ≠ .zero) (hu : u.coefficient ≠ .zero) (hn : t.name ≠ u.name)
    (h : (p.compare t u).isLE) : Reachable allowed ⟨p, [t, u]⟩ := by
  have hempty : Reachable allowed ⟨p, []⟩ := .withPolicy hp .empty
  have hone : Reachable allowed ⟨p, [t]⟩ := hempty.addTerm (addTerm_of_notMem ht (by simp))
  have htwo := hone.addTerm (addTerm_of_notMem hu (by simpa using hn.symm))
  have hsort : p.sort [t, u] = [t, u] := by simp [Policy.sort, sortBy, insertBy, h]
  rwa [← hsort]

end Equation

namespace Policy

theorem isLE_compareNames {allowed : Policy → Prop} {p : Policy} (hp : allowed p)
    (h : ∀ e : Equation, e.Reachable allowed → e.policy = p → e.IsSorted) {t u : Term}
    (ht : t.coefficient ≠ .zero) (hu : u.coefficient ≠ .zero) (hn : t.name ≠ u.name) :
    (p.compare t u).isLE ↔ (p.compareNames t.name u.name).isLE := by
  have change {m n : Name} (hmn : m ≠ n) {x y x' y' : Fraction} (hx : x ≠ .zero) (hy : y ≠ .zero)
      (hx' : x' ≠ .zero) (hy' : y' ≠ .zero) (hle : (p.compare ⟨x, m⟩ ⟨y, n⟩).isLE) :
      (p.compare ⟨x', m⟩ ⟨y', n⟩).isLE := by
    have hpair := Equation.reachable_pair hp (t := ⟨x, m⟩) (u := ⟨y, n⟩) hx hy hmn hle
    have hfirst := Equation.Reachable.withCoefficient (l := []) hpair hx hx' (by simp)
    have hsecond := Equation.Reachable.withCoefficient (l := [⟨x', m⟩]) hfirst hy hy'
      (by simpa using hmn.symm)
    have hsorted := h _ hsecond rfl
    simpa [Equation.IsSorted, Term.withCoefficient] using hsorted
  have h1 : Fraction.one ≠ .zero := by decide
  exact ⟨change hn ht hu h1 h1, change hn h1 h1 ht hu⟩

theorem eq_of_isLE_iff {o o' : Ordering} (h : o.isLE ↔ o'.isLE)
    (h' : o.swap.isLE ↔ o'.swap.isLE) : o = o' := by
  cases o <;> cases o' <;> simp_all

theorem ignoresCoefficients_of_isSorted {allowed : Policy → Prop} {p : Policy} (hp : p.IsLawful)
    (ha : allowed p) (h : ∀ e : Equation, e.Reachable allowed → e.policy = p → e.IsSorted) :
    p.IgnoresCoefficients := by
  intro t u ht hu hn
  have := transCmp_compare hp
  have hle := isLE_compareNames ha h ht hu hn
  have hge := isLE_compareNames ha h hu ht hn.symm
  have hswap (t u : Term) : p.compare u t = (p.compare t u).swap := OrientedCmp.eq_swap
  have hswap' : p.compareNames u.name t.name = (p.compareNames t.name u.name).swap :=
    hswap ⟨.one, t.name⟩ ⟨.one, u.name⟩
  rw [hswap t u, hswap'] at hge
  exact eq_of_isLE_iff hle hge

theorem ignoresCoefficients_custom (label : String) (cmp : Name → Name → Ordering) :
    (custom label fun t u => cmp t.name u.name).IgnoresCoefficients := by
  intro t u _ _ hn
  cases ht : t.isConstant <;> cases hu : u.isConstant <;>
    simp only [compareNames, compare, compareVariables, Term.isConstant] at ht hu ⊢ <;>
    simp only [ht, hu]
  exact absurd ((Name.eq_blank_of_isBlank ht).trans (Name.eq_blank_of_isBlank hu).symm) hn

end Policy

namespace Equation

/-- Under a lawful policy the terms stay sorted through all operations if and only if it looks at
names only. A new policy and a term under a new name sort the terms in any case. -/
theorem isSorted_iff_ignoresCoefficients {allowed : Policy → Prop} {p : Policy}
    (hp : p.IsLawful) (ha : allowed p) :
    ((∀ e : Equation, e.Reachable allowed → e.policy = p → e.IsSorted) ↔
      p.IgnoresCoefficients) ∧
      (∀ e : Equation, (e.withPolicy p).IsSorted) ∧
      ∀ (e r : Equation) (t : Term), e.policy = p → t.coefficient ≠ .zero →
        t.name ∉ e.terms.map Term.name → e.addTerm t = .ok r → r.IsSorted := by
  refine ⟨⟨Policy.ignoresCoefficients_of_isSorted hp ha, fun hi e he hpol => ?_⟩,
    fun e => isSorted_withPolicy e hp, fun e r t hpol ht hn hr => ?_⟩
  · subst hpol
    exact he.isSorted hp hi
  · subst hpol
    rw [addTerm_of_notMem ht hn] at hr
    cases hr
    exact Policy.pairwise_sort hp _

theorem isSorted_of_ordersNames {allowed : Policy → Prop} {e : Equation} (he : e.Reachable allowed)
    (hp : e.policy.OrdersNames) : e.IsSorted := he.isSorted hp.isLawful hp.ignoresCoefficients

/-- Names of one length tie, and the terms stay sorted by length nevertheless. -/
theorem isSorted_iff_ignoresCoefficients_byLength :
    Policy.byLength.IsLawful ∧ Policy.byLength.IgnoresCoefficients ∧
      ∀ e : Equation, e.Reachable Policy.IsLawful → e.policy = .byLength → e.IsSorted := by
  have hp := Policy.isLawful_byLength
  have hi : Policy.byLength.IgnoresCoefficients := Policy.ignoresCoefficients_custom _
    fun m n => Ord.compare m.text.utf8ByteSize n.text.utf8ByteSize
  exact ⟨hp, hi, (isSorted_iff_ignoresCoefficients hp hp).1.2 hi⟩

def byCoefficient : Policy :=
  .custom "Coefficient" fun t u => t.coefficient.compare u.coefficient

theorem isLawful_byCoefficient : byCoefficient.IsLawful :=
  Term.transCmp_comap Fraction.compare Term.coefficient

/-- In the order of the coefficients `x + 2 y = 0` is sorted. After `5 x` is added it is not any
more, nor after a product with minus one. -/
theorem not_isSorted_byCoefficient :
    let e := ofPairs byCoefficient [(1, "x"), (2, "y")]
    let sum := ofPairs byCoefficient [(6, "x"), (2, "y")]
    let opposite := ofPairs byCoefficient [(-1, "x"), (-2, "y")]
    byCoefficient.IsLawful ∧ e.Reachable Policy.IsLawful ∧ e.IsSorted ∧
      e.addTerm ⟨.whole 5, .ofText "x"⟩ = .ok sum ∧ ¬sum.IsSorted ∧
        e.scale (.whole (-1)) = .ok opposite ∧ ¬opposite.IsSorted := by
  intro e sum opposite
  have he : e.Reachable Policy.IsLawful := reachable_pair isLawful_byCoefficient (by decide)
    (by decide) (by decide) (by decide +kernel)
  have hlt : byCoefficient.compare ⟨.whole 1, .ofText "x"⟩ ⟨.whole 2, .ofText "y"⟩ = .lt := by cbv
  have hsum : byCoefficient.compare ⟨.whole 6, .ofText "x"⟩ ⟨.whole 2, .ofText "y"⟩ = .gt := by cbv
  have hopposite : byCoefficient.compare ⟨.whole (-1), .ofText "x"⟩ ⟨.whole (-2), .ofText "y"⟩ =
      .gt := by cbv
  refine ⟨isLawful_byCoefficient, he, ?_, by cbv, ?_, by cbv, ?_⟩
  · simp [e, IsSorted, ofPairs, hlt]
  · simp [sum, IsSorted, ofPairs, hsum]
  · simp [opposite, IsSorted, ofPairs, hopposite]

end Equation
end ExactLinear
