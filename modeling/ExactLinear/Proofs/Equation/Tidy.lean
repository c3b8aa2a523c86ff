import ExactLinear.Proofs.Equation.Operations
import ExactLinear.Reachable

/-! # Tidy equations

Every operation on an equation keeps it canonical, and strictly sorted under a policy that orders
the names. Under other policies a changed coefficient can leave the terms unsorted.
-/

namespace ExactLinear

/-- The variables come first in a sorted list with one constant at most, under every policy. -/
theorem constantLast_insertBy (p : Policy) {t : Term} {ts : List Term}
    (h : ts.Pairwise fun u _ => u.isConstant = false)
    (ht : t.isConstant → ∀ u ∈ ts, u.isConstant = false) :
    (insertBy p.compare t ts).Pairwise fun u _ => u.isConstant = false := by
  induction ts with
  | nil => simp [insertBy]
  | cons u us ih =>
    obtain ⟨hu, hs⟩ := List.pairwise_cons.1 h
    rw [insertBy]
    split
    · next hle =>
      refine List.pairwise_cons.2 ⟨fun _ _ => ?_, h⟩
      by_contra hc
      rw [Bool.not_eq_false] at hc
      have hv := ht hc u (by simp)
      simp [Policy.compare, hc, hv] at hle
    · next hle =>
      refine List.pairwise_cons.2 ⟨fun w hw => ?_, ih hs fun hc w hw => ht hc w (by simp [hw])⟩
      rcases List.mem_cons.1 ((insertBy_perm p.compare t us).mem_iff.1 hw) with rfl | hw
      · by_contra hc
        rw [Bool.not_eq_false] at hc
        have hv : w.isConstant = false := by
          by_contra hv
          rw [Bool.not_eq_false] at hv
          exact absurd (ht hv u (by simp)) (by simp [hc])
        simp [Policy.compare, hc, hv] at hle
      · exact hu w hw

theorem constantLast_sort (p : Policy) {ts : List Term} (h : (ts.map Term.name).Nodup) :
    (p.sort ts).Pairwise fun t _ => t.isConstant = false := by
  induction ts with
  | nil => exact .nil
  | cons t ts ih =>
    rw [List.map_cons, List.nodup_cons] at h
    refine constantLast_insertBy p (ih h.2) fun ht u hu => ?_
    by_contra hc
    rw [Bool.not_eq_false] at hc
    have hn : u.name = t.name :=
      (Name.eq_blank_of_isBlank hc).trans (Name.eq_blank_of_isBlank ht).symm
    exact h.1 (hn ▸ List.mem_map_of_mem ((p.sort_perm ts).mem_iff.1 hu))

theorem pairwise_compare_iff {p : Policy} (hp : p.OrdersNames) {ts : List Term}
    (hn : (ts.map Term.name).Nodup) : (ts.Pairwise fun t u => p.compare t u = .lt) ↔
      (ts.map Term.name).Pairwise fun m n => p.compareNames m n = .lt := by
  rw [List.pairwise_map]
  have hne : ts.Pairwise fun t u => t.name ≠ u.name := List.pairwise_map.1 hn
  constructor <;> intro h
  · exact (hne.and h).imp fun hc => hp.compare_eq _ _ hc.1 ▸ hc.2
  · exact (hne.and h).imp fun hc => (hp.compare_eq _ _ hc.1).trans hc.2

theorem pairwise_compare_sort {p : Policy} (hp : p.OrdersNames) {ts : List Term}
    (hn : (ts.map Term.name).Nodup) : (p.sort ts).Pairwise fun t u => p.compare t u = .lt := by
  have hs : ((p.sort ts).map Term.name).Nodup := ((p.sort_perm ts).map _).nodup_iff.2 hn
  have hne : (p.sort ts).Pairwise fun t u => t.name ≠ u.name := List.pairwise_map.1 hs
  have hle := Policy.pairwise_sort hp.isLawful ts
  refine (hne.and hle).imp fun {t u} h => ?_
  cases hcmp : p.compare t u with
  | lt => rfl
  | eq => exact absurd hcmp (hp.compare_ne_eq t u h.1)
  | gt => simp [hcmp] at h

namespace Equation

/-- Canonical, and strictly sorted if the policy orders the names. -/
structure IsTidy (e : Equation) : Prop where
  isCanonical : e.IsCanonical
  isStrictlySorted : e.policy.OrdersNames → e.IsStrictlySorted

theorem isTidy_empty : IsTidy {} := by
  refine ⟨⟨?_, ?_, ?_⟩, fun _ => ?_⟩ <;> simp [IsStrictlySorted]

/-- A tidy equation under another policy is tidy, and so is any list of its terms once sorted. -/
theorem isTidy_sort (p : Policy) {ts : List Term} (hn : (ts.map Term.name).Nodup)
    (h0 : ∀ t ∈ ts, t.coefficient ≠ .zero) : IsTidy ⟨p, p.sort ts⟩ := by
  refine ⟨⟨?_, ?_, constantLast_sort p hn⟩, fun hp => pairwise_compare_sort hp hn⟩
  · exact ((p.sort_perm ts).map _).nodup_iff.2 hn
  · intro t ht
    exact h0 t ((p.sort_perm ts).mem_iff.1 ht)

theorem IsTidy.withPolicy {e : Equation} (h : e.IsTidy) (p : Policy) : (e.withPolicy p).IsTidy :=
  isTidy_sort p h.isCanonical.nodup h.isCanonical.nonzero

/-- A policy that orders the names leaves one place to each term. -/
theorem IsTidy.withPolicy_eq_of_perm {e r : Equation} (h : e.IsTidy) (hp : e.policy.OrdersNames)
    (hr : r.terms.Perm e.terms) : r.withPolicy e.policy = e := by
  have := Policy.transCmp_compare hp.isLawful
  have hn := (hr.map Term.name).nodup_iff.2 h.isCanonical.nodup
  have hterms : e.policy.sort r.terms = e.terms :=
    eq_of_perm_of_pairwise ((e.policy.sort_perm _).trans hr) (pairwise_compare_sort hp hn)
      (h.isStrictlySorted hp)
  rw [Equation.withPolicy, hterms]

theorem IsTidy.of_names {e r : Equation} (h : e.IsTidy) (hp : r.policy = e.policy)
    (hn : r.terms.map Term.name = e.terms.map Term.name)
    (h0 : ∀ t ∈ r.terms, t.coefficient ≠ .zero) : r.IsTidy := by
  refine ⟨⟨hn ▸ h.isCanonical.nodup, h0, ?_⟩, fun hb => ?_⟩
  · have hc := h.isCanonical.constantLast
    simp only [Term.isConstant] at hc ⊢
    rw [← List.pairwise_map (f := Term.name) (R := fun n _ => n.isBlank = false)] at hc ⊢
    rwa [hn]
  · rw [hp] at hb
    have hs := h.isStrictlySorted hb
    rw [IsStrictlySorted, pairwise_compare_iff hb h.isCanonical.nodup, ← hn] at hs
    rw [IsStrictlySorted, hp, pairwise_compare_iff hb (hn ▸ h.isCanonical.nodup)]
    exact hs

theorem IsTidy.of_sublist {e : Equation} (h : e.IsTidy) {ts : List Term}
    (hs : ts.Sublist e.terms) : IsTidy ⟨e.policy, ts⟩ := by
  refine ⟨⟨?_, ?_, h.isCanonical.constantLast.sublist hs⟩, fun hp => ?_⟩
  · exact h.isCanonical.nodup.sublist (hs.map _)
  · intro t ht
    exact h.isCanonical.nonzero t (hs.subset ht)
  · exact (h.isStrictlySorted hp).sublist hs

theorem IsTidy.without {e : Equation} (h : e.IsTidy) {t : Term} {left right : List Term}
    (he : e.terms = left ++ t :: right) : IsTidy ⟨e.policy, left ++ right⟩ := by
  apply h.of_sublist
  rw [he]
  exact (List.Sublist.refl left).append (List.sublist_cons_self t right)

theorem IsTidy.addTerm {e r : Equation} {t : Term} (h : e.IsTidy) (ha : e.addTerm t = .ok r) :
    r.IsTidy := by
  obtain ⟨hp, hadd⟩ := addition_of_addTerm ha
  have hnonzero := hadd.nonzero h.isCanonical.nonzero
  rcases e with ⟨p, ts⟩
  rcases r with ⟨p', us⟩
  dsimp only at hp hadd hnonzero
  subst hp
  cases hadd with
  | nothing hz => exact h
  | merged hz hn hs h0 => exact h.of_names rfl (by simp [Term.withCoefficient]) hnonzero
  | @cancelled l k u hz hn hs =>
    exact h.without rfl
  | placed hz hn =>
    apply isTidy_sort
    · simpa using List.nodup_append.2 ⟨h.isCanonical.nodup, List.nodup_singleton t.name,
        fun m hm n ht => by rintro rfl; exact hn (List.mem_singleton.1 ht ▸ hm)⟩
    · exact fun u hu => hnonzero u ((Policy.sort_perm _ _).mem_iff.2 hu)

theorem policy_addTerm {e r : Equation} {t : Term} (h : e.addTerm t = .ok r) :
    r.policy = e.policy := (addition_of_addTerm h).1

theorem IsTidy.addTerms {e r : Equation} {ts : List Term} (h : e.IsTidy)
    (ha : e.addTerms ts = .ok r) : r.IsTidy :=
  addTerms_induction ha h fun _ _ _ _ hd had => hd.addTerm had

theorem policy_addTerms {e r : Equation} {ts : List Term} (h : e.addTerms ts = .ok r) :
    r.policy = e.policy :=
  addTerms_induction (motive := fun d => d.policy = e.policy) h rfl
    fun _ _ _ _ hd had => (policy_addTerm had).trans hd

theorem IsTidy.of_isMultiple {q : ℚ} {e r : Equation} (h : e.IsTidy) (hq : q ≠ 0)
    (hm : IsMultiple q e r) : r.IsTidy :=
  h.of_names hm.policy hm.names (hm.nonzero hq h.isCanonical.nonzero)

theorem IsTidy.simplify {e r : Equation} (h : e.IsTidy) (hs : e.simplify = .ok r) : r.IsTidy := by
  obtain ⟨q, hq, hm⟩ := isMultiple_of_simplify hs
  exact h.of_isMultiple hq.ne' hm

theorem policy_simplify {e r : Equation} (h : e.simplify = .ok r) : r.policy = e.policy := by
  obtain ⟨q, _, hm⟩ := isMultiple_of_simplify h
  exact hm.policy

theorem IsTidy.scale {e r : Equation} {x : Fraction} (h : e.IsTidy) (hs : e.scale x = .ok r) :
    r.IsTidy := by
  obtain ⟨hx, hm⟩ := isMultiple_of_scale hs
  exact h.of_isMultiple (Fraction.value_ne_zero hx) hm

theorem IsTidy.unscale {e r : Equation} {x : Fraction} (h : e.IsTidy) (hs : e.unscale x = .ok r) :
    r.IsTidy := by
  obtain ⟨hx, hm⟩ := isMultiple_of_unscale hs
  exact h.of_isMultiple (inv_ne_zero (Fraction.value_ne_zero hx)) hm

theorem policy_substitute? {e r : Equation} {n : Name} {x : Fraction}
    (h : e.substitute? n x = .ok (some r)) : r.policy = e.policy := by
  obtain ⟨left, right, t, y, sum, _, _, _, hsum, hr⟩ := substitute?_eq_some h
  have hp := policy_addTerm hsum
  exact (policy_simplify hr).trans hp

theorem IsTidy.substitute? {e r : Equation} {n : Name} {x : Fraction} (h : e.IsTidy)
    (hs : e.substitute? n x = .ok (some r)) : r.IsTidy := by
  obtain ⟨left, right, t, y, sum, he, _, _, hsum, hr⟩ := substitute?_eq_some hs
  exact ((h.without he).addTerm hsum).simplify hr

theorem ofTerms_of_parse {s : String} {e : Equation} (h : Equation.parse s = .ok e) :
    ∃ ts, ofTerms ts = .ok e := by
  rw [Equation.parse] at h
  split at h
  next ts error? _ =>
  refine ⟨ts, ?_⟩
  split at h
  · cases h
  · cases h
  · next he _ => cases h; exact he

/-- An equation that adding up its own terms gives back. -/
theorem Reachable.of_terms {allowed : Policy → Prop} {e : Equation}
    (h : Equation.ofTerms e.terms = .ok e) :
    e.Reachable allowed := .ofTerms h

theorem Reachable.isTidy {allowed : Policy → Prop} {e : Equation} (h : e.Reachable allowed) :
    e.IsTidy := by
  induction h with
  | empty => exact isTidy_empty
  | parse h =>
    obtain ⟨ts, hts⟩ := ofTerms_of_parse h
    exact isTidy_empty.addTerms hts
  | ofTerms h => exact isTidy_empty.addTerms h
  | addTerm _ h ih => exact ih.addTerm h
  | addTerms _ h ih => exact ih.addTerms h
  | scale _ h ih => exact ih.scale h
  | unscale _ h ih => exact ih.unscale h
  | simplify _ h ih => exact ih.simplify h
  | substitute _ h ih => exact ih.substitute? h
  | withPolicy _ _ ih => exact ih.withPolicy _

end Equation
end ExactLinear
