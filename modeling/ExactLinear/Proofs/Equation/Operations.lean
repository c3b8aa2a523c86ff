import ExactLinear.Equation.Unknowns
import ExactLinear.Proofs.Policy.Order

/-! # What the operations do to the terms

Each operation on an equation is described once, by the terms before and after it: adding a term,
multiplying through, simplifying, and putting a value in the place of a variable. What an operation
keeps is derived from its description.
-/

namespace ExactLinear

theorem forall₂_of_mapM {ε α β : Type} {f : α → Except ε β} {xs : List α} {ys : List β}
    (h : xs.mapM f = .ok ys) : List.Forall₂ (fun x y => f x = .ok y) xs ys := by
  induction xs generalizing ys with
  | nil => cases h; exact .nil
  | cons x xs ih =>
    rw [List.mapM_cons] at h
    obtain ⟨y, hy, h⟩ := bind_eq_ok.1 h
    obtain ⟨ys', hys, h⟩ := bind_eq_ok.1 h
    cases h
    exact .cons hy (ih hys)

theorem mapM_of_forall₂ {ε α β : Type} {f : α → Except ε β} {xs : List α} {ys : List β}
    (h : List.Forall₂ (fun x y => f x = .ok y) xs ys) : xs.mapM f = .ok ys := by
  induction h with
  | nil => rfl
  | cons hxy _ ih =>
    rw [List.mapM_cons, hxy, ok_bind, ih]
    rfl

theorem exists_of_forall₂ {α β : Type} {R : α → β → Prop} {xs : List α} {ys : List β}
    (h : List.Forall₂ R xs ys) {y : β} (hy : y ∈ ys) : ∃ x ∈ xs, R x y := by
  induction h with
  | nil => cases hy
  | @cons a b _ _ hab _ ih =>
    rcases List.mem_cons.1 hy with rfl | hy
    · exact ⟨a, by simp, hab⟩
    · obtain ⟨x, hx, hxy⟩ := ih hy
      exact ⟨x, by simp [hx], hxy⟩

namespace Equation

/-- The terms before and after a term is added under a policy. -/
inductive Addition (p : Policy) (t : Term) : List Term → List Term → Prop
  | nothing {ts : List Term} (hz : t.coefficient = .zero) : Addition p t ts ts
  /-- The term of the same name takes up the coefficient. -/
  | merged {l r : List Term} {u : Term} {sum : Fraction} (hz : t.coefficient ≠ .zero)
      (hn : u.name = t.name) (hs : u.coefficient.add t.coefficient = .ok sum) (h0 : sum ≠ .zero) :
      Addition p t (l ++ u :: r) (l ++ u.withCoefficient sum :: r)
  /-- The term of the same name goes. -/
  | cancelled {l r : List Term} {u : Term} (hz : t.coefficient ≠ .zero) (hn : u.name = t.name)
      (hs : u.coefficient.add t.coefficient = .ok .zero) : Addition p t (l ++ u :: r) (l ++ r)
  /-- A new name takes its place. -/
  | placed {ts : List Term} (hz : t.coefficient ≠ .zero) (hn : t.name ∉ ts.map Term.name) :
      Addition p t ts (p.sort (ts ++ [t]))

theorem addition_of_merge? {p : Policy} {t : Term} (hz : t.coefficient ≠ .zero)
    {ts us : List Term} (h : merge? t ts = .ok (some us)) : Addition p t ts us := by
  have key : ∃ l u r, ts = l ++ u :: r ∧ u.name = t.name ∧ ∃ sum : Fraction,
      u.coefficient.add t.coefficient = .ok sum ∧
        us = l ++ if sum.isZero then r else u.withCoefficient sum :: r := by
    induction ts generalizing us with
    | nil => cases h
    | cons u r ih =>
      rw [merge?] at h
      split at h
      · next hn =>
        obtain ⟨sum, hs, h⟩ := bind_eq_ok.1 h
        cases h
        exact ⟨[], u, r, rfl, hn, sum, hs, rfl⟩
      · obtain ⟨m, hm, h⟩ := bind_eq_ok.1 h
        cases m with
        | none => cases h
        | some us' =>
          cases h
          obtain ⟨l, w, r', rfl, hn, sum, hs, rfl⟩ := ih hm
          exact ⟨u :: l, w, r', rfl, hn, sum, hs, rfl⟩
  obtain ⟨l, u, r, rfl, hn, sum, hs, rfl⟩ := key
  cases h0 : sum.isZero with
  | true =>
    rw [Fraction.isZero_iff.1 h0] at hs
    exact .cancelled hz hn hs
  | false => exact .merged hz hn hs (Fraction.isZero_eq_false_iff.1 h0)

theorem name_notMem_of_merge? {t : Term} {ts : List Term} (h : merge? t ts = .ok none) :
    t.name ∉ ts.map Term.name := by
  induction ts with
  | nil => simp
  | cons u r ih =>
    rw [merge?] at h
    split at h
    · obtain ⟨_, _, h⟩ := bind_eq_ok.1 h
      cases h
    · next hn =>
      obtain ⟨m, hm, h⟩ := bind_eq_ok.1 h
      cases m with
      | none => simpa [Ne.symm hn] using ih hm
      | some _ => cases h

theorem merge?_eq_none {t : Term} {ts : List Term} (h : t.name ∉ ts.map Term.name) :
    merge? t ts = .ok none := by
  induction ts with
  | nil => rfl
  | cons u ts ih =>
    rw [List.map_cons, List.mem_cons, not_or] at h
    rw [merge?, if_neg (Ne.symm h.1), ih h.2]
    rfl

theorem merge?_of_add {t u : Term} {l r : List Term} (hl : t.name ∉ l.map Term.name)
    (hn : u.name = t.name) {sum : Fraction} (hs : u.coefficient.add t.coefficient = .ok sum)
    (h0 : sum ≠ .zero) :
    merge? t (l ++ u :: r) = .ok (some (l ++ u.withCoefficient sum :: r)) := by
  induction l with
  | nil =>
    rw [List.nil_append, merge?, if_pos hn, hs, ok_bind, Fraction.isZero_eq_false_iff.2 h0]
    rfl
  | cons w l ih =>
    rw [List.map_cons, List.mem_cons, not_or] at hl
    rw [List.cons_append, merge?, if_neg (Ne.symm hl.1), ih hl.2]
    rfl

theorem addTerm_of_notMem {e : Equation} {t : Term} (hz : t.coefficient ≠ .zero)
    (hn : t.name ∉ e.terms.map Term.name) :
    e.addTerm t = .ok { e with terms := e.policy.sort (e.terms ++ [t]) } := by
  rw [addTerm, if_neg (mt Fraction.isZero_iff.1 hz), merge?_eq_none hn]
  rfl

theorem addTerm_of_add {e : Equation} {t u : Term} {l r : List Term} (he : e.terms = l ++ u :: r)
    (hz : t.coefficient ≠ .zero) (hl : t.name ∉ l.map Term.name) (hn : u.name = t.name)
    {sum : Fraction} (hs : u.coefficient.add t.coefficient = .ok sum) (h0 : sum ≠ .zero) :
    e.addTerm t = .ok { e with terms := l ++ u.withCoefficient sum :: r } := by
  rw [addTerm, if_neg (mt Fraction.isZero_iff.1 hz), he, merge?_of_add hl hn hs h0]
  rfl

theorem addition_of_addTerm {e r : Equation} {t : Term} (h : e.addTerm t = .ok r) :
    r.policy = e.policy ∧ Addition e.policy t e.terms r.terms := by
  rw [addTerm] at h
  split at h
  · next hz =>
    cases h
    exact ⟨rfl, .nothing (Fraction.isZero_iff.1 hz)⟩
  · next hz =>
    have hz' := mt Fraction.isZero_iff.2 hz
    obtain ⟨m, hm, h⟩ := bind_eq_ok.1 h
    cases m with
    | none =>
      cases h
      exact ⟨rfl, .placed hz' (name_notMem_of_merge? hm)⟩
    | some ts =>
      cases h
      exact ⟨rfl, addition_of_merge? hz' hm⟩

theorem Addition.nonzero {p : Policy} {t : Term} {ts us : List Term} (h : Addition p t ts us)
    (h0 : ∀ u ∈ ts, u.coefficient ≠ .zero) : ∀ u ∈ us, u.coefficient ≠ .zero := by
  intro u hu
  cases h with
  | nothing hz => exact h0 u hu
  | merged hz hn hs hsum =>
    simp only [List.mem_append, List.mem_cons] at hu h0
    rcases hu with hu | rfl | hu
    · exact h0 u (.inl hu)
    · exact hsum
    · exact h0 u (.inr (.inr hu))
  | cancelled hz hn hs =>
    exact h0 u (((List.Sublist.refl _).append (List.sublist_cons_self _ _)).subset hu)
  | placed hz hn =>
    rcases List.mem_append.1 ((p.sort_perm _).mem_iff.1 hu) with hu | hu
    · exact h0 u hu
    · rwa [List.mem_singleton.1 hu]

/-- What one added term keeps is kept by any number of them. -/
theorem addTerms_induction {motive : Equation → Prop} {ts : List Term} {e r : Equation}
    (h : e.addTerms ts = .ok r) (start : motive e)
    (step : ∀ t ∈ ts, ∀ d d', motive d → d.addTerm t = .ok d' → motive d') : motive r := by
  induction ts generalizing e with
  | nil => cases h; exact start
  | cons t ts ih =>
    rw [addTerms, List.foldlM_cons] at h
    obtain ⟨d, hd, h⟩ := bind_eq_ok.1 h
    exact ih h (step t (by simp) e d start hd) fun u hu => step u (by simp [hu])

/-- The same names in the same order, with every coefficient multiplied by a number. -/
structure IsMultiple (q : ℚ) (e r : Equation) : Prop where
  policy : r.policy = e.policy
  terms : List.Forall₂ (fun t u : Term => u.name = t.name ∧
    u.coefficient.value = q * t.coefficient.value) e.terms r.terms

theorem IsMultiple.refl (e : Equation) : IsMultiple 1 e e :=
  ⟨rfl, List.forall₂_same.2 fun _ _ => ⟨rfl, (one_mul _).symm⟩⟩

theorem IsMultiple.names {q : ℚ} {e r : Equation} (h : IsMultiple q e r) :
    r.terms.map Term.name = e.terms.map Term.name := by
  rcases e with ⟨p, ts⟩
  rcases r with ⟨p', us⟩
  have ht := h.terms
  dsimp only at ht ⊢
  clear h
  induction ht with
  | nil => rfl
  | cons hu _ ih => rw [List.map_cons, List.map_cons, hu.1, ih]

theorem IsMultiple.nonzero {q : ℚ} {e r : Equation} (h : IsMultiple q e r) (hq : q ≠ 0)
    (he : ∀ t ∈ e.terms, t.coefficient ≠ .zero) : ∀ u ∈ r.terms, u.coefficient ≠ .zero := by
  intro u hu hz
  obtain ⟨t, ht, _, hv⟩ := exists_of_forall₂ h.terms hu
  rw [hz, Fraction.value_zero] at hv
  exact mul_ne_zero hq (Fraction.value_ne_zero (he t ht)) hv.symm

theorem forall₂_of_multiply {e r : Equation} {x : Fraction} (h : e.multiply x = .ok r) :
    r.policy = e.policy ∧ List.Forall₂ (fun t u : Term => u.name = t.name ∧
      u.coefficient.value = x.value * t.coefficient.value ∧ u.coefficient ≠ .zero)
      e.terms r.terms := by
  obtain ⟨ts, hts, h⟩ := bind_eq_ok.1 h
  cases h
  refine ⟨rfl, (forall₂_of_mapM hts).imp fun t u hu => ?_⟩
  obtain ⟨y, hy, hz, rfl⟩ := Term.multiply_eq_ok.1 hu
  have hv : y.value = x.value * t.coefficient.value := (Fraction.value_mul hy).trans (mul_comm _ _)
  exact ⟨rfl, hv, Fraction.isZero_eq_false_iff.1 hz⟩

theorem isMultiple_of_multiply {e r : Equation} {x : Fraction} (h : e.multiply x = .ok r) :
    IsMultiple x.value e r := by
  obtain ⟨hp, hf⟩ := forall₂_of_multiply h
  exact ⟨hp, hf.imp fun t u hu => ⟨hu.1, hu.2.1⟩⟩

/-- A product with zero is not formed. -/
theorem value_ne_zero_of_multiply {e r : Equation} {x : Fraction} (h : e.multiply x = .ok r)
    (he : e.terms ≠ []) : x.value ≠ 0 := by
  obtain ⟨_, hf⟩ := forall₂_of_multiply h
  intro hx
  cases hts : e.terms with
  | nil => exact he hts
  | cons t ts =>
    rw [hts] at hf
    generalize r.terms = us at hf
    cases hf with
    | cons hu _ =>
      rw [hx, zero_mul, Fraction.value_eq_zero_iff] at hu
      exact hu.2.2 hu.2.1

theorem multiply_of_unscale {e r : Equation} {x c : Fraction} (hc : x.recip? = .ok (some c))
    (h : e.unscale x = .ok r) : e.multiply c = .ok r := by
  rwa [unscale, hc] at h

theorem isMultiple_of_unscale {e r : Equation} {x : Fraction} (h : e.unscale x = .ok r) :
    x ≠ .zero ∧ IsMultiple x.value⁻¹ e r := by
  obtain ⟨y?, hy, h⟩ := bind_eq_ok.1 h
  cases y? with
  | none => cases h
  | some y =>
    obtain ⟨hx, hv⟩ := Fraction.value_recip? hy
    rw [← hv]
    exact ⟨hx, isMultiple_of_multiply h⟩

theorem isMultiple_of_scale {e r : Equation} {x : Fraction} (h : e.scale x = .ok r) :
    x ≠ .zero ∧ IsMultiple x.value e r := by
  rw [scale] at h
  split at h
  · cases h
  · next hz => exact ⟨mt Fraction.isZero_iff.2 hz, isMultiple_of_multiply h⟩

theorem eq_gcd_of_foldlM_word {ns : List ℤ} {g g' : ℤ} (hg : 0 ≤ g)
    (h : ns.foldlM (fun g n => word (Int.gcd g n)) g = .ok g') :
    g' = GCDMonoid.gcd g (ns : Multiset ℤ).gcd := by
  induction ns generalizing g with
  | nil =>
    cases h
    rw [Multiset.coe_nil, Multiset.gcd_zero, gcd_zero_right, Int.normalize_of_nonneg hg]
  | cons n ns ih =>
    rw [List.foldlM_cons] at h
    obtain ⟨k, hk, h⟩ := bind_eq_ok.1 h
    have hk' : k = Int.gcd g n := by
      rw [word] at hk
      split at hk
      · cases hk; rfl
      · cases hk
    rw [ih (by omega) h, hk', Int.coe_gcd, gcd_assoc, ← Multiset.cons_coe, Multiset.gcd_cons]

theorem eq_gcd_of_gcdOf {ns : List ℤ} {g : ℤ} (h : gcdOf ns = .ok g) :
    g = (ns : Multiset ℤ).gcd := by
  rw [eq_gcd_of_foldlM_word le_rfl h, gcd_zero_left, Multiset.normalize_gcd]

theorem gcdOf_nonneg {ns : List ℤ} {g : ℤ} (h : gcdOf ns = .ok g) : 0 ≤ g := by
  rw [eq_gcd_of_gcdOf h]
  exact Int.nonneg_of_normalize_eq_self (Multiset.normalize_gcd _)

theorem gcdOf_ne_zero {ns : List ℤ} {g n : ℤ} (h : gcdOf ns = .ok g) (hn : n ∈ ns) (h0 : n ≠ 0) :
    g ≠ 0 := by
  rw [eq_gcd_of_gcdOf h, Multiset.gcd_ne_zero_iff]
  exact ⟨n, Multiset.mem_coe.2 hn, h0⟩

theorem fitsWord_of_gcdOf {ns : List ℤ} {g : ℤ} (h : gcdOf ns = .ok g) : FitsWord g := by
  have key {k : ℤ} (hk : FitsWord k)
      (h : ns.foldlM (fun g n => word (Int.gcd g n)) k = .ok g) : FitsWord g := by
    clear * - hk h
    induction ns generalizing k with
    | nil => cases h; exact hk
    | cons n ns ih =>
      rw [List.foldlM_cons] at h
      obtain ⟨m, hm, h⟩ := bind_eq_ok.1 h
      rw [word] at hm
      split at hm
      · next hw => cases hm; exact ih hw h
      · cases hm
  exact key (by decide) h

/-- Simplifying multiplies through by a positive number. -/
theorem isMultiple_of_simplify {e r : Equation} (h : e.simplify = .ok r) :
    ∃ q : ℚ, 0 < q ∧ IsMultiple q e r := by
  rw [simplify] at h
  split at h
  · cases h
    exact ⟨1, one_pos, .refl _⟩
  · next he =>
    obtain ⟨n, hn, h⟩ := bind_eq_ok.1 h
    obtain ⟨d, hd, h⟩ := bind_eq_ok.1 h
    split at h
    · next x hx =>
      split at h
      · cases h
        exact ⟨1, one_pos, .refl _⟩
      · have hx0 := value_ne_zero_of_multiply h fun hts => he (by simp [hts])
        refine ⟨x.value, lt_of_le_of_ne ?_ hx0.symm, isMultiple_of_multiply h⟩
        by_cases hn0 : n = 0
        · rw [hn0, Fraction.ofParts, if_neg (not_not.2 rfl)] at hx
          split at hx
          · cases hx; exact Fraction.value_zero.ge
          · cases hx
        · rw [Fraction.ofParts_eq_ofRat (fitsWord_of_gcdOf hd) (fitsWord_of_gcdOf hn) hn0] at hx
          rw [Fraction.value_of_ofRat hx]
          exact div_nonneg (Int.cast_nonneg (gcdOf_nonneg hd)) (Int.cast_nonneg (gcdOf_nonneg hn))
    · cases h
    · cases h

theorem takeOut?_eq_some {n : Name} {ts us : List Term} {t : Term}
    (h : takeOut? n ts = some (t, us)) :
    ∃ l r, ts = l ++ t :: r ∧ us = l ++ r ∧ t.name = n := by
  induction ts generalizing us with
  | nil => cases h
  | cons u ts ih =>
    rw [takeOut?] at h
    split at h
    · next hn =>
      cases h
      exact ⟨[], ts, rfl, rfl, hn⟩
    · obtain ⟨⟨w, ws⟩, hw, h⟩ := Option.map_eq_some_iff.1 h
      cases h
      obtain ⟨l, r, rfl, rfl, hn⟩ := ih hw
      exact ⟨u :: l, r, rfl, rfl, hn⟩

theorem takeOut?_eq_none {n : Name} {ts : List Term} (h : takeOut? n ts = none) :
    n ∉ ts.map Term.name := by
  induction ts with
  | nil => simp
  | cons u ts ih =>
    rw [takeOut?] at h
    split at h
    · cases h
    · next hn => simpa [Ne.symm hn] using ih (Option.map_eq_none_iff.1 h)

/-- The terms before a substitution, the constant that it adds to the others, and the sum that it
simplifies. -/
theorem substitute?_eq_some {e r : Equation} {n : Name} {x : Fraction}
    (h : e.substitute? n x = .ok (some r)) :
    ∃ (left right : List Term) (t : Term) (y : Fraction) (sum : Equation),
      e.terms = left ++ t :: right ∧ t.name = n ∧ t.coefficient.mul x = .ok y ∧
        addTerm ⟨e.policy, left ++ right⟩ (.constant y) = .ok sum ∧ sum.simplify = .ok r := by
  rw [substitute?] at h
  split at h
  · cases h
  · next t us ht =>
    obtain ⟨left, right, he, rfl, hn⟩ := takeOut?_eq_some ht
    obtain ⟨y, hy, h⟩ := bind_eq_ok.1 h
    obtain ⟨sum, hs, h⟩ := bind_eq_ok.1 h
    obtain ⟨r', hr, h⟩ := bind_eq_ok.1 h
    cases h
    exact ⟨left, right, t, y, sum, he, hn, hy, hs, hr⟩

theorem substitute?_eq_none {e : Equation} {n : Name} {x : Fraction}
    (h : e.substitute? n x = .ok none) : n ∉ e.terms.map Term.name := by
  rw [substitute?] at h
  split at h
  · next ht => exact takeOut?_eq_none ht
  · obtain ⟨_, _, h⟩ := bind_eq_ok.1 h
    obtain ⟨_, _, h⟩ := bind_eq_ok.1 h
    obtain ⟨_, _, h⟩ := bind_eq_ok.1 h
    cases h

end Equation
end ExactLinear
