import ExactLinear.Equation.Canonical
import ExactLinear.Proofs.Fraction.Exact

/-! # Policies as orders

Every built-in policy is a total order on terms in which only equal terms compare equal. Any policy
whose comparison of variable terms is a strict weak order is one on all terms, and sorts them.
-/

namespace ExactLinear
open Std (TransCmp OrientedCmp LawfulEqCmp TransOrd OrientedOrd LawfulEqOrd ReflOrd ReflCmp)

namespace Name

theorem eq_blank_of_isBlank {n : Name} (h : n.isBlank) : n = blank := by
  rcases n with ⟨text, ht⟩
  have he : text = "" := by simpa [isBlank] using h
  subst he
  rfl

instance : TransCmp Name.compare where
  eq_swap := OrientedOrd.eq_swap (α := String)
  isLE_trans := TransOrd.isLE_trans (α := String)

instance : LawfulEqCmp Name.compare where
  compare_self := ReflOrd.compare_self (α := String)
  eq_of_compare {a b} h := by
    have ht : a.text = b.text := LawfulEqOrd.eq_of_compare h
    rcases a with ⟨_, _⟩
    rcases b with ⟨_, _⟩
    congr

end Name

namespace Fraction

theorem scale_pos (a : Fraction) : (0 : ℚ) < a.scale := by
  unfold scale isZero
  split
  · norm_num
  · next h =>
    rw [decide_eq_true_eq] at h
    exact_mod_cast Nat.pos_of_ne_zero h

theorem value_eq_div_scale (a : Fraction) : a.value = a.numerator / a.scale := by
  by_cases h : a = zero
  · rw [h, value_zero]
    simp [zero]
  · rw [value_eq_div, scale, isZero_eq_false_iff.2 h]
    rfl

theorem isLE_compare {a b : Fraction} : (a.compare b).isLE ↔ a.value ≤ b.value := by
  rw [compare, value_eq_div_scale, value_eq_div_scale, div_le_div_iff₀ a.scale_pos b.scale_pos]
  rw [Int.isLE_compare]
  exact_mod_cast Iff.rfl

instance : TransCmp Fraction.compare where
  eq_swap := OrientedOrd.eq_swap (α := ℤ)
  isLE_trans h k := isLE_compare.2 ((isLE_compare.1 h).trans (isLE_compare.1 k))

instance : LawfulEqCmp Fraction.compare where
  compare_self := ReflOrd.compare_self (α := ℤ)
  eq_of_compare {a b} h := by
    have hba : b.compare a = .eq := OrientedCmp.eq_symm h
    have h1 := isLE_compare.1 (Ordering.isLE_of_eq_eq h)
    have h2 := isLE_compare.1 (Ordering.isLE_of_eq_eq hba)
    exact value_injective (le_antisymm h1 h2)

end Fraction

namespace Term

theorem compare_eq_compareLex : Term.compare =
    compareLex (fun a b => a.name.compare b.name)
      (fun a b => a.coefficient.compare b.coefficient) := rfl

/-- A comparison of an attribute is as transitive as that of the attribute's values. -/
theorem transCmp_comap {α β : Type} (cmp : β → β → Ordering) [TransCmp cmp] (f : α → β) :
    TransCmp fun a b => cmp (f a) (f b) where
  eq_swap := OrientedCmp.eq_swap
  isLE_trans := TransCmp.isLE_trans

theorem compare_of_name_ne {a b : Term} (h : a.name ≠ b.name) :
    a.compare b = a.name.compare b.name := by
  have hn : a.name.compare b.name ≠ .eq := fun he => h (LawfulEqCmp.eq_of_compare he)
  rw [compare]
  cases hc : a.name.compare b.name with
  | eq => exact absurd hc hn
  | lt => rfl
  | gt => rfl

instance : TransCmp Term.compare := by
  rw [compare_eq_compareLex]
  have := transCmp_comap Name.compare Term.name
  have := transCmp_comap Fraction.compare Term.coefficient
  infer_instance

instance : LawfulEqCmp Term.compare where
  eq_of_compare {a b} h := by
    obtain ⟨hn, hc⟩ := Ordering.then_eq_eq.1 h
    rcases a with ⟨_, _⟩
    rcases b with ⟨_, _⟩
    have h1 := LawfulEqCmp.eq_of_compare hn
    have h2 := LawfulEqCmp.eq_of_compare hc
    congr

end Term

theorem lookup_cons_eq {α β : Type} [BEq α] [LawfulBEq α] [DecidableEq α] (a : α) (e : α × β)
    (es : List (α × β)) : (e :: es).lookup a = if a = e.1 then some e.2 else es.lookup a := by
  rw [List.lookup_cons]
  by_cases h : a = e.1
  · simp [h]
  · have hb : (a == e.1) = false := by simpa using h
    simp [h, hb]

/-- There is one way to list the same elements in a strict order. -/
theorem eq_of_perm_of_pairwise {α : Type} {cmp : α → α → Ordering} [OrientedCmp cmp]
    {xs ys : List α} (h : xs.Perm ys) (hx : xs.Pairwise fun a b => cmp a b = .lt)
    (hy : ys.Pairwise fun a b => cmp a b = .lt) : xs = ys := by
  refine h.eq_of_pairwise (fun a b _ _ hab hba => ?_) hx hy
  exact absurd hba (OrientedCmp.not_lt_of_lt hab)

/-- A wider condition counts more elements if one of them does not meet the narrower one. -/
theorem countP_lt_countP {α : Type} {f g : α → Bool} {xs : List α} {x : α} (hx : x ∈ xs)
    (h : ∀ y ∈ xs, f y → g y) (hf : f x = false) (hg : g x = true) : xs.countP f < xs.countP g := by
  obtain ⟨l, r, rfl⟩ := List.append_of_mem hx
  have hl := List.countP_mono_left fun y hy => h y (List.mem_append_left _ hy)
  have hr := List.countP_mono_left fun y hy =>
    h y (List.mem_append_right _ (List.mem_cons_of_mem _ hy))
  simp only [List.countP_append, List.countP_cons, hf, hg, if_true, Bool.false_eq_true, if_false]
  omega

namespace Policy

/-- Priorities come first, higher ones before lower ones and before none. -/
theorem compareVariables_byPriority (p : Priorities) :
    (byPriority p).compareVariables =
      compareLex (fun a b => Ord.compare (p.get? b.name.text) (p.get? a.name.text))
        fun a b => b.compare a := by
  funext a b
  cases ha : p.get? a.name.text <;> cases hb : p.get? b.name.text <;>
    simp only [compareVariables, compareLex, ha, hb] <;> rfl

theorem isLawful_of_isBuiltIn {p : Policy} (hp : p.isBuiltIn) : p.IsLawful := by
  cases p with
  | descending => exact (inferInstance : TransCmp fun a b => Term.compare b a)
  | alphabetical => exact (inferInstance : TransCmp Term.compare)
  | byPriority p =>
    rw [IsLawful, compareVariables_byPriority]
    have := Term.transCmp_comap (fun x y : Option ℤ => Ord.compare y x)
      fun t : Term => p.get? t.name.text
    infer_instance
  | custom _ _ => cases hp

theorem eq_of_compareVariables {p : Policy} (hp : p.isBuiltIn) {a b : Term}
    (h : p.compareVariables a b = .eq) : a = b := by
  cases p with
  | descending =>
    have hba : Term.compare b a = .eq := h
    exact (LawfulEqCmp.eq_of_compare hba).symm
  | alphabetical =>
    have hab : Term.compare a b = .eq := h
    exact LawfulEqCmp.eq_of_compare hab
  | byPriority p =>
    rw [compareVariables_byPriority] at h
    exact (LawfulEqCmp.eq_of_compare (Ordering.then_eq_eq.1 h).2).symm
  | custom _ _ => cases hp

theorem transCmp_compare {p : Policy} (hp : p.IsLawful) : TransCmp p.compare where
  eq_swap {a b} := by
    have : TransCmp p.compareVariables := hp
    cases ha : a.isConstant <;> cases hb : b.isConstant <;> simp only [compare, ha, hb]
    · exact OrientedCmp.eq_swap
    · rfl
    · rfl
    · exact OrientedCmp.eq_swap
  isLE_trans {a b c} h k := by
    have : TransCmp p.compareVariables := hp
    cases ha : a.isConstant <;> cases hb : b.isConstant <;> cases hc : c.isConstant <;>
      simp only [compare, ha, hb, hc] at h k ⊢
    · exact TransCmp.isLE_trans h k
    · rfl
    · cases k
    · rfl
    · cases h
    · cases h
    · cases k
    · exact TransCmp.isLE_trans h k

theorem eq_of_compare {p : Policy} (hp : p.isBuiltIn) {a b : Term} (h : p.compare a b = .eq) :
    a = b := by
  cases ha : a.isConstant <;> cases hb : b.isConstant <;> simp only [compare, ha, hb] at h
  · exact eq_of_compareVariables hp h
  · cases h
  · cases h
  · rcases a with ⟨x, m⟩
    rcases b with ⟨y, n⟩
    have hm := Name.eq_blank_of_isBlank ha
    have hn := Name.eq_blank_of_isBlank hb
    have hx := LawfulEqCmp.eq_of_compare h
    dsimp only at hm hn hx
    rw [hm, hn, hx]

theorem pairwise_sort {p : Policy} (hp : p.IsLawful) (ts : List Term) :
    (p.sort ts).Pairwise fun t u => (p.compare t u).isLE := by
  have := transCmp_compare hp
  exact pairwise_sortBy p.compare ts

theorem sort_perm (p : Policy) (ts : List Term) : (p.sort ts).Perm ts := sortBy_perm p.compare ts

/-- The comparison of two names, each with the coefficient one. -/
def compareNames (p : Policy) (m n : Name) : Ordering := p.compare ⟨.one, m⟩ ⟨.one, n⟩

/-- The built-in policies look at the coefficients of one name only. -/
theorem compare_eq_compareNames {p : Policy} (hp : p.isBuiltIn) {t u : Term}
    (h : t.name ≠ u.name) : p.compare t u = p.compareNames t.name u.name := by
  have h1 := Term.compare_of_name_ne h
  have h2 := Term.compare_of_name_ne h.symm
  have h3 := Term.compare_of_name_ne (a := ⟨.one, t.name⟩) (b := ⟨.one, u.name⟩) h
  have h4 := Term.compare_of_name_ne (a := ⟨.one, u.name⟩) (b := ⟨.one, t.name⟩) h.symm
  cases ht : t.isConstant <;> cases hu : u.isConstant <;>
    simp only [compareNames, compare, Term.isConstant] at ht hu ⊢ <;> simp only [ht, hu]
  · cases p with
    | descending => simp only [compareVariables, h2, h4]
    | alphabetical => simp only [compareVariables, h1, h3]
    | byPriority p => simp only [compareVariables, h2, h4]
    | custom _ _ => cases hp
  · exact absurd ((Name.eq_blank_of_isBlank ht).trans (Name.eq_blank_of_isBlank hu).symm) h

/-- Terms of different names are placed by their names alone, and never alike. -/
structure OrdersNames (p : Policy) : Prop where
  isLawful : p.IsLawful
  compare_eq : ∀ t u : Term, t.name ≠ u.name → p.compare t u = p.compareNames t.name u.name
  compare_ne_eq : ∀ t u : Term, t.name ≠ u.name → p.compare t u ≠ .eq

theorem ordersNames_of_isBuiltIn {p : Policy} (hp : p.isBuiltIn) : p.OrdersNames := by
  refine ⟨isLawful_of_isBuiltIn hp, fun t u => compare_eq_compareNames hp, fun t u hn he => ?_⟩
  exact hn (congrArg Term.name (eq_of_compare hp he))

/-- A comparison of names without ties orders them, whatever the coefficients. -/
theorem ordersNames_custom (label : String) (cmp : Name → Name → Ordering) [TransCmp cmp]
    [LawfulEqCmp cmp] : (custom label fun t u => cmp t.name u.name).OrdersNames := by
  have hcompare (t u : Term) (hn : t.name ≠ u.name) :
      (custom label fun t u => cmp t.name u.name).compare t u =
        if t.isConstant then .gt else if u.isConstant then .lt else cmp t.name u.name := by
    cases ht : t.isConstant <;> cases hu : u.isConstant <;> simp [compare, compareVariables, ht, hu]
    exact absurd ((Name.eq_blank_of_isBlank ht).trans (Name.eq_blank_of_isBlank hu).symm) hn
  refine ⟨Term.transCmp_comap cmp Term.name, fun t u hn => ?_, fun t u hn he => ?_⟩
  · rw [compareNames, hcompare t u hn, hcompare ⟨.one, t.name⟩ ⟨.one, u.name⟩ hn]
    rfl
  · rw [hcompare t u hn] at he
    split_ifs at he
    exact hn (LawfulEqCmp.eq_of_compare he)

theorem OrdersNames.transCmp_compareNames {p : Policy} (hp : p.OrdersNames) :
    TransCmp p.compareNames := by
  have := transCmp_compare hp.isLawful
  exact Term.transCmp_comap p.compare (Term.mk .one)

def rank (p : Policy) (ns : List Name) (n : Name) : ℕ :=
  ns.countP fun m => p.compareNames m n = .lt

theorem OrdersNames.rank_lt_rank {p : Policy} (hp : p.OrdersNames) {ns : List Name} {m n : Name}
    (hm : m ∈ ns) (h : p.compareNames m n = .lt) : p.rank ns m < p.rank ns n := by
  have := hp.transCmp_compareNames
  have hself : p.compareNames m m = .eq := ReflCmp.compare_self
  refine countP_lt_countP hm (fun k _ hk => ?_) (by simp [hself]) (by simp [h])
  rw [decide_eq_true_eq] at hk ⊢
  exact TransCmp.lt_trans hk h

end Policy
end ExactLinear
