import ExactLinear.LinearSystem
import ExactLinear.Proofs.Policy.Order

/-! # The order of equations

Equations are compared by the first pair of terms that differ, and else by their numbers of terms.
That is a total order of the lists of terms, in which a proper prefix is smaller, so equations have
one sorted arrangement, whatever the order in which they came.
-/

namespace ExactLinear
open Std (TransCmp OrientedCmp LawfulEqCmp ReflCmp)

section

variable {α : Type} {cmp : α → α → Ordering}

/-- The first pair that differs decides, and else the length. -/
theorem compareLex_eq_zipWith (xs ys : List α) : xs.compareLex cmp ys =
    ((List.zipWith cmp xs ys).foldr Ordering.then .eq).then (compare xs.length ys.length) := by
  induction xs generalizing ys with
  | nil =>
    cases ys with
    | nil => simp [List.compareLex_nil_nil]
    | cons y ys => simp [List.compareLex_nil_cons, Nat.compare_eq_lt.2]
  | cons x xs ih =>
    cases ys with
    | nil => simp [List.compareLex_cons_nil, Nat.compare_eq_gt.2]
    | cons y ys => simp [List.compareLex_cons_cons, ih, Ordering.then_assoc, Nat.compare_eq_ite_lt]

theorem zipWith_append_self [ReflCmp cmp] (xs ys : List α) :
    (List.zipWith cmp xs (xs ++ ys)).foldr Ordering.then .eq = .eq := by
  induction xs with
  | nil => rfl
  | cons x xs ih => simp [ReflCmp.compare_self, ih]

theorem compareLex_of_isPrefix [ReflCmp cmp] {xs ys : List α} (h : xs <+: ys) (hne : xs ≠ ys) :
    xs.compareLex cmp ys = .lt := by
  obtain ⟨zs, rfl⟩ := h
  have hlen : xs.length < (xs ++ zs).length := by
    cases zs with
    | nil => simp at hne
    | cons z zs => simp
  rw [compareLex_eq_zipWith, zipWith_append_self, Nat.compare_eq_lt.2 hlen]
  rfl

end

namespace Equation

instance : TransCmp Equation.compare := Term.transCmp_comap (List.compareLex Term.compare) terms

theorem compare_eq_iff {a b : Equation} : a.compare b = .eq ↔ a == b := by
  rw [show (a == b) = decide (a.terms = b.terms) from rfl, decide_eq_true_iff]
  change a.terms.compareLex Term.compare b.terms = .eq ↔ _
  exact LawfulEqCmp.compare_eq_iff_eq

theorem isLE_total (a b : Equation) : (a.compare b).isLE ∨ (b.compare a).isLE := by
  have h : b.compare a = (a.compare b).swap := OrientedCmp.eq_swap
  cases hc : a.compare b <;> simp [h, hc]

theorem compare_of_isPrefix {a b : Equation} (h : a.terms <+: b.terms) (hne : a.terms ≠ b.terms) :
    a.compare b = .lt := compareLex_of_isPrefix h hne

end Equation

namespace LinearSystem

theorem sorted_perm (s : LinearSystem) : s.sorted.equations.Perm s.equations := sortBy_perm _ _

theorem pairwise_sorted (s : LinearSystem) :
    s.sorted.equations.Pairwise fun a b => (b.compare a).isLE := by
  have : TransCmp fun a b : Equation => b.compare a := .opposite
  exact pairwise_sortBy (fun a b : Equation => b.compare a) s.equations

/-- Equations with the same terms in any order have one arrangement that does not increase. -/
theorem terms_eq_of_pairwise {as bs : List Equation}
    (h : (as.map Equation.terms).Perm (bs.map Equation.terms))
    (ha : as.Pairwise fun a b => (b.compare a).isLE)
    (hb : bs.Pairwise fun a b => (b.compare a).isLE) :
    as.map Equation.terms = bs.map Equation.terms := by
  let le (ts us : List Term) : Prop := (us.compareLex Term.compare ts).isLE
  have hleft : (as.map Equation.terms).Pairwise le := List.pairwise_map.2 ha
  have hright : (bs.map Equation.terms).Pairwise le := List.pairwise_map.2 hb
  apply h.eq_of_pairwise _ hleft hright
  intro ts us _ _ hle hge
  exact (LawfulEqCmp.eq_of_compare (OrientedCmp.isLE_antisymm hle hge)).symm

theorem equations_append (s : LinearSystem) (es : List Equation) :
    (s.append es).equations = s.equations ++ es.map fun e => e.withPolicy s.policy := by
  induction es generalizing s with
  | nil => simp [append]
  | cons e es ih =>
    change ((s.push e).append es).equations = _
    simp [ih, push]

/-- Equations are totally ordered by their terms, with a proper prefix before its extensions, and
only those with the same terms compare equal. Sorting rearranges the equations so that they do not
increase. What terms it comes to is the same for systems with the same terms in any order, among
them those to which the same equations were added in any order. -/
theorem terms_sorted_eq_of_perm :
    (∀ a b : Equation, (a.compare b = .eq ↔ a == b) ∧ b.compare a = (a.compare b).swap ∧
        ((a.compare b).isLE ∨ (b.compare a).isLE) ∧
        ((a.compare b).isLE → (b.compare a).isLE → a == b) ∧
        (a.terms <+: b.terms → a.terms ≠ b.terms → a.compare b = .lt)) ∧
      (∀ a b c : Equation, (a.compare b).isLE → (b.compare c).isLE → (a.compare c).isLE) ∧
      ∀ s : LinearSystem, s.sorted.equations.Perm s.equations ∧
        (s.sorted.equations.Pairwise fun a b => (b.compare a).isLE) ∧
        (∀ t : LinearSystem,
          (t.equations.map Equation.terms).Perm (s.equations.map Equation.terms) →
            t.sorted.equations.map Equation.terms = s.sorted.equations.map Equation.terms) ∧
        ∀ es es' : List Equation, es.Perm es' →
          (s.append es).sorted.equations.map Equation.terms =
            (s.append es').sorted.equations.map Equation.terms := by
  have canonical (s t : LinearSystem)
      (h : (t.equations.map Equation.terms).Perm (s.equations.map Equation.terms)) :
      t.sorted.equations.map Equation.terms = s.sorted.equations.map Equation.terms := by
    apply terms_eq_of_pairwise _ t.pairwise_sorted s.pairwise_sorted
    exact ((t.sorted_perm.map _).trans h).trans (s.sorted_perm.map _).symm
  refine ⟨?_, fun a b c => TransCmp.isLE_trans, ?_⟩
  · intro a b
    refine ⟨Equation.compare_eq_iff, OrientedCmp.eq_swap, Equation.isLE_total a b, ?_,
      Equation.compare_of_isPrefix⟩
    intro hle hge
    exact Equation.compare_eq_iff.1 (OrientedCmp.isLE_antisymm hle hge)
  · intro s
    refine ⟨s.sorted_perm, s.pairwise_sorted, canonical s, ?_⟩
    intro es es' h
    apply canonical
    rw [equations_append, equations_append]
    exact ((h.map _).append_left _).map _

/-- The equation `y + x = 0` is greater than `y = 0`, and comes first whichever is added first. -/
theorem terms_sorted_eq_of_perm_prefix :
    ∃ y yx : Equation, y.terms <+: yx.terms ∧ y.terms ≠ yx.terms ∧ y.compare yx = .lt ∧
      (append {} [y, yx]).sorted.equations.map Equation.terms = [yx.terms, y.terms] ∧
      (append {} [yx, y]).sorted.equations.map Equation.terms = [yx.terms, y.terms] := by
  obtain ⟨horder, _, hsort⟩ := terms_sorted_eq_of_perm
  let y : Equation := ⟨.descending, [⟨.one, .ofText "y"⟩]⟩
  let yx : Equation := ⟨.descending, [⟨.one, .ofText "y"⟩, ⟨.one, .ofText "x"⟩]⟩
  have hprefix : y.terms <+: yx.terms := ⟨[⟨.one, .ofText "x"⟩], rfl⟩
  have hne : y.terms ≠ yx.terms := by simp [y, yx]
  have hsorted : (append {} [y, yx]).sorted.equations.map Equation.terms =
      [yx.terms, y.terms] := by cbv
  refine ⟨y, yx, hprefix, hne, (horder y yx).2.2.2.2 hprefix hne, hsorted, ?_⟩
  rw [← hsorted]
  exact (hsort {}).2.2.2 [yx, y] [y, yx] (.swap y yx [])

end LinearSystem
end ExactLinear
