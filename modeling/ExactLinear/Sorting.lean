/-! # Stable sorting

Elements go before the first one that a comparison does not place ahead of them, so those that
compare equal stay in their order. The recursion is on the list, which lets closed instances be
evaluated.
-/

namespace ExactLinear

variable {α : Type}

/-- Places an element into a sorted list, before its equals. -/
def insertBy (cmp : α → α → Ordering) (x : α) : List α → List α
  | [] => [x]
  | y :: ys => if (cmp x y).isLE then x :: y :: ys else y :: insertBy cmp x ys

/-- The stable sort by a comparison. -/
def sortBy (cmp : α → α → Ordering) (xs : List α) : List α := xs.foldr (insertBy cmp) []

theorem insertBy_perm (cmp : α → α → Ordering) (x : α) (ys : List α) :
    (insertBy cmp x ys).Perm (x :: ys) := by
  induction ys with
  | nil => exact .refl _
  | cons y ys ih =>
    rw [insertBy]
    split
    · exact .refl _
    · exact (ih.cons y).trans (.swap x y ys)

theorem sortBy_perm (cmp : α → α → Ordering) (xs : List α) : (sortBy cmp xs).Perm xs := by
  induction xs with
  | nil => exact .refl _
  | cons x xs ih => exact (insertBy_perm cmp x _).trans (ih.cons x)

theorem pairwise_insertBy {cmp : α → α → Ordering} [Std.TransCmp cmp] {x : α} {ys : List α}
    (h : ys.Pairwise fun a b => (cmp a b).isLE) :
    (insertBy cmp x ys).Pairwise fun a b => (cmp a b).isLE := by
  induction ys with
  | nil => simp [insertBy]
  | cons y ys ih =>
    obtain ⟨hy, hs⟩ := List.pairwise_cons.1 h
    rw [insertBy]
    split
    · next hxy =>
      refine List.pairwise_cons.2 ⟨fun z hz => ?_, h⟩
      rcases List.mem_cons.1 hz with rfl | hz
      · exact hxy
      · exact Std.TransCmp.isLE_trans hxy (hy z hz)
    · next hxy =>
      refine List.pairwise_cons.2 ⟨fun z hz => ?_, ih hs⟩
      rcases List.mem_cons.1 ((insertBy_perm cmp x ys).mem_iff.1 hz) with rfl | hz
      · have hyx := Std.OrientedCmp.lt_of_not_isLE hxy
        exact Ordering.isLE_of_eq_lt hyx
      · exact hy z hz

theorem pairwise_sortBy (cmp : α → α → Ordering) [Std.TransCmp cmp] (xs : List α) :
    (sortBy cmp xs).Pairwise fun a b => (cmp a b).isLE := by
  induction xs with
  | nil => exact .nil
  | cons x xs ih => exact pairwise_insertBy ih

end ExactLinear
