import Mathlib.Data.List.Induction
import ExactLinear.Proofs.Equation.Tidy

/-! # Where policies place terms

A built-in policy leaves one way to sort terms, and any weak order of the variables becomes one of
all terms with the constants last. A policy of listed texts goes by the last place of a text in the
list, then by descending names.
-/

namespace ExactLinear
open Std (TransCmp ReflCmp)

/-- The last place of a text in a list. -/
def IsLastAt (texts : List String) (s : String) (i : ℕ) : Prop :=
  texts[i]? = some s ∧ ∀ j, i < j → texts[j]? ≠ some s

section

variable {texts : List String} {s t : String} {i j : ℕ}

theorem IsLastAt.mem (h : IsLastAt texts s i) : s ∈ texts := List.mem_of_getElem? h.1

theorem IsLastAt.text_eq (h : IsLastAt texts s i) (k : IsLastAt texts t i) : s = t :=
  Option.some.inj (h.1.symm.trans k.1)

/-- A text at the end of the list is last there, and the others keep their places. -/
theorem isLastAt_concat :
    IsLastAt (texts ++ [t]) s i ↔ if s = t then i = texts.length else IsLastAt texts s i := by
  have hend : (texts ++ [t])[texts.length]? = some t := List.getElem?_concat_length
  split
  · next h =>
    subst h
    constructor
    · intro h
      have hlt := (List.getElem?_eq_some_iff.1 h.1).1
      rw [List.length_append, List.length_singleton] at hlt
      by_contra hne
      exact h.2 texts.length (by omega) hend
    · rintro rfl
      refine ⟨hend, fun j hj hs => ?_⟩
      have hlt := (List.getElem?_eq_some_iff.1 hs).1
      rw [List.length_append, List.length_singleton] at hlt
      omega
  · next hne =>
    have hsame (j : ℕ) : (texts ++ [t])[j]? = some s ↔ texts[j]? = some s := by
      rw [List.getElem?_append]
      split
      · rfl
      · next hj =>
        rw [List.getElem?_eq_none (by omega : texts.length ≤ j), List.getElem?_singleton]
        split <;> simp [Ne.symm hne]
    simp only [IsLastAt, ne_eq, hsame]

theorem exists_isLastAt : (∃ i, IsLastAt texts s i) ↔ s ∈ texts := by
  induction texts using List.reverseRecOn with
  | nil => simp [IsLastAt]
  | append_singleton texts t ih =>
    simp only [isLastAt_concat, List.mem_append, List.mem_singleton]
    by_cases h : s = t
    · simp [h]
    · simpa [h] using ih

end

namespace Priorities

theorem lookup_set (s : String) (x : ℤ) (es : List (String × ℤ)) (t : String) :
    (set s x es).lookup t = if t = s then some x else es.lookup t := by
  induction es with
  | nil => rw [set, lookup_cons_eq]
  | cons e es ih =>
    rw [set]
    split
    · next he =>
      rw [lookup_cons_eq, lookup_cons_eq, he]
      split <;> rfl
    · next he =>
      rw [lookup_cons_eq, lookup_cons_eq, ih]
      by_cases h : t = e.1
      · rw [if_pos h, if_pos h, if_neg (h ▸ he)]
      · rw [if_neg h, if_neg h]

theorem get?_ofList_concat (es : List (String × ℤ)) (e : String × ℤ) (t : String) :
    (ofList (es ++ [e])).get? t = if t = e.1 then some e.2 else (ofList es).get? t := by
  rw [ofList, List.foldl_concat]
  exact lookup_set e.1 e.2 _ t

/-- The earlier the last place of a text in the list, the higher its priority. -/
theorem get?_ofOrder {texts : List String} {s : String} {x : ℤ} :
    (ofOrder texts).get? s = some x ↔
      ∃ i, IsLastAt texts s i ∧ x = (texts.length : ℤ) - i := by
  have key (n : ℤ) : (ofList (texts.zipIdx.map fun e => (e.1, n - e.2))).get? s = some x ↔
      ∃ i, IsLastAt texts s i ∧ x = n - i := by
    induction texts using List.reverseRecOn with
    | nil => simp [ofList, get?, IsLastAt]
    | append_singleton texts t ih =>
      simp only [List.zipIdx_append, List.zipIdx_singleton, List.map_append, List.map_cons,
        List.map_nil, get?_ofList_concat, isLastAt_concat]
      split
      · simp [eq_comm]
      · exact ih
  exact key _

theorem get?_ofOrder_eq_none {texts : List String} {s : String} :
    (ofOrder texts).get? s = none ↔ s ∉ texts := by
  rw [← exists_isLastAt, Option.eq_none_iff_forall_ne_some]
  constructor
  · rintro h ⟨i, hi⟩
    exact h _ (get?_ofOrder.2 ⟨i, hi, rfl⟩)
  · intro h x hx
    obtain ⟨i, hi, _⟩ := get?_ofOrder.1 hx
    exact h ⟨i, hi⟩

end Priorities

theorem Name.compare_eq_lt {m n : Name} : m.compare n = .lt ↔ m.text < n.text :=
  compareOfLessAndEq_eq_lt

theorem Name.text_injective {m n : Name} (h : m.text = n.text) : m = n := by
  rcases m with ⟨_, _⟩
  rcases n with ⟨_, _⟩
  congr

/-- A list of texts places the first term before the second. -/
inductive Precedes (texts : List String) (t u : Term) : Prop
  /-- Both variables are listed, and the last place of the first is earlier. -/
  | listed (ht : t.isConstant = false) (hu : u.isConstant = false) {i j : ℕ}
      (hi : IsLastAt texts t.name.text i) (hj : IsLastAt texts u.name.text j) (hlt : i < j)
  /-- Only the first variable is listed. -/
  | unlisted (ht : t.isConstant = false) (hu : u.isConstant = false)
      (hi : t.name.text ∈ texts) (hj : u.name.text ∉ texts)
  /-- Neither variable is listed, and the name of the first is greater by code points. -/
  | descending (ht : t.isConstant = false) (hu : u.isConstant = false)
      (hi : t.name.text ∉ texts) (hj : u.name.text ∉ texts) (hlt : u.name.text < t.name.text)
  | constant (ht : t.isConstant = false) (hu : u.isConstant)

namespace Policy

def PlacesConstantsLast (p : Policy) : Prop :=
  ∀ t u : Term, t.isConstant = false → u.isConstant → p.compare t u = .lt

theorem placesConstantsLast (p : Policy) : p.PlacesConstantsLast := by
  intro t u ht hu
  simp only [compare, ht, hu]

theorem compare_eq_iff {p : Policy} (hp : p.isBuiltIn) {a b : Term} :
    p.compare a b = .eq ↔ a = b := by
  have := transCmp_compare (isLawful_of_isBuiltIn hp)
  refine ⟨eq_of_compare hp, ?_⟩
  rintro rfl
  exact ReflCmp.compare_self

theorem sort_eq_of_perm {p : Policy} (hp : p.isBuiltIn) {ts us : List Term} (h : ts.Perm us) :
    p.sort ts = p.sort us := by
  have hlawful := isLawful_of_isBuiltIn hp
  have := transCmp_compare hlawful
  have hperm := ((p.sort_perm ts).trans h).trans (p.sort_perm us).symm
  refine hperm.eq_of_pairwise (fun a b _ _ hab hba => ?_) (pairwise_sort hlawful ts)
    (pairwise_sort hlawful us)
  exact eq_of_compare hp (Std.OrientedCmp.isLE_antisymm hab hba)

theorem precedes_of_compare {texts : List String} {t u : Term} (hn : t.name ≠ u.name)
    (h : (byOrder texts).compare t u = .lt) : Precedes texts t u := by
  cases ht : t.isConstant with
  | true =>
    exfalso
    cases hu : u.isConstant with
    | true => exact hn ((Name.eq_blank_of_isBlank ht).trans (Name.eq_blank_of_isBlank hu).symm)
    | false => simp [compare, ht, hu] at h
  | false =>
    cases hu : u.isConstant with
    | true => exact .constant ht hu
    | false =>
      simp only [compare, ht, hu, byOrder, compareVariables] at h
      have hdesc (h : u.compare t = .lt) : u.name.text < t.name.text := by
        rw [Term.compare_of_name_ne hn.symm] at h
        exact Name.compare_eq_lt.1 h
      split at h
      · next x y hx hy =>
        obtain ⟨i, hi, rfl⟩ := Priorities.get?_ofOrder.1 hx
        obtain ⟨j, hj, rfl⟩ := Priorities.get?_ofOrder.1 hy
        have hlt : i < j := by
          have hne : i ≠ j := by
            rintro rfl
            exact hn (Name.text_injective (hi.text_eq hj))
          rcases Ordering.then_eq_lt.1 h with h | ⟨h, _⟩
          · have := compare_lt_iff_lt.1 h
            omega
          · have := compare_eq_iff_eq.1 h
            omega
        exact .listed ht hu hi hj hlt
      · next x hx hy =>
        obtain ⟨i, hi, _⟩ := Priorities.get?_ofOrder.1 hx
        exact .unlisted ht hu hi.mem (Priorities.get?_ofOrder_eq_none.1 hy)
      · cases h
      · next hx hy =>
        exact .descending ht hu (Priorities.get?_ofOrder_eq_none.1 hx)
          (Priorities.get?_ofOrder_eq_none.1 hy) (hdesc h)

/-- A built-in policy is a total order of all terms, so that it sorts them in one way. A weak order
of the variables becomes one of all terms. In both the constants come last, and listed texts place
terms of different names by their last places, the other variables descending. -/
theorem orders_terms :
    (∀ p : Policy, p.isBuiltIn → TransCmp p.compare ∧ (∀ a b, p.compare a b = .eq ↔ a = b) ∧
        p.PlacesConstantsLast ∧ ∀ ts us : List Term, ts.Perm us → p.sort ts = p.sort us) ∧
      (∀ p : Policy, p.IsLawful → TransCmp p.compare ∧ p.PlacesConstantsLast) ∧
      ∀ (texts : List String) (ts : List Term), (ts.map Term.name).Nodup →
        ((byOrder texts).sort ts).Perm ts ∧
          ((byOrder texts).sort ts).Pairwise (Precedes texts) := by
  refine ⟨fun p hp => ?_, fun p hp => ?_, fun texts ts hn => ⟨sort_perm _ ts, ?_⟩⟩
  · have hlawful := isLawful_of_isBuiltIn hp
    exact ⟨transCmp_compare hlawful, fun a b => compare_eq_iff hp, p.placesConstantsLast,
      fun ts us h => sort_eq_of_perm hp h⟩
  · exact ⟨transCmp_compare hp, p.placesConstantsLast⟩
  · have hnames : ((byOrder texts).sort ts).Pairwise fun t u => t.name ≠ u.name :=
      List.pairwise_map.1 ((((byOrder texts).sort_perm ts).map Term.name).nodup_iff.2 hn)
    have hsorted := pairwise_compare_sort (ordersNames_of_isBuiltIn (p := byOrder texts) rfl) hn
    exact (hnames.and hsorted).imp fun h => precedes_of_compare h.1 h.2

def byLength : Policy :=
  .custom "Length" fun t u => Ord.compare t.name.text.utf8ByteSize u.name.text.utf8ByteSize

theorem isLawful_byLength : byLength.IsLawful :=
  Term.transCmp_comap (Ord.compare : ℕ → ℕ → Ordering) fun t : Term => t.name.text.utf8ByteSize

def mixedTerms : List Term :=
  [⟨.one, .ofText "x"⟩, .constant .one, ⟨.one, .ofText "w"⟩, ⟨.one, .ofText "z"⟩,
    ⟨.one, .ofText "y"⟩]

/-- Where `w` is listed before and after `x`, its place is the one after. -/
theorem orders_terms_mixedTerms :
    (byOrder ["w", "x", "w"]).isBuiltIn ∧ byLength.IsLawful ∧ (mixedTerms.map Term.name).Nodup ∧
      (byOrder ["w", "x", "w"]).sort mixedTerms.reverse =
        (byOrder ["w", "x", "w"]).sort mixedTerms ∧
      byLength.PlacesConstantsLast ∧
        ((byOrder ["w", "x", "w"]).sort mixedTerms).Pairwise (Precedes ["w", "x", "w"]) := by
  have hn : (mixedTerms.map Term.name).Nodup := by decide
  obtain ⟨hbuilt, hlawful, hlisted⟩ := orders_terms
  obtain ⟨_, _, _, hsort⟩ := hbuilt (byOrder ["w", "x", "w"]) rfl
  exact ⟨rfl, isLawful_byLength, hn, hsort _ _ mixedTerms.reverse_perm,
    (hlawful byLength isLawful_byLength).2, (hlisted ["w", "x", "w"] mixedTerms hn).2⟩

example : ((byOrder ["w", "x", "w"]).sort mixedTerms).map (fun t => t.name.text) =
    ["x", "w", "z", "y", ""] := by decide +kernel

end Policy
end ExactLinear
