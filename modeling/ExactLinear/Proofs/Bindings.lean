import ExactLinear.Bindings
import ExactLinear.Proofs.Policy.Order

/-! # Ascending names and tables

A list of names that is put together by insertion is strictly ascending, so its members determine
it. The keys of a table are such a list.
-/

namespace ExactLinear

namespace Name

def IsAscending (ns : List Name) : Prop := ns.Pairwise fun m n => m.compare n = .lt

theorem mem_insertInto {m n : Name} {ns : List Name} :
    m ∈ n.insertInto ns ↔ m = n ∨ m ∈ ns := by
  induction ns with
  | nil => simp [insertInto]
  | cons k ks ih =>
    rw [insertInto]
    split
    · simp
    · next hk =>
      obtain rfl := Std.LawfulEqCmp.eq_of_compare hk
      simp
    · simp only [List.mem_cons, ih]
      tauto

theorem IsAscending.insertInto {ns : List Name} (h : IsAscending ns) (n : Name) :
    IsAscending (n.insertInto ns) := by
  induction ns with
  | nil => simp [IsAscending, Name.insertInto]
  | cons k ks ih =>
    obtain ⟨hk, hs⟩ := List.pairwise_cons.1 h
    rw [Name.insertInto]
    split
    · next hlt =>
      refine List.pairwise_cons.2 ⟨fun m hm => ?_, h⟩
      rcases List.mem_cons.1 hm with rfl | hm
      · exact hlt
      · exact Std.TransCmp.lt_trans hlt (hk m hm)
    · exact h
    · next hgt =>
      refine List.pairwise_cons.2 ⟨fun m hm => ?_, ih hs⟩
      rcases mem_insertInto.1 hm with rfl | hm
      · exact Std.OrientedCmp.lt_of_gt hgt
      · exact hk m hm

theorem IsAscending.nodup {ns : List Name} (h : IsAscending ns) : ns.Nodup :=
  h.imp fun hlt he => by simp [he, Std.ReflCmp.compare_self] at hlt

/-- Ascending lists with the same members are equal. -/
theorem IsAscending.ext {ms ns : List Name} (hm : IsAscending ms) (hn : IsAscending ns)
    (h : ∀ k, k ∈ ms ↔ k ∈ ns) : ms = ns := by
  have hp : ms.Perm ns := (List.perm_ext_iff_of_nodup hm.nodup hn.nodup).2 h
  exact eq_of_perm_of_pairwise hp hm hn

end Name

namespace Bindings

variable {α : Type}

theorem keys_insert (b : Bindings α) (n : Name) (x : α) :
    (b.insert n x).keys = n.insertInto b.keys := by
  rcases b with ⟨es⟩
  simp only [keys, insert]
  induction es with
  | nil => rfl
  | cons e es ih =>
    rw [place, List.map_cons, Name.insertInto]
    cases hc : n.compare e.1 with
    | lt => rfl
    | eq =>
      have he := Std.LawfulEqCmp.eq_of_compare hc
      simp [he]
    | gt => simp [ih]

/-- The last value put in for a name is the one found. -/
theorem get?_insert (b : Bindings α) (n m : Name) (x : α) :
    (b.insert n x).get? m = if m = n then some x else b.get? m := by
  rcases b with ⟨es⟩
  simp only [get?, insert]
  induction es with
  | nil => rw [place, lookup_cons_eq]
  | cons e es ih =>
    rw [place]
    cases hc : n.compare e.1 with
    | lt => simp only [lookup_cons_eq]
    | eq =>
      have he := Std.LawfulEqCmp.eq_of_compare hc
      by_cases h : m = n <;> simp [lookup_cons_eq, h, ← he]
    | gt =>
      have hne : e.1 ≠ n := by
        rintro rfl
        have hself : e.1.compare e.1 = .eq := Std.ReflCmp.compare_self
        rw [hself] at hc
        cases hc
      by_cases h : m = e.1
      · subst h
        simp [lookup_cons_eq, hne]
      · simp [lookup_cons_eq, h, ih]

@[simp] theorem get?_empty (n : Name) : ({} : Bindings α).get? n = none := rfl

theorem mem_keys {b : Bindings α} {n : Name} : n ∈ b.keys ↔ ∃ x, b.get? n = some x := by
  rcases b with ⟨es⟩
  simp only [keys, get?]
  induction es with
  | nil => simp
  | cons e es ih =>
    by_cases h : n = e.1
    · simp [lookup_cons_eq, h]
    · simpa [lookup_cons_eq, h] using ih

theorem contains_iff_mem_keys {b : Bindings α} {n : Name} : b.contains n ↔ n ∈ b.keys := by
  rw [contains, Option.isSome_iff_exists, mem_keys]

theorem ext_of_get? {b c : Bindings α} (hb : Name.IsAscending b.keys)
    (hc : Name.IsAscending c.keys) (h : ∀ n, b.get? n = c.get? n) : b = c := by
  have hkeys : b.keys = c.keys := by
    apply hb.ext hc
    intro n
    rw [mem_keys, mem_keys, h n]
  have hnodup := hb.nodup
  clear hb hc
  rcases b with ⟨es⟩
  rcases c with ⟨fs⟩
  simp only [keys, get?] at hkeys hnodup h
  congr
  induction es generalizing fs with
  | nil => exact (List.map_eq_nil_iff.1 hkeys.symm).symm
  | cons e es ih =>
    cases fs with
    | nil => cases hkeys
    | cons f fs =>
      simp only [List.map_cons, List.cons.injEq, List.nodup_cons] at hkeys hnodup
      obtain ⟨hef, htail⟩ := hkeys
      obtain ⟨hnotin, hnodup⟩ := hnodup
      have hvalue : e.2 = f.2 := by simpa [lookup_cons_eq, hef] using h e.1
      -- the name of the first entry has none in the rest
      have hnone (gs : List (Name × α)) (hg : e.1 ∉ gs.map Prod.fst) : gs.lookup e.1 = none := by
        rw [Option.eq_none_iff_forall_ne_some]
        intro x hx
        exact hg (mem_keys.2 ⟨x, hx⟩)
      have hrest (n : Name) : es.lookup n = fs.lookup n := by
        by_cases hn : n = e.1
        · rw [hn, hnone es hnotin, hnone fs (htail ▸ hnotin)]
        · simpa [lookup_cons_eq, hn, ← hef] using h n
      rw [Prod.ext hef hvalue, ih hnodup fs hrest htail]

end Bindings
end ExactLinear
