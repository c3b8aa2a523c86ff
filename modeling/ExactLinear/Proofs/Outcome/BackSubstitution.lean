import Mathlib.Logic.Function.Iterate
import ExactLinear.Proofs.Outcome.ReadOff

/-! # Back-substitution

Tables are triangular if every expression mentions later variables only. Whatever values the free
variables take, back-substitution then comes to rest at the one valuation that the tables allow.
-/

namespace ExactLinear.Solution

/-- The valuation gives the variables what the tables say. -/
structure Holds (a : Solution) (v : Valuation) : Prop where
  known : ∀ n x, a.known.get? n = some x → v n = x.value
  expressed : ∀ n ts, a.expressed.get? n = some ts → v n = Term.evalSum v ts

/-- The variable has neither a value nor an expression. -/
def IsFree (a : Solution) (n : Name) : Prop := n ∉ a.known.keys ∧ n ∉ a.expressed.keys

/-- An expression mentions variables, all of them without a value and of a higher rank. -/
structure IsTriangular (a : Solution) (ns : List Name) (rank : Name → ℕ) : Prop where
  bounded : ∀ n, rank n ≤ ns.length
  disjoint : ∀ n ∈ a.known.keys, n ∉ a.expressed.keys
  later : ∀ n ts, a.expressed.get? n = some ts → ∀ m ∈ ts.map Term.name, m.isBlank = false →
    m ∈ ns ∧ m ∉ a.known.keys ∧ rank n < rank m
  mentions : ∀ n ts, a.expressed.get? n = some ts → ∃ m ∈ ts.map Term.name, m.isBlank = false

/-- One round of back-substitution into a valuation, with given values of the free variables. -/
def backSubstitute (a : Solution) (free v : Valuation) : Valuation := fun n =>
  match a.known.get? n with
  | some x => x.value
  | none =>
    match a.expressed.get? n with
    | some ts => Term.evalSum v ts
    | none => free n

variable {a : Solution} {ns : List Name} {rank : Name → ℕ}

theorem isFree_iff {n : Name} :
    a.IsFree n ↔ a.known.get? n = none ∧ a.expressed.get? n = none := by
  simp [IsFree, Bindings.mem_keys, Option.eq_none_iff_forall_ne_some]

theorem known_or_expressed_or_free (a : Solution) (n : Name) :
    (∃ x, a.known.get? n = some x) ∨ (∃ ts, a.expressed.get? n = some ts) ∨ a.IsFree n := by
  rw [isFree_iff]
  cases a.known.get? n <;> cases a.expressed.get? n <;> simp

theorem IsTriangular.evalSum_congr (ht : a.IsTriangular ns rank) {n : Name} {ts : List Term}
    (hn : a.expressed.get? n = some ts) {v w : Valuation}
    (h : ∀ m ∈ ns, rank n < rank m → v m = w m) : Term.evalSum v ts = Term.evalSum w ts := by
  apply Term.evalSum_congr
  intro t htm hv
  obtain ⟨hm, _, hlt⟩ := ht.later n ts hn t.name (List.mem_map_of_mem htm) hv
  exact h t.name hm hlt

theorem holds_of_backSubstitute_eq (ht : a.IsTriangular ns rank) {free v : Valuation}
    (h : a.backSubstitute free v = v) : a.Holds v ∧ ∀ n, a.IsFree n → v n = free n := by
  refine ⟨⟨fun n x hx => ?_, fun n ts hts => ?_⟩, fun n hn => ?_⟩
  · rw [← congrFun h n]
    simp [backSubstitute, hx]
  · have hk : a.known.get? n = none := by
      rw [Option.eq_none_iff_forall_ne_some]
      intro x hx
      exact ht.disjoint n (Bindings.mem_keys.2 ⟨x, hx⟩) (Bindings.mem_keys.2 ⟨ts, hts⟩)
    nth_rewrite 1 [← congrFun h n]
    simp [backSubstitute, hk, hts]
  · rw [← congrFun h n]
    obtain ⟨hk, he⟩ := isFree_iff.1 hn
    simp [backSubstitute, hk, he]

/-- After some rounds the variables of high rank keep their values. -/
theorem iterate_backSubstitute (ht : a.IsTriangular ns rank) (free v : Valuation) {k : ℕ} {n : Name}
    (h : ns.length < rank n + k) :
    (a.backSubstitute free)^[k + 1] v n = (a.backSubstitute free)^[k] v n := by
  induction k generalizing n with
  | zero =>
    have hb := ht.bounded n
    omega
  | succ k ih =>
    rw [Function.iterate_succ_apply', Function.iterate_succ_apply' _ k]
    rw [backSubstitute, backSubstitute]
    cases a.known.get? n with
    | some x => rfl
    | none =>
      cases hts : a.expressed.get? n with
      | some ts =>
        have hs := ht.evalSum_congr hts fun m _ hlt => ih (n := m) (by omega)
        rw [Function.iterate_succ_apply'] at hs
        exact hs
      | none => rfl

theorem IsTriangular.exists_holds (ht : a.IsTriangular ns rank) (free : Valuation) :
    ∃ v, a.Holds v ∧ ∀ n, a.IsFree n → v n = free n := by
  refine ⟨(a.backSubstitute free)^[ns.length + 1] free, holds_of_backSubstitute_eq ht ?_⟩
  rw [← Function.iterate_succ_apply' (a.backSubstitute free)]
  funext n
  exact iterate_backSubstitute ht free free (by omega)

theorem IsTriangular.eq_of_holds (ht : a.IsTriangular ns rank) {v w : Valuation} (hv : a.Holds v)
    (hw : a.Holds w) (h : ∀ n ∈ ns, a.IsFree n → v n = w n) : ∀ n ∈ ns, v n = w n := by
  have key (k : ℕ) : ∀ n ∈ ns, ns.length < rank n + k → v n = w n := by
    induction k with
    | zero =>
      intro n _ hlt
      have hb := ht.bounded n
      omega
    | succ k ih =>
      intro n hn hlt
      rcases a.known_or_expressed_or_free n with ⟨x, hx⟩ | ⟨ts, hts⟩ | hf
      · rw [hv.known n x hx, hw.known n x hx]
      · rw [hv.expressed n ts hts, hw.expressed n ts hts]
        exact ht.evalSum_congr hts fun m hm hlt' => ih m hm (by omega)
      · exact h n hn hf
  intro n hn
  exact key (ns.length + 1) n hn (by omega)

theorem IsTriangular.exists_isFree (ht : a.IsTriangular ns rank) {n : Name}
    (hn : n ∈ a.expressed.keys) : ∃ m ∈ ns, a.IsFree m := by
  have key (k : ℕ) : ∀ n ∈ a.expressed.keys, ns.length < rank n + k → ∃ m ∈ ns, a.IsFree m := by
    induction k with
    | zero =>
      intro n _ hlt
      have hb := ht.bounded n
      omega
    | succ k ih =>
      intro n hn hlt
      obtain ⟨ts, hts⟩ := Bindings.mem_keys.1 hn
      obtain ⟨m, hm, hv⟩ := ht.mentions n ts hts
      obtain ⟨hns, hk, hr⟩ := ht.later n ts hts m hm hv
      by_cases he : m ∈ a.expressed.keys
      · exact ih m he (by omega)
      · exact ⟨m, hns, hk, he⟩
  exact key (ns.length + 1) n hn (by omega)

end ExactLinear.Solution
