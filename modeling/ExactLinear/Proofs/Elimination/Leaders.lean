import ExactLinear.Proofs.Elimination.Invariants

/-! # Leading variables

A reduction takes the leading variable out of its destination. Under a policy that orders the names
a row is led by later and later variables, so every reduction uses up one of the places that are
left to a row, and no step gives one back.
-/

namespace ExactLinear

namespace Equation

variable {e : Equation}

theorem mem_of_leader? {t : Term} (h : e.leader? = .ok (some t)) : t ∈ e.terms :=
  List.mem_of_mem_head? (leader?_eq_some h).2

theorem terms_of_leader? (hc : e.IsCanonical) {t : Term} (h : e.leader? = .ok (some t)) :
    t.isConstant = false ∧ ∃ rest, e.terms = t :: rest := by
  obtain ⟨hs, hl⟩ := leader?_eq_some h
  obtain ⟨u, rest, he, hu, _⟩ := exists_leader hc hs
  obtain rfl : u = t := by simpa [leadingTerm?, he] using hl
  exact ⟨hu, rest, he⟩

theorem compareNames_of_leader? (ht : e.IsTidy) (hp : e.policy.OrdersNames) {t : Term}
    (h : e.leader? = .ok (some t)) {n : Name} (hn : n ∈ e.unknowns) (hne : n ≠ t.name) :
    e.policy.compareNames t.name n = .lt := by
  obtain ⟨_, rest, he⟩ := terms_of_leader? ht.isCanonical h
  have hs := ht.isStrictlySorted hp
  rw [IsStrictlySorted, pairwise_compare_iff hp ht.isCanonical.nodup, he, List.map_cons,
    List.pairwise_cons] at hs
  have hmem := (mem_unknowns_iff_names.1 hn).1
  rw [he, List.map_cons, List.mem_cons] at hmem
  exact hs.1 n (hmem.resolve_left hne)

end Equation

theorem value_of_combine {s d : LedRow} {c : Fraction} {e : Equation}
    (hd : d.leader.coefficient ≠ .zero) (h : combine s d = .ok (c, e)) :
    c.value = -(d.leader.coefficient.value / s.leader.coefficient.value) := by
  obtain ⟨quotient, factor, _, _, hq, hf, hc, _⟩ := combine_eq_ok h
  rw [(Fraction.value_recip? hc).2, Fraction.value_neg hf, Fraction.value_div hd hq, inv_neg,
    inv_div]

/-- The multiple of the source row cancels the leading term of the destination. -/
theorem notMem_unknowns_of_combine {s d : LedRow} {c : Fraction} {e : Equation}
    (hst : s.row.IsTidy) (hdt : d.row.IsTidy) (hs : s.row.leader? = .ok (some s.leader))
    (hd : d.row.leader? = .ok (some d.leader)) (hn : s.leader.name = d.leader.name)
    (h : combine s d = .ok (c, e)) : d.leader.name ∉ e.unknowns := by
  intro hmem
  obtain ⟨t, ht, hv, hname⟩ := Equation.mem_unknowns.1 hmem
  have hec := ((replaces_of_combine h).isTidy hdt).isCanonical
  have hsv := (Equation.terms_of_leader? hst.isCanonical hs).1
  have hdv := (Equation.terms_of_leader? hdt.isCanonical hd).1
  have hsm := Equation.mem_of_leader? hs
  have hdm := Equation.mem_of_leader? hd
  have hd0 := hdt.isCanonical.nonzero _ hdm
  -- the coefficients add up as the rows do
  obtain ⟨q, _, hsum⟩ := evalSum_combine h
  have h0 := hsum 0
  have h1 := hsum (Function.update 0 t.name 1)
  have hes := Equation.evalSum_update hec ht hv 0 1
  have hds := Equation.evalSum_update hdt.isCanonical hdm hdv 0 1
  have hss := Equation.evalSum_update hst.isCanonical hsm hsv 0 1
  rw [hn, ← hname] at hss
  rw [← hname] at hds
  simp only [Pi.zero_apply, sub_zero, mul_one] at hes hds hss
  rw [hes, hds, hss, h0] at h1
  -- and the multiple of the one is the opposite of the other
  have hs0 := Fraction.value_ne_zero (hst.isCanonical.nonzero _ hsm)
  have hcv : c.value * s.leader.coefficient.value = -d.leader.coefficient.value := by
    rw [value_of_combine hd0 h, neg_mul, div_mul_cancel₀ _ hs0]
  have hzero : t.coefficient.value = 0 := by linear_combination h1 + q * hcv
  exact Fraction.value_ne_zero (hec.nonzero t ht) hzero

/-- The variables that are left to the destination come after the one that led it. -/
theorem compareNames_of_combine {p : Policy} {rows : List Equation} (hp : p.OrdersNames)
    (ht : AreTidy p rows) {s d : LedRow} {c : Fraction} {e : Equation} (hs : s.IsIn rows)
    (hd : d.IsIn rows) (hn : s.leader.name = d.leader.name) (h : combine s d = .ok (c, e)) :
    ∀ m ∈ e.unknowns, p.compareNames d.leader.name m = .lt := by
  obtain ⟨hsp, hst⟩ := ht s.row (List.mem_of_getElem? hs.row)
  obtain ⟨hdp, hdt⟩ := ht d.row (List.mem_of_getElem? hd.row)
  intro m hm
  have hne : m ≠ d.leader.name := by
    rintro rfl
    exact notMem_unknowns_of_combine hst hdt hs.leader hd.leader hn h hm
  rcases (replaces_of_combine h).of_unknowns m hm with hm | hm
  · have hlt := Equation.compareNames_of_leader? hdt (hdp.symm ▸ hp) hd.leader hm hne
    rwa [hdp] at hlt
  · have hlt := Equation.compareNames_of_leader? hst (hsp.symm ▸ hp) hs.leader hm (hn ▸ hne)
    rwa [hsp, hn] at hlt

/-- The number of the names that are not before all variables of the row. Only these can still lead
it. -/
def Equation.headroom (p : Policy) (ns : List Name) (e : Equation) : ℕ :=
  ns.countP fun m => e.unknowns.any fun n => (p.compareNames n m).isLE

namespace Equation

variable {p : Policy} {ns : List Name} {d e : Equation}

theorem headroom_le_length : e.headroom p ns ≤ ns.length := List.countP_le_length

theorem headroom_le (h : ∀ n ∈ e.unknowns, n ∈ d.unknowns) : e.headroom p ns ≤ d.headroom p ns := by
  apply List.countP_mono_left
  intro m _ hm
  rw [List.any_eq_true] at hm ⊢
  obtain ⟨n, hn, hle⟩ := hm
  exact ⟨n, h n hn, hle⟩

theorem headroom_lt (hp : p.OrdersNames) {n : Name} (hn : n ∈ ns) (hd : n ∈ d.unknowns)
    (h : ∀ m ∈ e.unknowns, p.compareNames n m = .lt) : e.headroom p ns < d.headroom p ns := by
  have := hp.transCmp_compareNames
  have hself : p.compareNames n n = .eq := Std.ReflCmp.compare_self
  refine countP_lt_countP hn (fun m _ hm => ?_) ?_ ?_
  · rw [List.any_eq_true] at hm ⊢
    obtain ⟨k, hk, hle⟩ := hm
    exact ⟨n, hd, Ordering.isLE_of_eq_lt (Std.TransCmp.lt_of_lt_of_isLE (h k hk) hle)⟩
  · rw [List.any_eq_false]
    intro m hm hle
    have hlt := Std.TransCmp.lt_of_lt_of_isLE (h m hm) hle
    simp [hself] at hlt
  · rw [List.any_eq_true]
    exact ⟨n, hd, by simp [hself]⟩

end Equation

/-- The places that are left to all rows. -/
def headroom (p : Policy) (ns : List Name) (rows : List Equation) : ℕ :=
  (rows.map (Equation.headroom p ns)).sum

def Mentions (rows : List Equation) (ns : List Name) : Prop :=
  ∀ row ∈ rows, ∀ n ∈ row.unknowns, n ∈ ns

variable {p : Policy} {ns : List Name} {rows rows' : List Equation}

theorem headroom_le_mul : headroom p ns rows ≤ rows.length * ns.length := by
  have hle : ∀ k ∈ rows.map (Equation.headroom p ns), k ≤ ns.length := by
    rw [List.forall_mem_map]
    exact fun row _ => Equation.headroom_le_length
  simpa [headroom] using List.sum_le_card_nsmul _ _ hle

/-- The names of a canonical row differ, so it has one variable term for each of them at most. -/
theorem variableCount_le_mul (ht : AreTidy p rows) (hns : Mentions rows ns) :
    variableCount rows ≤ rows.length * ns.length := by
  induction rows with
  | nil => simp [variableCount]
  | cons row rest ih =>
    obtain ⟨hrow, hrest⟩ := List.forall_mem_cons.1 ht
    obtain ⟨hn, hns⟩ := List.forall_mem_cons.1 hns
    have hnodup : row.unknowns.Nodup := by
      rw [Equation.unknowns_eq]
      exact hrow.2.isCanonical.nodup.filter _
    have hle := (hnodup.subperm hn).length_le
    have hrec := ih hrest hns
    simp only [variableCount, List.length_cons, Nat.succ_mul]
    omega

theorem headroom_set (p : Policy) (ns : List Name) {j : ℕ} {row : Equation}
    (hj : rows[j]? = some row) (e : Equation) :
    headroom p ns (rows.set j e) + row.headroom p ns = headroom p ns rows + e.headroom p ns := by
  induction rows generalizing j with
  | nil => simp at hj
  | cons r rest ih =>
    cases j with
    | zero =>
      obtain rfl : r = row := by simpa using hj
      simp only [headroom, List.set_cons_zero, List.map_cons, List.sum_cons]
      omega
    | succ j =>
      have hs := ih (by simpa using hj)
      simp only [headroom, List.set_cons_succ, List.map_cons, List.sum_cons] at hs ⊢
      omega

/-- A reduction uses up a place of its destination. -/
theorem headroom_combine (hp : p.OrdersNames) (ht : AreTidy p rows) (hns : Mentions rows ns)
    {s d : LedRow} {c : Fraction} {e : Equation} (hs : s.IsIn rows) (hd : d.IsIn rows)
    (hn : s.leader.name = d.leader.name) (h : combine s d = .ok (c, e)) :
    headroom p ns (rows.set d.index e) < headroom p ns rows := by
  obtain ⟨_, hdt⟩ := ht d.row (List.mem_of_getElem? hd.row)
  have hlead : d.leader.name ∈ d.row.unknowns :=
    Equation.mem_unknowns.2 ⟨d.leader, Equation.mem_of_leader? hd.leader,
      (Equation.terms_of_leader? hdt.isCanonical hd.leader).1, rfl⟩
  have hlater := compareNames_of_combine hp ht hs hd hn h
  have hrow := hns d.row (List.mem_of_getElem? hd.row) _ hlead
  have hlt : e.headroom p ns < d.row.headroom p ns := Equation.headroom_lt hp hrow hlead hlater
  have hset := headroom_set p ns hd.row e
  omega

theorem RowStep.headroom_le (h : RowStep rows rows') (hp : p.OrdersNames) (ht : AreTidy p rows)
    (hns : Mentions rows ns) : headroom p ns rows' ≤ headroom p ns rows := by
  cases h with
  | @substituted i j source row e n x hi hs hij hj hu he =>
    have hperm := Equation.unknowns_substitute? (Equation.isBlank_of_solution? hs) he
    have hle : e.headroom p ns ≤ row.headroom p ns :=
      Equation.headroom_le fun m hm => hperm.mem_iff.2 (List.mem_cons_of_mem n hm)
    have hset := headroom_set p ns hj e
    omega
  | reduced hs hd hlt hn he => exact (headroom_combine hp ht hns hs hd hn he).le

namespace RowSteps

theorem mentions (h : RowSteps rows rows') (hns : Mentions rows ns) : Mentions rows' ns := by
  intro row hr n hn
  obtain ⟨e, he, hne⟩ := (h.exists_mem_unknowns_iff n).1 ⟨row, hr, hn⟩
  exact hns e he n hne

theorem headroom_le (h : RowSteps rows rows') (hp : p.OrdersNames) (ht : AreTidy p rows)
    (hns : Mentions rows ns) : headroom p ns rows' ≤ headroom p ns rows := by
  induction h with
  | refl => exact le_rfl
  | tail hsteps hstep ih =>
    exact (hstep.headroom_le hp (areTidy hsteps ht) (mentions hsteps hns)).trans ih

end RowSteps
end ExactLinear
