import ExactLinear.Proofs.Elimination.Systems

/-! # Clashes

A step replaces a row without a direct solution, so rows that contradict themselves or are directly
solved stay as they are. Rows that clash therefore go on clashing, and the next round of
substitution finds them.
-/

namespace ExactLinear

theorem RowStep.exists_isUnsolved {rows rows' : List Equation} (h : RowStep rows rows') :
    ∃ (j : ℕ) (row e : Equation), rows[j]? = some row ∧ row.IsUnsolved ∧ rows' = rows.set j e := by
  cases h with
  | @substituted i j source row e n x hi hs hij hj hu he => exact ⟨j, row, e, hj, hu, rfl⟩
  | @reduced s d c e hs hd hlt hn he =>
    exact ⟨d.index, d.row, e, hd.row, (Equation.leader?_eq_some hd.leader).1, rfl⟩

theorem RowStep.getElem?_eq_some {rows rows' : List Equation} (h : RowStep rows rows') {k : ℕ}
    {a : Equation} (hk : rows[k]? = some a) (ha : ¬a.IsUnsolved) : rows'[k]? = some a := by
  obtain ⟨j, row, e, hj, hu, rfl⟩ := h.exists_isUnsolved
  have hne : j ≠ k := by
    rintro rfl
    exact ha (Option.some.inj (hj.symm.trans hk) ▸ hu)
  rw [List.getElem?_set_ne hne, hk]

/-- What has a direct solution or contradicts itself stays in its place. -/
theorem RowSteps.getElem?_eq_some {rows rows' : List Equation} (h : RowSteps rows rows') {k : ℕ}
    {a : Equation} (hk : rows[k]? = some a) (ha : ¬a.IsUnsolved) : rows'[k]? = some a := by
  induction h with
  | refl => exact hk
  | tail _ hstep ih => exact hstep.getElem?_eq_some ih ha

/-- The row contradicts itself, or another row gives its variable another value. -/
def ClashesAt (m : ℕ) (rows : List Equation) : Prop :=
  ∃ a, rows[m]? = some a ∧ (a.isContradiction ∨ ∃ n x y k b, a.Assigns n x ∧ k ≠ m ∧
    rows[k]? = some b ∧ b.Assigns n y ∧ y ≠ x)

theorem Clash.exists_clashesAt {rows : List Equation} (h : Clash rows) :
    ∃ m, ClashesAt m rows := by
  rcases h with ⟨a, ha, hc⟩ | ⟨a, ha, b, hb, n, x, y, hx, hy, hne⟩
  · obtain ⟨m, hm⟩ := List.mem_iff_getElem?.1 ha
    exact ⟨m, a, hm, .inl hc⟩
  · obtain ⟨m, hm⟩ := List.mem_iff_getElem?.1 ha
    obtain ⟨k, hk⟩ := List.mem_iff_getElem?.1 hb
    refine ⟨m, a, hm, .inr ⟨n, x, y, k, b, hx, ?_, hk, hy, hne.symm⟩⟩
    -- one row gives its variable one value
    rintro rfl
    obtain rfl : a = b := Option.some.inj (hm.symm.trans hk)
    exact hne (Equation.assigns_unique hy hx).2

theorem ClashesAt.of_steps {m : ℕ} {rows rows' : List Equation} (h : ClashesAt m rows)
    (hs : RowSteps rows rows') : ClashesAt m rows' := by
  obtain ⟨a, hm, hc | ⟨n, x, y, k, b, hx, hkm, hk, hy, hne⟩⟩ := h
  · have ha := Equation.not_isUnsolved_of_isContradiction hc
    exact ⟨a, hs.getElem?_eq_some hm ha, .inl hc⟩
  · have ha := Equation.not_isUnsolved_of_assigns hx
    have hb := Equation.not_isUnsolved_of_assigns hy
    exact ⟨a, hs.getElem?_eq_some hm ha,
      .inr ⟨n, x, y, k, b, hx, hkm, hs.getElem?_eq_some hk hb, hy, hne⟩⟩

/-- Steps do not resolve a clash. -/
theorem Clash.of_steps {rows rows' : List Equation} (h : Clash rows) (hs : RowSteps rows rows') :
    Clash rows' := by
  obtain ⟨m, hm⟩ := h.exists_clashesAt
  obtain ⟨a, ha, hc | ⟨n, x, y, k, b, hx, _, hk, hy, hne⟩⟩ := hm.of_steps hs
  · exact .inl ⟨a, List.mem_of_getElem? ha, hc⟩
  · exact .inr ⟨a, List.mem_of_getElem? ha, b, List.mem_of_getElem? hk, n, x, y, hx, hy, hne.symm⟩

theorem Settled.isContradiction_eq_false {rows : List Equation} (h : Settled rows) {e : Equation}
    (he : e ∈ rows) : e.isContradiction = false := by
  obtain ⟨d, hd⟩ := h.decided e he
  exact Equation.isContradiction_of_solution? hd

theorem Settled.not_clash {rows : List Equation} (h : Settled rows) : ¬Clash rows := by
  rintro (⟨a, ha, hc⟩ | ⟨a, ha, b, hb, n, x, y, hx, hy, hne⟩)
  · rw [h.isContradiction_eq_false ha] at hc
    cases hc
  · exact hne (h.agree a ha b hb n x y hx hy)

theorem eq_contradiction_of_meet {n : Name} {x y : Fraction} {i j : ℕ} {row : Equation}
    {m : Meeting} (h : (meet n x i j row).result = .ok m) (hij : j ≠ i) (hr : row.Assigns n y)
    (hne : y ≠ x) : m = .contradictory := by
  have hu := Equation.not_isUnsolved_of_assigns hr
  cases meets_of_meet h with
  | own hj => exact absurd hj hij
  | contradiction _ => rfl
  | clash _ _ => rfl
  | rewritten _ hu' _ => exact absurd hu' hu
  | respected hres =>
    rcases hres with ⟨k, z, hz, hkz⟩ | ht | ⟨hu', _⟩
    · obtain ⟨hk, rfl⟩ := Equation.assigns_unique hz hr
      exact absurd (hkz hk.symm) hne
    · cases hr.symm.trans ht
    · exact absurd hu' hu

theorem eq_contradiction_of_spread {n : Name} {x y : Fraction} {i j k : ℕ}
    {rows rows' : List Equation} {row : Equation} {v : Verdict}
    (h : (spread n x i j rows).result = .ok (rows', v)) (hk : rows[k]? = some row)
    (hi : j + k ≠ i) (hr : row.Assigns n y) (hne : y ≠ x) : v = .contradiction := by
  induction rows generalizing j k rows' v with
  | nil => simp at hk
  | cons r rest ih =>
    rw [spread] at h
    obtain ⟨m, hm, h⟩ := Logged.bind_result_eq_ok.1 h
    cases k with
    | zero =>
      obtain rfl : r = row := by simpa using hk
      obtain rfl := eq_contradiction_of_meet hm (by simpa using hi) hr hne
      cases h
      rfl
    | succ k =>
      have hk' : rest[k]? = some row := by simpa using hk
      cases m with
      | contradictory => cases h; rfl
      | kept =>
        obtain ⟨⟨rest', w⟩, hw, h⟩ := Logged.bind_result_eq_ok.1 h
        cases h
        exact ih hw hk' (by omega)
      | rewritten e =>
        obtain ⟨⟨rest', w⟩, hw, h⟩ := Logged.bind_result_eq_ok.1 h
        cases h
        rw [ih hw hk' (by omega)]
        rfl

theorem eq_contradiction_of_substituteFrom {m : ℕ} {row : Equation} {rows rows' : List Equation}
    {v : Verdict} (h : (substituteFrom m row rows).result = .ok (rows', v))
    (hm : rows[m]? = some row) (hc : ClashesAt m rows) : v = .contradiction := by
  obtain ⟨a, ha, hc⟩ := hc
  obtain rfl : a = row := Option.some.inj (ha.symm.trans hm)
  rw [substituteFrom] at h
  split at h
  · cases h; rfl
  · next hno =>
    rcases hc with hc | ⟨n, x, y, k, b, hx, hkm, hk, hy, hne⟩
    · exact absurd hc hno
    · obtain ⟨s, hs, h⟩ := Logged.bind_result_eq_ok.1 h
      obtain rfl : s = some (.assignment n x) := Except.ok.inj (hs.symm.trans hx)
      exact eq_contradiction_of_spread h hk (by omega) hy hne

theorem eq_contradiction_of_roundFrom {k i m : ℕ} {rows rows' : List Equation} {v : Verdict}
    (h : (roundFrom k i rows).result = .ok (rows', v)) (hi : i ≤ m) (hk : m < i + k)
    (hc : ClashesAt m rows) : v = .contradiction := by
  induction k generalizing i rows rows' v with
  | zero => omega
  | succ k ih =>
    rw [roundFrom] at h
    split at h
    · next hnone =>
      obtain ⟨a, ha, _⟩ := hc
      obtain ⟨hlt, _⟩ := List.getElem?_eq_some_iff.1 ha
      rw [List.getElem?_eq_none_iff] at hnone
      omega
    · next row hrow =>
      obtain ⟨⟨mid, w⟩, hmid, h⟩ := Logged.bind_result_eq_ok.1 h
      dsimp only at h
      split at h
      · next hw => cases h; exact hw
      · next hw =>
        obtain ⟨⟨last, u⟩, hl, h⟩ := Logged.bind_result_eq_ok.1 h
        cases h
        have hsteps := (passes_substituteFrom hrow hmid).steps
        rcases Nat.eq_or_lt_of_le hi with rfl | hlt
        · exact absurd (eq_contradiction_of_substituteFrom hmid hrow hc) hw
        · exact Verdict.join_eq_contradiction.2 (.inr (ih hl hlt (by omega) (hc.of_steps hsteps)))

/-- A round of substitution finds a clash, whatever it substitutes on its way. -/
theorem Clash.eq_contradiction {rows rows' : List Equation} {v : Verdict} (hc : Clash rows)
    (h : (substitutionRound rows).result = .ok (rows', v)) : v = .contradiction := by
  obtain ⟨m, hm⟩ := hc.exists_clashesAt
  have ⟨a, ha, _⟩ := hm
  obtain ⟨hlt, _⟩ := List.getElem?_eq_some_iff.1 ha
  exact eq_contradiction_of_roundFrom h (Nat.zero_le m) (by omega) hm

theorem Clash.eq_contradiction_of_settle {rows last : List Equation} {k : ℕ} {v : Verdict}
    (hc : Clash rows) (h : (settle rows).result = .ok (last, k, v)) : v = .contradiction := by
  obtain ⟨mid, hrounds, hr, _⟩ := rounds_of_settle h
  exact (hc.of_steps hrounds.steps).eq_contradiction hr

end ExactLinear
