import ExactLinear.Outcome
import ExactLinear.Proofs.Bindings
import ExactLinear.Proofs.Elimination.Invariants

/-! # Reading off the rows

The tables that are read off hold what single rows show and nothing else. A row without a direct
solution shows its leading variable as a sum of the others.
-/

namespace ExactLinear

namespace Equation

/-- The equation has no direct solution and equals its leading variable to the sum. -/
structure Expresses (e : Equation) (n : Name) (ts : List Term) : Prop where
  isUnsolved : e.IsUnsolved
  leader : ∃ t, e.leadingTerm? = some t ∧ t.name = n
  express : e.express? n = .ok (some ts)

namespace Expresses

variable {e : Equation} {n : Name} {ts : List Term}

theorem terms (h : e.Expresses n ts) (hc : e.IsCanonical) :
    ∃ t rest, e.terms = t :: rest ∧ t.name = n ∧ n ∈ e.unknowns ∧
      ts.map Term.name = rest.map Term.name ∧
        ∀ v, e.Satisfied v ↔ v n = Term.evalSum v ts := by
  obtain ⟨t, ht, rfl⟩ := h.leader
  obtain ⟨u, rest, he, _, hu⟩ := exists_leader hc h.isUnsolved
  obtain rfl : u = t := by simpa [leadingTerm?, he] using ht
  obtain ⟨left, t', right, hl, hn, hnames, hs⟩ :=
    express?_eq_some (isBlank_of_mem_unknowns hu) h.express
  -- a name occurs once, so the term taken out is the leading one
  have hleft : left = [] := by
    cases left with
    | nil => rfl
    | cons w left =>
      have hd := hc.nodup
      rw [he, List.cons_append, List.cons.injEq] at hl
      rw [he, hl.2, List.map_cons, List.nodup_cons] at hd
      exact absurd (by simp [← hn]) hd.1
  subst hleft
  rw [he, List.nil_append, List.cons.injEq] at hl
  exact ⟨u, rest, he, rfl, hu, by rw [hnames, List.nil_append, hl.2], hs⟩

theorem satisfied_iff (h : e.Expresses n ts) (hc : e.IsCanonical) (v : Valuation) :
    e.Satisfied v ↔ v n = Term.evalSum v ts := by
  obtain ⟨_, _, _, _, _, _, hs⟩ := h.terms hc
  exact hs v

theorem mem_unknowns (h : e.Expresses n ts) (hc : e.IsCanonical) : n ∈ e.unknowns := by
  obtain ⟨_, _, _, _, hn, _⟩ := h.terms hc
  exact hn

theorem of_mem (h : e.Expresses n ts) (ht : e.IsTidy) {m : Name} (hm : m ∈ ts.map Term.name)
    (hv : m.isBlank = false) :
    m ∈ e.unknowns ∧ (e.policy.OrdersNames → e.policy.compareNames n m = .lt) := by
  obtain ⟨t, rest, he, rfl, _, hnames, _⟩ := h.terms ht.isCanonical
  rw [hnames] at hm
  refine ⟨mem_unknowns_iff_names.2 ⟨by simp [he, hm], hv⟩, fun hp => ?_⟩
  have hs := ht.isStrictlySorted hp
  rw [IsStrictlySorted, pairwise_compare_iff hp ht.isCanonical.nodup, he, List.map_cons] at hs
  exact (List.pairwise_cons.1 hs).1 m hm

theorem exists_mem (h : e.Expresses n ts) (hc : e.IsCanonical) :
    ∃ m ∈ ts.map Term.name, m.isBlank = false := by
  obtain ⟨t, rest, he, rfl, hn, hnames, _⟩ := h.terms hc
  have h2 := two_le_of_solution?_none hc h.isUnsolved
  have hb := isBlank_of_mem_unknowns hn
  rw [unknowns_eq, he, List.map_cons, List.filter_cons_of_pos (by simp [hb]),
    List.length_cons] at h2
  obtain ⟨m, hm⟩ := List.exists_mem_of_length_pos (Nat.le_of_succ_le_succ h2)
  obtain ⟨hm, hv⟩ := List.mem_filter.1 hm
  exact ⟨m, hnames ▸ hm, by simpa using hv⟩

/-- One equation expresses one variable, and it assigns none. -/
theorem unique {m : Name} {us : List Term} (h : e.Expresses n ts) (k : e.Expresses m us) :
    m = n ∧ us = ts := by
  obtain ⟨t, ht, rfl⟩ := h.leader
  obtain ⟨u, hu, rfl⟩ := k.leader
  have htu : t = u := by simpa [ht] using hu
  subst htu
  have hs := k.express.symm.trans h.express
  exact ⟨rfl, by simpa using hs⟩

end Expresses

end Equation

/-- The second table has the entries of the first and those that rows show, the later ones in the
place of the earlier. -/
structure Records {α : Type} (shows : Equation → Name → α → Prop) (rows : List Equation)
    (b b' : Bindings α) : Prop where
  of_get? : ∀ n x, b'.get? n = some x → (∃ row ∈ rows, shows row n x) ∨ b.get? n = some x
  to_keys : ∀ n, (∃ row ∈ rows, ∃ x, shows row n x) ∨ n ∈ b.keys → n ∈ b'.keys
  ascending : Name.IsAscending b.keys → Name.IsAscending b'.keys

namespace Records

variable {α : Type} {shows : Equation → Name → α → Prop} {row : Equation} {rows : List Equation}
  {b b' : Bindings α}

theorem nil (b : Bindings α) : Records shows [] b b := by
  refine ⟨fun n x h => .inr h, fun n h => ?_, id⟩
  simpa using h

theorem cons (hrow : ∀ n x, ¬shows row n x) (h : Records shows rows b b') :
    Records shows (row :: rows) b b' := by
  refine ⟨fun n x hx => ?_, fun n hn => ?_, h.ascending⟩
  · rcases h.of_get? n x hx with ⟨r, hr, hx⟩ | hx
    · exact .inl ⟨r, .tail row hr, hx⟩
    · exact .inr hx
  · apply h.to_keys
    simpa [hrow] using hn

theorem cons_insert {n : Name} {x : α} (hrow : shows row n x)
    (hn : ∀ m y, shows row m y → m = n) (h : Records shows rows (b.insert n x) b') :
    Records shows (row :: rows) b b' := by
  refine ⟨fun m y hy => ?_, fun m hm => ?_, fun hb => h.ascending ?_⟩
  · rcases h.of_get? m y hy with ⟨r, hr, hy⟩ | hy
    · exact .inl ⟨r, .tail row hr, hy⟩
    · rw [Bindings.get?_insert] at hy
      split at hy
      · next hmn =>
        cases hy
        exact .inl ⟨row, .head rows, hmn ▸ hrow⟩
      · exact .inr hy
  · apply h.to_keys
    rw [Bindings.keys_insert, Name.mem_insertInto]
    rcases hm with ⟨r, hr, y, hy⟩ | hm
    · rcases List.mem_cons.1 hr with rfl | hr
      · exact .inr (.inl (hn m y hy))
      · exact .inl ⟨r, hr, y, hy⟩
    · exact .inr (.inr hm)
  · rw [Bindings.keys_insert]
    exact hb.insertInto n

/-- What the rows agree on is found in the table, and nothing else is. -/
theorem get?_eq_some_iff (h : Records shows rows {} b')
    (agree : ∀ a ∈ rows, ∀ b ∈ rows, ∀ n x y, shows a n x → shows b n y → x = y) {n : Name}
    {x : α} : b'.get? n = some x ↔ ∃ row ∈ rows, shows row n x := by
  have of (y : α) (hy : b'.get? n = some y) : ∃ row ∈ rows, shows row n y := by
    simpa using h.of_get? n y hy
  refine ⟨of x, fun h' => ?_⟩
  obtain ⟨row, hr, hx⟩ := h'
  obtain ⟨y, hy⟩ := Bindings.mem_keys.1 (h.to_keys n (.inl ⟨row, hr, x, hx⟩))
  obtain ⟨r, hr', hy'⟩ := of y hy
  rw [hy, agree row hr r hr' n x y hx hy']

end Records

/-- What reading off the rows adds to the tables, and whether they were all directly solved. -/
structure Reads (rows : List Equation) (s : Solution) (complete : Bool) (a : Solution)
    (complete' : Bool) : Prop where
  known : Records Equation.Assigns rows s.known a.known
  expressed : Records Equation.Expresses rows s.expressed a.expressed
  complete : complete' = true ↔ complete = true ∧ ∀ row ∈ rows, ¬row.IsUnsolved
  shown : ∀ row ∈ rows, row.solution? = .ok (some .trivial) ∨ (∃ n x, row.Assigns n x) ∨
    ∃ n ts, row.Expresses n ts

theorem reads_of_readOff {rows : List Equation} {s a : Solution} {complete complete' : Bool}
    (hc : ∀ row ∈ rows, row.IsCanonical)
    (h : readOff rows s complete = .ok (some (a, complete'))) :
    Reads rows s complete a complete' := by
  induction rows generalizing s complete with
  | nil =>
    cases h
    exact ⟨.nil _, .nil _, by simp, by simp⟩
  | cons row rest ih =>
    obtain ⟨hrow, hrest⟩ := List.forall_mem_cons.1 hc
    rw [readOff] at h
    split at h
    · cases h
    · obtain ⟨d, hd, h⟩ := bind_eq_ok.1 h
      -- a row of another kind shows nothing of this kind
      have hassigns (hn : ∀ n x, d ≠ some (.assignment n x)) (n : Name) (x : Fraction) :
          ¬row.Assigns n x := by
        intro ha
        exact hn n x (Except.ok.inj (hd.symm.trans ha))
      have hexpresses (hn : d ≠ none) (n : Name) (ts : List Term) : ¬row.Expresses n ts := by
        intro ha
        exact hn (Except.ok.inj (hd.symm.trans ha.isUnsolved))
      have hunsolved : row.IsUnsolved ↔ d = none := by
        rw [Equation.IsUnsolved, hd, Except.ok.injEq]
      cases d with
      | none =>
        obtain ⟨t, ts, ht, _, hn⟩ := Equation.exists_leader hrow hd
        have hlead : row.leadingTerm? = some t := by simp [Equation.leadingTerm?, ht]
        rw [hlead] at h
        obtain ⟨us?, hus, h⟩ := bind_eq_ok.1 h
        cases us? with
        | none => exact absurd (by simp [ht]) (Equation.express?_eq_none hrow hus)
        | some us =>
          have hr := ih hrest h
          have he : row.Expresses t.name us := ⟨hd, ⟨t, hlead, rfl⟩, hus⟩
          refine ⟨.cons (hassigns (by simp)) hr.known,
            .cons_insert he (fun m ws hw => (he.unique hw).1) hr.expressed, ?_, ?_⟩
          · rw [hr.complete]
            simp [hunsolved]
          · exact List.forall_mem_cons.2 ⟨.inr (.inr ⟨_, _, he⟩), hr.shown⟩
      | some d =>
        cases d with
        | assignment n x =>
          have hr := ih hrest h
          refine ⟨.cons_insert hd (fun m y hy => (Equation.assigns_unique hd hy).1) hr.known,
            .cons (hexpresses (by simp)) hr.expressed, ?_, ?_⟩
          · rw [hr.complete]
            simp [hunsolved]
          · exact List.forall_mem_cons.2 ⟨.inr (.inl ⟨n, x, hd⟩), hr.shown⟩
        | trivial =>
          have hr := ih hrest h
          refine ⟨.cons (hassigns (by simp)) hr.known, .cons (hexpresses (by simp)) hr.expressed,
            ?_, ?_⟩
          · rw [hr.complete]
            simp [hunsolved]
          · exact List.forall_mem_cons.2 ⟨.inl hd, hr.shown⟩

theorem exists_isContradiction_of_readOff {rows : List Equation} {s : Solution} {complete : Bool}
    (h : readOff rows s complete = .ok none) : ∃ row ∈ rows, row.isContradiction := by
  induction rows generalizing s complete with
  | nil => cases h
  | cons row rest ih =>
    have tail {s : Solution} {complete : Bool} (h : readOff rest s complete = .ok none) :
        ∃ r ∈ row :: rest, r.isContradiction := by
      obtain ⟨r, hr, hc⟩ := ih h
      exact ⟨r, .tail row hr, hc⟩
    rw [readOff] at h
    split at h
    · next hc => exact ⟨row, .head rest, hc⟩
    · obtain ⟨d, hd, h⟩ := bind_eq_ok.1 h
      split at h
      · exact tail h
      · exact tail h
      · split at h
        · exact tail h
        · obtain ⟨us?, _, h⟩ := bind_eq_ok.1 h
          split at h <;> exact tail h

end ExactLinear
