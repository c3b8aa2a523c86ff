import ExactLinear.Proofs.Elimination.Evaluation
import ExactLinear.Proofs.Elimination.Reports
import ExactLinear.Proofs.Failures.Solving

/-! # Termination

Every pass but the first and the last makes a reduction, so elimination comes to its end if and only
if the reductions do. Under a policy that orders the names they use up the places left to the rows.
With ties rows can come back to an earlier form, and then the passes never end.
-/

namespace ExactLinear

section

variable {a b passes : ℕ} {rows mid rest : List Equation}

/-- After passes that come to an end, further ones would change nothing. -/
theorem eliminate_of_le (hab : a ≤ b)
    (h : ∀ rest, (eliminate a rows).result ≠ .ok (rest, .unfinished)) :
    eliminate b rows = eliminate a rows := by
  induction a generalizing b rows with
  | zero => exact absurd rfl (h rows)
  | succ a ih =>
    obtain ⟨b, rfl⟩ := Nat.exists_eq_succ_of_ne_zero (by omega : b ≠ 0)
    rw [eliminate, eliminate]
    refine Logged.bind_congr fun r hr => Logged.bind_congr fun t ht => ?_
    obtain ⟨mid, step⟩ := r
    obtain ⟨rest, rounds, v⟩ := t
    by_cases hv : v = .contradiction
    · simp [hv]
    by_cases hn : step = none ∧ rounds = 0
    · simp [hn]
    have hrest : eliminate b rest = eliminate a rest := by
      apply ih (by omega)
      intro last hlast
      exact h last ((eliminate_succ_of_goesOn a hr ht hv hn).trans hlast)
    simp only [hrest]

/-- Passes that are cut short go on where they stopped. -/
theorem eliminate_add (h : (eliminate a rows).result = .ok (mid, .unfinished)) :
    (eliminate (a + b) rows).result = (eliminate b mid).result := by
  induction a generalizing rows with
  | zero => cases h; rw [Nat.zero_add]
  | succ a ih =>
    obtain ⟨_, step, rest, rounds, v, hr, hs, hv, hn, hrec⟩ := eliminate_succ_eq_unfinished h
    rw [Nat.succ_add, eliminate_succ_of_goesOn (a + b) hr hs hv hn, ih hrec]

theorem eliminate_mul (h : (eliminate a rows).result = .ok (rows, .unfinished)) (k : ℕ) :
    (eliminate (a * k) rows).result = .ok (rows, .unfinished) := by
  induction k with
  | zero => rfl
  | succ k ih => rw [Nat.mul_succ, eliminate_add ih, h]

theorem le_length_reductions_of_atRest (hrows : AtRest rows)
    (h : (eliminate passes rows).result = .ok (rest, .unfinished)) :
    passes ≤ (eliminate passes rows).reductions.length := by
  induction passes generalizing rows with
  | zero => exact Nat.zero_le _
  | succ passes ih =>
    obtain ⟨mid, step, next, rounds, v, hr, hs, hv, hn, hrec⟩ := eliminate_succ_eq_unfinished h
    have hnext := ih (atRest_of_settle hs hv) hrec
    have hstep : step ≠ none := by
      rintro rfl
      obtain ⟨rfl, _⟩ := reduce_eq_none hr
      cases hs.symm.trans hrows.settle
      exact hn ⟨rfl, rfl⟩
    obtain ⟨step, rfl⟩ := Option.ne_none_iff_exists'.1 hstep
    rw [reductions_eliminate_succ passes hr hs, if_neg (by simp [hv]), List.length_append]
    simp only [Option.toList_some, List.length_singleton]
    omega

/-- The first pass may do without a reduction, because it can find something to substitute. -/
theorem le_length_reductions (h : (eliminate passes rows).result = .ok (rest, .unfinished)) :
    passes ≤ (eliminate passes rows).reductions.length + 1 := by
  cases passes with
  | zero => exact Nat.zero_le _
  | succ passes =>
    obtain ⟨mid, step, next, rounds, v, hr, hs, hv, hn, hrec⟩ := eliminate_succ_eq_unfinished h
    have hnext := le_length_reductions_of_atRest (atRest_of_settle hs hv) hrec
    rw [reductions_eliminate_succ passes hr hs, if_neg (by simp [hv, hn]), List.length_append]
    omega

end

namespace LinearSystem

variable {s : LinearSystem}

theorem reductions_eliminate (s : LinearSystem) (passes : ℕ) :
    (s.eliminate passes).reductions = (ExactLinear.eliminate passes s.equations).reductions := by
  rw [eliminate]
  cases h : (ExactLinear.eliminate passes s.equations).result with
  | error f => rw [Logged.reductions_bind_of_error h]
  | ok r => rw [Logged.reductions_bind_of_ok h, Logged.reductions_pure, List.append_nil]

theorem reductions_solve (s : LinearSystem) (passes : ℕ) :
    (s.solve passes).reductions = (s.eliminate passes).reductions := by
  rw [solve]
  cases h : (s.eliminate passes).result with
  | error f => rw [Logged.reductions_bind_of_error h]
  | ok r =>
    obtain ⟨after, ending⟩ := r
    rw [Logged.reductions_bind_of_ok h]
    cases ending with
    | unfinished => exact List.append_nil _
    | contradiction => exact List.append_nil _
    | finished =>
      dsimp only
      rw [Logged.reductions_bind_eq_nil rfl fun _ _ => rfl, List.append_nil]

/-- So many passes bring elimination to its end, or a number without a word stops it before. -/
def Halts (s : LinearSystem) (passes : ℕ) : Prop :=
  (∃ r ending, (s.eliminate passes).result = .ok (r, ending) ∧ ending ≠ .unfinished) ∨
    ∃ f, (s.eliminate passes).result = .error f ∧ f.IsOverflow

theorem halts_iff (hs : s.IsTidy) {passes : ℕ} : s.Halts passes ↔
    ∀ rest, (ExactLinear.eliminate passes s.equations).result ≠ .ok (rest, .unfinished) := by
  rw [Halts, eliminate_result]
  cases h : (ExactLinear.eliminate passes s.equations).result with
  | error f =>
    have hf := overflows_eliminate hs f h
    simp [Except.map, hf]
  | ok r =>
    obtain ⟨rows, ending⟩ := r
    simp [Except.map, eq_comm]

theorem eliminate_of_halts (hs : s.IsTidy) {a b : ℕ} (h : s.Halts a) (hab : a ≤ b) :
    s.eliminate b = s.eliminate a := by
  rw [eliminate, eliminate, eliminate_of_le hab ((halts_iff hs).1 h)]

theorem solve_of_halts (hs : s.IsTidy) {a b : ℕ} (h : s.Halts a) (hab : a ≤ b) :
    s.solve b = s.solve a := by
  rw [solve, solve, eliminate_of_halts hs h hab]

theorem exists_outcome_of_halts (hs : s.IsTidy) {passes : ℕ} (h : s.Halts passes) :
    (∃ r o, (s.solve passes).result = .ok (r, some o)) ∨
      ∃ f, (s.solve passes).result = .error f ∧ f.IsOverflow := by
  cases hsolve : (s.solve passes).result with
  | error f => exact .inr ⟨f, rfl, overflows_solve hs passes f hsolve⟩
  | ok r =>
    obtain ⟨r, o?⟩ := r
    cases o? with
    | some o => exact .inl ⟨r, o, rfl⟩
    | none =>
      obtain ⟨⟨after, ending⟩, he, hr⟩ := Logged.bind_result_eq_ok.1 hsolve
      cases ending with
      | contradiction => cases hr
      | finished =>
        obtain ⟨o, _, hr⟩ := Logged.bind_result_eq_ok.1 hr
        cases hr
      | unfinished =>
        rcases h with ⟨r', ending, he', hne⟩ | ⟨f, hf, _⟩
        · cases he.symm.trans he'
          exact absurd rfl hne
        · cases he.symm.trans hf

theorem mentions_unknowns (s : LinearSystem) : Mentions s.equations s.unknowns := by
  intro row hr n hn
  exact mem_unknowns.2 ⟨row, hr, hn⟩

section

variable (hs : s.IsTidy) (hp : s.policy.OrdersNames)

include hs hp

theorem length_reductions_le (passes : ℕ) :
    (s.eliminate passes).reductions.length ≤ s.equations.length * s.unknowns.length := by
  rw [reductions_eliminate]
  exact (length_reductions_eliminate_le_headroom hp passes hs s.mentions_unknowns).trans
    headroom_le_mul

theorem halts_passBound : s.Halts s.passBound := by
  rw [halts_iff hs]
  intro rest h
  have hbound := length_reductions_le hs hp s.passBound
  rw [reductions_eliminate] at hbound
  have hsplit : s.passBound = s.equations.length * s.unknowns.length + s.equations.length +
      s.unknowns.length + 1 := by
    rw [passBound]
    ring
  by_cases hnil : s.equations = []
  · -- the one pass over no equations would have to make a reduction
    have hrest : AtRest s.equations := by
      rw [hnil]
      rfl
    have hlow := le_length_reductions_of_atRest hrest h
    omega
  · have hpos := List.length_pos_iff.2 hnil
    have hlow := le_length_reductions h
    omega

/-- A reduction uses up a place that no later step gives back, so the equations before it do not
come back. -/
theorem equations_ne_of_reduce {r u : LinearSystem} {step : Reduction}
    (hr : s.reduce.result = .ok (r, some step)) (hu : r.LeadsTo u) :
    u.equations ≠ s.equations := by
  obtain ⟨⟨rows, step?⟩, hrows, h⟩ := Logged.bind_result_eq_ok.1 hr
  cases h
  have hsteps := (steps_reduce hrows).1
  have hlt := headroom_of_reduce hp hs s.mentions_unknowns hrows
  have hle := hu.evolves.steps.headroom_le hp (hsteps.areTidy hs)
    (hsteps.mentions s.mentions_unknowns)
  intro heq
  rw [heq] at hle
  rw [Option.toList_some, List.length_singleton] at hlt
  dsimp only at hle
  omega

end

theorem rounds_le (hs : s.IsTidy) {k : ℕ} {rows : List Equation} (h : Rounds k s.equations rows) :
    k ≤ s.equations.length * s.unknowns.length := by
  have hcount := h.variableCount_add_le
  have hle := variableCount_le_mul hs s.mentions_unknowns
  omega

/-- Under a built-in policy the passes and the rounds within a pass come to their end, and there are
no more reductions than pairs of an equation and an unknown. -/
theorem halts_of_isBuiltIn {allowed : Policy → Prop} (hs : s.Reachable allowed)
    (hp : s.policy.isBuiltIn) :
    s.Halts s.passBound ∧
      ((∃ r o, (s.solve s.passBound).result = .ok (r, some o)) ∨
        ∃ f, (s.solve s.passBound).result = .error f ∧ f.IsOverflow) ∧
      (∀ passes, s.passBound ≤ passes →
        s.eliminate passes = s.eliminate s.passBound ∧ s.solve passes = s.solve s.passBound) ∧
      (∀ t k rows, s.LeadsTo t → Rounds k t.equations rows →
        k ≤ s.equations.length * s.unknowns.length) ∧
      ∀ passes, (s.eliminate passes).reductions.length ≤ s.equations.length * s.unknowns.length ∧
        (s.solve passes).reductions.length ≤ s.equations.length * s.unknowns.length := by
  have ht := hs.isTidy
  have hnames := Policy.ordersNames_of_isBuiltIn hp
  have hhalts := halts_passBound ht hnames
  refine ⟨hhalts, exists_outcome_of_halts ht hhalts, fun passes hle => ?_,
    fun t k rows hst hk => ?_, fun passes => ?_⟩
  · exact ⟨eliminate_of_halts ht hhalts hle, solve_of_halts ht hhalts hle⟩
  · have he := hst.evolves
    have hbound := rounds_le (he.isTidy ht) hk
    rwa [he.steps.length_eq, he.unknowns] at hbound
  · rw [reductions_solve]
    exact ⟨length_reductions_le ht hnames passes, length_reductions_le ht hnames passes⟩

def fourSums (p : Policy) : LinearSystem :=
  let row := Equation.ofPairs .descending
  withPolicy (.ofEquations [row [(1, "z"), (1, "y"), (1, "w")],
    row [(1, "y"), (1, "x"), (1, "w"), (1, "v")], row [(1, "z"), (1, "x"), (1, "v")],
    row [(1, "x"), (1, "v")]]) p

theorem reachable_fourSums {allowed : Policy → Prop} {p : Policy} (hp : allowed p) :
    (fourSums p).Reachable allowed :=
  .withPolicy hp (.push (.push (.push (.push .empty (.of_terms (by cbv))) (.of_terms (by cbv)))
    (.of_terms (by cbv))) (.of_terms (by cbv)))

/-- Thirty passes suffice for the four sums in descending order, with twenty reductions at most. -/
theorem halts_of_isBuiltIn_fourSums :
    (fourSums .descending).Reachable (fun p => p.isBuiltIn) ∧
      (fourSums .descending).policy.isBuiltIn ∧ (fourSums .descending).Halts 30 ∧
        ∀ passes, ((fourSums .descending).solve passes).reductions.length ≤ 20 := by
  have hs : (fourSums .descending).Reachable fun p => p.isBuiltIn := reachable_fourSums rfl
  have h := halts_of_isBuiltIn hs rfl
  have hbound : (fourSums .descending).passBound = 30 := by cbv
  have hcount : (fourSums .descending).equations.length * (fourSums .descending).unknowns.length =
      20 := by cbv
  rw [hbound, hcount] at h
  exact ⟨hs, rfl, h.1, fun passes => (h.2.2.2.2 passes).2⟩

/-- Under any policy elimination comes to its end if the reductions do. Both happen, and no rows
come back after a reduction, if the policy orders the names. -/
theorem halts_iff_reductions_bounded {allowed : Policy → Prop} (hs : s.Reachable allowed) :
    ((∃ passes, s.Halts passes) ↔
      ∃ bound, ∀ passes, (s.eliminate passes).reductions.length ≤ bound) ∧
      (s.policy.OrdersNames → s.Halts s.passBound ∧
        ∀ t r u step, s.LeadsTo t → t.reduce.result = .ok (r, some step) → r.LeadsTo u →
          u.equations ≠ t.equations) := by
  have ht := hs.isTidy
  refine ⟨⟨fun h => ?_, fun h => ?_⟩, fun hp => ⟨halts_passBound ht hp, ?_⟩⟩
  · obtain ⟨a, ha⟩ := h
    refine ⟨a, fun passes => ?_⟩
    rcases Nat.le_total passes a with hpa | hpa
    · rw [reductions_eliminate]
      exact (length_reductions_eliminate_le passes s.equations).trans hpa
    · rw [eliminate_of_halts ht ha hpa, reductions_eliminate]
      exact length_reductions_eliminate_le a s.equations
  · obtain ⟨bound, hbound⟩ := h
    refine ⟨bound + 2, (halts_iff ht).2 fun rest hrest => ?_⟩
    have hlow := le_length_reductions hrest
    have hle := hbound (bound + 2)
    rw [reductions_eliminate] at hle
    omega
  · intro t r u step hst hr hu
    have he := hst.evolves
    exact equations_ne_of_reduce (he.isTidy ht) (he.policy ▸ hp) hr hu

def byName : Policy := .custom "Name" fun t u => t.name.compare u.name

/-- A comparison of names of one's own halts as the built-in ones do. -/
theorem halts_iff_reductions_bounded_fourSums :
    (fourSums byName).Reachable (fun _ => True) ∧ byName.OrdersNames ∧
      (fourSums byName).Halts 30 := by
  have hs : (fourSums byName).Reachable fun _ => True := reachable_fourSums trivial
  have hp : (fourSums byName).policy.OrdersNames := Policy.ordersNames_custom "Name" Name.compare
  have hbound : (fourSums byName).passBound = 30 := by cbv
  have h := ((halts_iff_reductions_bounded hs).2 hp).1
  rw [hbound] at h
  exact ⟨hs, hp, h⟩

/-- All variables tie, so that they keep the order in which they came. -/
def byInsertion : Policy := .custom "Insertion" fun _ _ => .eq

theorem isLawful_byInsertion : byInsertion.IsLawful :=
  show Std.TransCmp fun _ _ : Term => Ordering.eq from
    { eq_swap := rfl, isLE_trans := fun _ _ => rfl }

def fourSumsReduced : List Equation :=
  let row := Equation.ofPairs byInsertion
  [row [(1, "z"), (1, "y"), (1, "w")], row [(1, "y"), (1, "x"), (1, "w"), (1, "v")],
    row [(1, "x"), (1, "v"), (-1, "y"), (-1, "w")], row [(1, "x"), (1, "v")]]

/-- Where all variables tie the four sums go round in a circle of four passes, and never halt. -/
theorem not_halts_fourSums :
    (fourSums byInsertion).Reachable Policy.IsLawful ∧
      (∀ k, ((fourSums byInsertion).eliminate (1 + 4 * k)).result =
        .ok (⟨byInsertion, fourSumsReduced⟩, .unfinished)) ∧
          ∀ passes, ¬(fourSums byInsertion).Halts passes := by
  have hs : (fourSums byInsertion).Reachable Policy.IsLawful :=
    reachable_fourSums isLawful_byInsertion
  have hfirst : (ExactLinear.eliminate 1 (fourSums byInsertion).equations).result =
      .ok (fourSumsReduced, .unfinished) :=
    eliminate_of_eliminateWithin (show eliminateWithin 1 1 _ = _ by cbv)
  have hcircle : (ExactLinear.eliminate 4 fourSumsReduced).result =
      .ok (fourSumsReduced, .unfinished) :=
    eliminate_of_eliminateWithin (show eliminateWithin 1 4 _ = _ by cbv)
  have hall (k : ℕ) : ((fourSums byInsertion).eliminate (1 + 4 * k)).result =
      .ok (⟨byInsertion, fourSumsReduced⟩, .unfinished) := by
    rw [eliminate_result, eliminate_add hfirst, eliminate_mul hcircle]
    rfl
  refine ⟨hs, hall, fun passes h => ?_⟩
  -- a system that halts would do so at every later return as well
  have hsame := eliminate_of_halts hs.isTidy h (show passes ≤ 1 + 4 * passes by omega)
  have hlast := hall passes
  rw [hsame] at hlast
  rcases h with ⟨r, ending, hr, hne⟩ | ⟨f, hf, _⟩
  · cases hlast.symm.trans hr
    exact hne rfl
  · cases hlast.symm.trans hf

end LinearSystem
end ExactLinear
