import ExactLinear.Proofs.Elimination.Evaluation
import ExactLinear.Proofs.Failures.Arithmetic

/-! # What a direct solution tells

The number of variables decides what an equation says by itself. Without a variable it holds always
or never, and with one it gives that variable a value. With two or more it leaves all but one of
them free. To ask whether there is a direct solution is to compute it, so that the question has an
answer only where the value of the variable has one.
-/

namespace ExactLinear

/-- The root is computed if it has words and the steps on the way to it have. -/
theorem Fraction.exists_root_iff {a c : Fraction} (ha : a ≠ zero) : (∃ x, a.root c = .ok x) ↔
    c = zero ∨ c.HasOpposite ∧ a.HasOpposite ∧ HasWords (-c.value / a.value) := by
  rw [root]
  split_ifs with hc
  · simp [hc]
  · rw [or_iff_right hc]
    by_cases ho : c.HasOpposite
    · obtain ⟨d, hd, hv, _⟩ := exists_neg ho
      rw [hd, ok_bind, ← hv]
      by_cases hao : a.HasOpposite
      · rw [div_eq_ofRat d hao ha, (isExact_ofRat _).exists_ok_iff]
        simp [ho, hao]
      · simp [div_eq_overflow d hao, hao]
    · rw [neg_eq_overflow ho]
      simp [ho, bind, Except.bind]

theorem Fraction.value_whole {n : ℤ} (h : FitsWord n) : (whole n).value = n := by
  obtain ⟨a, ha, _⟩ := exists_ofRat (q := n) (by rwa [Rat.num_intCast])
    (by rw [Rat.den_intCast]; decide)
  have hwhole : whole n = a := by
    rw [whole, ofInt_eq_ofRat, ha]
    rfl
  rw [hwhole, value_of_ofRat ha]

namespace Equation

variable {e : Equation} {n : Name} {x : Fraction}

/-- Whatever the other variables are, one value of a variable satisfies the equation. -/
theorem satisfied_update_iff (hc : e.IsCanonical) {t : Term} (ht : t ∈ e.terms)
    (hv : t.isConstant = false) (v : Valuation) (q : ℚ) :
    e.Satisfied (Function.update v t.name q) ↔
      q = v t.name - Term.evalSum v e.terms / t.coefficient.value := by
  have h0 := Fraction.value_ne_zero (hc.nonzero t ht)
  rw [Satisfied, evalSum_update hc ht hv]
  field_simp
  constructor <;> intro h <;> linarith

theorem exists_satisfied_of_mem (hc : e.IsCanonical) (hn : n ∈ e.unknowns) :
    ∃ v, e.Satisfied v := by
  obtain ⟨t, ht, hv, rfl⟩ := mem_unknowns.1 hn
  exact ⟨_, (satisfied_update_iff hc ht hv 0 _).2 rfl⟩

theorem exists_not_satisfied_of_mem (hc : e.IsCanonical) (hn : n ∈ e.unknowns) :
    ∃ v, ¬e.Satisfied v := by
  obtain ⟨t, ht, hv, rfl⟩ := mem_unknowns.1 hn
  by_contra! hall
  have h0 := (satisfied_update_iff hc ht hv 0 0).1 (hall _)
  have h1 := (satisfied_update_iff hc ht hv 0 1).1 (hall _)
  linarith

theorem isContradiction_iff_not_satisfied (hc : e.IsCanonical) :
    e.isContradiction ↔ ∀ v, ¬e.Satisfied v := by
  refine ⟨not_satisfied_of_isContradiction hc, fun h => ?_⟩
  by_contra hcon
  rw [Bool.not_eq_true] at hcon
  cases hu : e.unknowns with
  | nil =>
    refine h 0 ?_
    rw [Satisfied, terms_eq_nil_of_unknowns hc hcon hu, Term.evalSum_nil]
  | cons n ns =>
    obtain ⟨v, hv⟩ := exists_satisfied_of_mem hc (n := n) (by simp [hu])
    exact h v hv

theorem solution?_eq_trivial_iff (hc : e.IsCanonical) :
    e.solution? = .ok (some .trivial) ↔ ∀ v, e.Satisfied v := by
  refine ⟨satisfied_of_solution?_trivial, fun h => ?_⟩
  refine solution?_of_unknowns_eq_nil hc ?_ ?_
  · by_contra hcon
    exact (isContradiction_iff_not_satisfied hc).1 (by simpa using hcon) 0 (h 0)
  · rw [List.eq_nil_iff_forall_not_mem]
    intro n hn
    obtain ⟨v, hv⟩ := exists_not_satisfied_of_mem hc hn
    exact hv (h v)

theorem solution?_eq_none_iff (hc : e.IsCanonical) :
    e.solution? = .ok none ↔ 2 ≤ e.unknowns.length :=
  ⟨two_le_of_solution?_none hc, solution?_of_two_le⟩

theorem exists_assigns_iff (hc : e.IsCanonical) {s : Option DirectSolution}
    (h : e.solution? = .ok s) :
    (∃ n x, s = some (.assignment n x)) ↔ e.unknowns.length = 1 := by
  match s with
  | none =>
    have h2 := two_le_of_solution?_none hc h
    simp only [reduceCtorEq, exists_false, false_iff]
    omega
  | some .trivial =>
    simp [unknowns, variableTerms, terms_of_solution?_trivial h]
  | some (.assignment n x) =>
    simp [unknowns_of_solution?_assignment h]

theorem length_unknowns_of_solution?_error (hc : e.IsCanonical) (hcon : e.isContradiction = false)
    {f : Fault} (h : e.solution? = .error f) : e.unknowns.length = 1 := by
  obtain ⟨_, hs⟩ | ⟨t, hv, _⟩ | ⟨_, hs⟩ := solution?_cases hc hcon
  · cases hs.symm.trans h
  · simp [unknowns, hv]
  · cases hs.symm.trans h

/-- Expressed by an equation without another variable, a variable is the sum of constants that its
direct solution gives. -/
theorem evalSum_of_express? (hc : e.IsCanonical) {us : List Term}
    (hs : e.solution? = .ok (some (.assignment n x))) (h : e.express? n = .ok (some us))
    (v : Valuation) : Term.evalSum v us = x.value := by
  have hu := unknowns_of_solution?_assignment hs
  have hb := isBlank_of_solution? hs
  obtain ⟨left, t, right, he, rfl, hnames, hsat⟩ := express?_eq_some hb h
  have hnodup := hc.nodup
  rw [he, List.map_append, List.map_cons, List.nodup_middle, List.nodup_cons,
    ← List.map_append, ← hnames] at hnodup
  -- the terms on the other side are constants
  have hconst (u : Term) (hmem : u ∈ us) : u.isConstant := by
    by_contra hv
    have hname : u.name ∈ us.map Term.name := List.mem_map_of_mem hmem
    have hin : u.name ∈ e.unknowns := by
      refine mem_unknowns_iff_names.2 ⟨?_, by simpa [Term.isConstant] using hv⟩
      rw [hnames] at hname
      rw [he]
      simp only [List.map_append, List.map_cons, List.mem_append, List.mem_cons] at hname ⊢
      tauto
    rw [hu, List.mem_singleton] at hin
    exact hnodup.1 (hin ▸ hname)
  have hsum : Term.evalSum (Function.update v t.name (Term.evalSum v us)) us =
      Term.evalSum v us := by
    refine Term.evalSum_congr fun u hmem hv => ?_
    rw [hconst u hmem] at hv
    cases hv
  have hholds := (hsat (Function.update v t.name (Term.evalSum v us))).2
    (by rw [hsum, Function.update_self])
  rw [satisfied_of_solution?_assignment hc hs, Function.update_self] at hholds
  exact hholds

/-- A contradiction is what no valuation satisfies, and a trivial equation what all of them satisfy.
There is an assignment if and only if there is one variable, unless it is too large to be computed,
and it gives the variable the value in all valuations that satisfy the equation, as expressing the
variable does. There is no direct solution if and only if there are two variables at least. -/
theorem solution?_of_reachable {allowed : Policy → Prop} (h : e.Reachable allowed) :
    (e.isContradiction ↔ ∀ v, ¬e.Satisfied v) ∧
      (e.solution? = .ok (some .trivial) ↔ ∀ v, e.Satisfied v) ∧
      (∀ s, e.solution? = .ok s →
        ((∃ n x, s = some (.assignment n x)) ↔ e.unknowns.length = 1)) ∧
      (∀ n x, e.solution? = .ok (some (.assignment n x)) →
        e.unknowns = [n] ∧ ∀ v, e.Satisfied v ↔ v n = x.value) ∧
      (e.solution? = .ok none ↔ 2 ≤ e.unknowns.length) ∧
      (∀ f, e.solution? = .error f →
        e.isContradiction ∨ f.IsOverflow ∧ e.unknowns.length = 1) ∧
      (∀ n f, e.express? n = .error f → f.IsOverflow) ∧
      ∀ n x us?, e.solution? = .ok (some (.assignment n x)) → e.express? n = .ok us? →
        ∃ us, us? = some us ∧ ∀ v, Term.evalSum v us = x.value := by
  have hc := h.isTidy.isCanonical
  refine ⟨isContradiction_iff_not_satisfied hc, solution?_eq_trivial_iff hc,
    fun s hs => exists_assigns_iff hc hs, fun n x hs => ?_, solution?_eq_none_iff hc,
    fun f hf => ?_, overflows_express? e, fun n x us? hs hus => ?_⟩
  · exact ⟨unknowns_of_solution?_assignment hs, satisfied_of_solution?_assignment hc hs⟩
  · by_cases hcon : e.isContradiction
    · exact .inl hcon
    · rw [Bool.not_eq_true] at hcon
      exact .inr ⟨overflows_solution? hc hcon f hf, length_unknowns_of_solution?_error hc hcon hf⟩
  · cases us? with
    | none =>
      have hmem : n ∈ e.unknowns := by simp [unknowns_of_solution?_assignment hs]
      exact absurd (mem_unknowns_iff_names.1 hmem).1 (express?_eq_none hc hus)
    | some us => exact ⟨us, rfl, evalSum_of_express? hc hs hus⟩

/-- The row that a reduction leaves of `x - y = 1` beside `y + x = 3` gives `y` the value one. -/
theorem solution?_of_reachable_firstValue :
    let rows : List Equation := [.ofPairs .descending [(1, "y"), (1, "x"), (-3, "")],
      .ofPairs .descending [(-1, "y"), (1, "x"), (-1, "")]]
    let row := ofPairs .descending [(1, "x"), (-2, "")]
    (LinearSystem.ofEquations rows).reduce.result = .ok
        (⟨.descending, [.ofPairs .descending [(1, "y"), (1, "x"), (-3, "")], row]⟩,
          some ⟨0, 1, .one⟩) ∧
      row.Reachable (fun p => p.isBuiltIn) ∧
      row.solution? = .ok (some (.assignment (.ofText "x") (.whole 2))) ∧
      (∀ v, row.Satisfied v ↔ v (.ofText "x") = (Fraction.whole 2).value) ∧
      ∃ us, row.express? (.ofText "x") = .ok (some us) ∧
        ∀ v, Term.evalSum v us = (Fraction.whole 2).value := by
  intro rows row
  have hred : (LinearSystem.ofEquations rows).reduce.result = .ok
      (⟨.descending, [.ofPairs .descending [(1, "y"), (1, "x"), (-3, "")], row]⟩,
        some ⟨0, 1, .one⟩) := by cbv
  have hsystem : (LinearSystem.ofEquations rows).Reachable fun p => p.isBuiltIn :=
    .push (.push .empty (.of_terms (by cbv))) (.of_terms (by cbv))
  have hreduced := LinearSystem.Reachable.reduce hsystem hred
  have hrow : row.Reachable fun p => p.isBuiltIn := (hreduced.of_mem rfl).2 row (by simp)
  have hs : row.solution? = .ok (some (.assignment (.ofText "x") (.whole 2))) := by cbv
  have hus : row.express? (.ofText "x") = .ok (some [.constant (.whole 2)]) := by cbv
  obtain ⟨_, _, _, hassign, _, _, _, hexpress⟩ := solution?_of_reachable hrow
  obtain ⟨us, hsome, hvalue⟩ := hexpress _ _ _ hs hus
  exact ⟨hred, hrow, hs, (hassign _ _ hs).2, us, hsome ▸ hus, hvalue⟩

/-- If one variable stands beside a constant, the opposite of the constant, the reciprocal of the
coefficient and the product of the two have words. -/
def IsAnswerable (e : Equation) : Prop := ∀ t, e.variableTerms = [t] → e.constant = .zero ∨
  e.constant.HasOpposite ∧ t.coefficient.HasOpposite ∧
    Fraction.HasWords (-e.constant.value / t.coefficient.value)

theorem hasSolution_eq (hcon : e.isContradiction = false) :
    e.hasSolution = Option.isSome <$> e.solution? := by
  rw [hasSolution, hcon, if_neg Bool.false_ne_true]
  cases e.solution? <;> rfl

theorem isAnswerable_iff (hc : e.IsCanonical) : e.IsAnswerable ↔ ∃ b, e.hasSolution = .ok b := by
  cases hcon : e.isContradiction with
  | true =>
    obtain ⟨u, hu, huc⟩ := isContradiction_iff.1 hcon
    have hv : e.variableTerms = [] := by simp [variableTerms, hu, huc]
    simp [IsAnswerable, hasSolution, hcon, hv, pure, Except.pure]
  | false =>
    rw [hasSolution_eq hcon]
    have hmap : (∃ b, Option.isSome <$> e.solution? = .ok b) ↔ ∃ s, e.solution? = .ok s := by
      simp only [map_eq_ok]
      constructor
      · rintro ⟨_, s, hs, _⟩
        exact ⟨s, hs⟩
      · rintro ⟨s, hs⟩
        exact ⟨_, s, hs, rfl⟩
    rw [hmap]
    obtain ⟨hv, hs⟩ | ⟨t, hv, h0, hs⟩ | ⟨hu, hs⟩ := solution?_cases hc hcon
    · simp [IsAnswerable, hv, hs]
    · simp [IsAnswerable, hv, hs, map_eq_ok, ← Fraction.exists_root_iff h0]
    · have hne (t) : e.variableTerms ≠ [t] := fun hv => by simp [unknowns, hv] at hu
      simp [IsAnswerable, hne, hs]

theorem hasSolution_eq_true_iff (hc : e.IsCanonical) {b : Bool} (h : e.hasSolution = .ok b) :
    b = true ↔ (∃ v, e.Satisfied v) ∧ e.unknowns.length ≤ 1 := by
  have hex : e.isContradiction = false ↔ ∃ v, e.Satisfied v := by
    rw [← Bool.not_eq_true, isContradiction_iff_not_satisfied hc, not_forall_not]
  rw [← hex]
  cases hcon : e.isContradiction with
  | true =>
    rw [hasSolution, hcon] at h
    cases h
    simp
  | false =>
    rw [hasSolution_eq hcon, map_eq_ok] at h
    obtain ⟨s, hs, rfl⟩ := h
    have hnone : s = none ↔ 2 ≤ e.unknowns.length := by
      rw [← solution?_eq_none_iff hc, hs, Except.ok.injEq]
    rw [← Option.ne_none_iff_isSome, Ne, hnone]
    simp

/-- Whether there is a direct solution is answered exactly where its value is computed, and rightly
then: a valuation satisfies the equation, and there is one variable at most. Elsewhere the question
fails as the value does. -/
theorem exists_hasSolution_iff {allowed : Policy → Prop} (h : e.Reachable allowed) :
    ((∃ b, e.hasSolution = .ok b) ↔ e.IsAnswerable) ∧
      (∀ b, e.hasSolution = .ok b →
        (b = true ↔ (∃ v, e.Satisfied v) ∧ e.unknowns.length ≤ 1)) ∧
      ∀ f, e.hasSolution = .error f → f.IsOverflow := by
  have hc := h.isTidy.isCanonical
  exact ⟨(isAnswerable_iff hc).symm, fun b hb => hasSolution_eq_true_iff hc hb,
    overflows_hasSolution hc⟩

def smallestTimes : Equation :=
  ofPairs .descending [(-9223372036854775808, "x"), (-4611686018427387904, "")]

def halfAndLargest : Equation where
  terms := [⟨⟨1, 2, .inr (by decide)⟩, .ofText "x"⟩, .constant (.whole 9223372036854775807)]

/-- The largest word over minus one is a value, so that there is an answer for `-x + (2^63 - 1)`. -/
theorem exists_hasSolution_iff_largest :
    let row := ofPairs .descending [(-1, "x"), (9223372036854775807, "")]
    row.Reachable (fun p => p.isBuiltIn) ∧ row.IsAnswerable ∧ row.hasSolution = .ok true ∧
      (∃ v, row.Satisfied v) ∧ row.unknowns.length ≤ 1 := by
  intro row
  have hrow : row.Reachable fun p => p.isBuiltIn := .of_terms (by cbv)
  have hs : row.hasSolution = .ok true := by cbv
  obtain ⟨hiff, hvalue, _⟩ := exists_hasSolution_iff hrow
  obtain ⟨hsat, hlen⟩ := (hvalue true hs).1 rfl
  exact ⟨hrow, hiff.1 ⟨true, hs⟩, hs, hsat, hlen⟩

set_option maxRecDepth 8000 in
/-- For two equations that are read without a fault there is no answer: one is solved by minus one
half, which is a fraction, and the other by a number that is none. -/
theorem not_exists_hasSolution_smallestTimes :
    parse "-9223372036854775807x - x = 4611686018427387904" = .ok smallestTimes ∧
      (∀ v, smallestTimes.Satisfied v ↔ v (.ofText "x") = -1 / 2) ∧
      (¬∃ b, smallestTimes.hasSolution = .ok b) ∧
      parse "1/2 x + 9223372036854775807 = 0" = .ok halfAndLargest ∧
      ¬∃ b, halfAndLargest.hasSolution = .ok b := by
  have hfail : smallestTimes.hasSolution = .error (.overflow 9223372036854775808) := by cbv
  have hfail' : halfAndLargest.hasSolution = .error (.overflow (-18446744073709551614)) := by cbv
  refine ⟨by cbv, fun v => ?_, by simp [hfail], by cbv, by simp [hfail']⟩
  have hsum : Term.evalSum v smallestTimes.terms =
      -9223372036854775808 * v (.ofText "x") + -4611686018427387904 := by
    have hx : (Name.ofText "x").isBlank = false := by decide
    have hc : (Name.ofText "").isBlank = true := by decide
    have h1 := Fraction.value_whole (n := -9223372036854775808) (by decide)
    have h2 := Fraction.value_whole (n := -4611686018427387904) (by decide)
    simp [smallestTimes, ofPairs, Term.eval, Term.isConstant, hx, hc, h1, h2]
  rw [Satisfied, hsum]
  constructor <;> intro h <;> linarith

end Equation
end ExactLinear
