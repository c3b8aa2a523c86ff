import ExactLinear.Proofs.Equation.Classification
import ExactLinear.Proofs.Outcome.Expressions
import ExactLinear.Proofs.Outcome.Policies

/-! # Determined unknowns

What is known is true in every solution. An unknown that has one value in all solutions is known, or
it has an expression that mentions another one with an expression: the two need not be put together
while solving. Which unknowns are known depends on the policy for this reason.
-/

namespace ExactLinear

/-- Valuations that satisfy an equation and agree on its other unknowns agree on this one. -/
theorem Equation.eq_of_satisfied {e : Equation} (hc : e.IsCanonical) {v w : Valuation}
    (hv : e.Satisfied v) (hw : e.Satisfied w) {m : Name} (hm : m ∈ e.unknowns)
    (h : ∀ n ∈ e.unknowns, n ≠ m → v n = w n) : v m = w m := by
  obtain ⟨t, ht, hvar, rfl⟩ := mem_unknowns.1 hm
  have hupdate : e.Satisfied (Function.update v t.name (w t.name)) := by
    rw [satisfied_congr (w := w)]
    · exact hw
    · intro n hn
      by_cases hne : n = t.name
      · rw [hne, Function.update_self]
      · rw [Function.update_of_ne hne, h n hn hne]
  have heval : Term.evalSum v e.terms = 0 := hv
  rw [satisfied_update_iff hc ht hvar, heval, zero_div, sub_zero] at hupdate
  exact hupdate.symm

namespace LinearSystem

/-- The unknown has this value in every solution. -/
def Determines (s : LinearSystem) (n : Name) (q : ℚ) : Prop :=
  n ∈ s.unknowns ∧ ∀ v, s.Satisfied v → v n = q

variable {s r : LinearSystem} {a : Solution} {n : Name} {q : ℚ}

theorem determines_withPolicy (p : Policy) :
    (s.withPolicy p).Determines n q ↔ s.Determines n q := by
  simp only [Determines, unknowns_withPolicy, satisfied_withPolicy]

section

variable (he : s.Evolves r) (hs : s.IsTidy) (h : a.Describes r.equations)

include he hs h

theorem determines_of_known {x : Fraction} (hx : a.known.get? n = some x) :
    s.Determines n x.value := by
  refine ⟨?_, fun v hv => ((satisfied_iff_holds he hs h v).1 hv).known n x hx⟩
  rw [← he.unknowns, mem_unknowns]
  exact h.exists_of_mem_known (Bindings.mem_keys.2 ⟨x, hx⟩)

variable {rank : Name → ℕ} (ht : a.IsTriangular s.unknowns rank)

include ht

theorem exists_satisfied_of_free (free : Valuation) :
    ∃ v, s.Satisfied v ∧ a.Holds v ∧ ∀ n, a.IsFree n → v n = free n := by
  obtain ⟨v, hv, hfree⟩ := ht.exists_holds free
  exact ⟨v, (satisfied_iff_holds he hs h v).2 hv, hv, hfree⟩

theorem not_determines_of_isFree (hf : a.IsFree n) : ¬s.Determines n q := by
  intro hn
  obtain ⟨v, hv, _, hfree⟩ := exists_satisfied_of_free he hs h ht fun _ => q + 1
  have hq := hn.2 v hv
  rw [hfree n hf] at hq
  linarith

theorem exists_expressed_of_determines (hn : s.Determines n q) {ts : List Term}
    (hts : a.expressed.get? n = some ts) :
    ∃ t ∈ ts, t.isConstant = false ∧ t.name ∈ a.expressed.keys := by
  by_contra hno
  have hfree (t : Term) (htm : t ∈ ts) (hv : t.isConstant = false) : a.IsFree t.name :=
    ⟨(ht.later n ts hts t.name (List.mem_map_of_mem htm) hv).2.1, fun hex =>
      hno ⟨t, htm, hv, hex⟩⟩
  obtain ⟨row, hr, hexp⟩ := (h.expressed n ts).1 hts
  have hc := (he.isTidy hs row hr).2.isCanonical
  obtain ⟨m, hm, hv⟩ := ht.mentions n ts hts
  obtain ⟨t, htm, rfl⟩ := List.mem_map.1 hm
  -- two solutions that differ in one of the free variables of the row, and in nothing else there
  obtain ⟨v, hsv, hov, hfv⟩ := exists_satisfied_of_free he hs h ht 0
  obtain ⟨w, hsw, how, hfw⟩ := exists_satisfied_of_free he hs h ht (Pi.single t.name 1)
  have hother : ∀ k ∈ row.unknowns, k ≠ t.name → v k = w k := by
    intro k hk hne
    rcases (hexp.mem_unknowns_iff hc).1 hk with rfl | ⟨u, hu, huv, rfl⟩
    · rw [hn.2 v hsv, hn.2 w hsw]
    · rw [hfv _ (hfree u hu huv), hfw _ (hfree u hu huv), Pi.single_eq_of_ne hne]
      rfl
  have hrow (v : Valuation) (hv : a.Holds v) : row.Satisfied v :=
    (hexp.satisfied_iff hc v).2 (hv.expressed n ts hts)
  have hmem := (hexp.mem_unknowns_iff hc).2 (.inr ⟨t, htm, hv, rfl⟩)
  have heq := Equation.eq_of_satisfied hc (hrow v hov) (hrow w how) hmem hother
  rw [hfv _ (hfree t htm hv), hfw _ (hfree t htm hv), Pi.single_eq_same] at heq
  exact zero_ne_one heq

/-- A determined unknown that is not known has an expression with another one in it. -/
theorem known_or_expressed (hn : s.Determines n q) :
    (a.known.get? n).map Fraction.value = some q ∨ ∃ ts, a.expressed.get? n = some ts ∧
      ∃ t ∈ ts, t.isConstant = false ∧ t.name ∈ a.expressed.keys := by
  rcases a.known_or_expressed_or_free n with ⟨x, hx⟩ | ⟨ts, hts⟩ | hf
  · obtain ⟨v, hv, hov, _⟩ := exists_satisfied_of_free he hs h ht 0
    refine .inl ?_
    rw [hx, ← hn.2 v hv, hov.known n x hx]
    rfl
  · exact .inr ⟨ts, hts, exists_expressed_of_determines he hs h ht hn hts⟩
  · exact absurd hn (not_determines_of_isFree he hs h ht hf)

theorem known_or_mem_expressed {x : Fraction} (hn : s.Determines n x.value) :
    a.known.get? n = some x ∨ n ∈ a.expressed.keys := by
  rcases known_or_expressed he hs h ht hn with hx | ⟨ts, hts, _⟩
  · obtain ⟨y, hy, hxy⟩ := Option.map_eq_some_iff.1 hx
    rw [hy, Fraction.value_injective hxy]
    exact .inl rfl
  · exact .inr (Bindings.mem_keys.2 ⟨ts, hts⟩)

theorem known_of_usesFreeOnly (hfree : a.UsesFreeOnly) (hn : s.Determines n q) :
    (a.known.get? n).map Fraction.value = some q := by
  refine (known_or_expressed he hs h ht hn).resolve_right fun hexp => ?_
  obtain ⟨ts, hts, t, htm, hv, hex⟩ := hexp
  exact (hfree n ts hts t htm hv).2 hex

theorem known_of_rank_lt (hlast : ∀ m ∈ s.unknowns, m ≠ n → rank m < rank n)
    (hn : s.Determines n q) : (a.known.get? n).map Fraction.value = some q := by
  refine (known_or_expressed he hs h ht hn).resolve_right fun hexp => ?_
  obtain ⟨ts, hts, t, htm, hv, _⟩ := hexp
  obtain ⟨hmem, _, hlt⟩ := ht.later n ts hts t.name (List.mem_map_of_mem htm) hv
  have hne : t.name ≠ n := by
    intro heq
    rw [heq] at hlt
    exact lt_irrefl _ hlt
  exact absurd (hlast t.name hmem hne) (Nat.lt_asymm hlt)

end

/-- Under a built-in policy what is known is determined, and a determined unknown is known or has
an expression with another one in it. It is known if the expressions use free variables only, or if
it comes after all other unknowns. What one built-in policy makes known, no other one leaves
free. -/
theorem known_or_expressed_of_determines {allowed : Policy → Prop} (hs : s.Reachable allowed)
    (hp : s.policy.isBuiltIn) (h : s.Returns r (.underdetermined a)) :
    (∀ n x, a.known.get? n = some x → s.Determines n x.value) ∧
      (∀ n q, s.Determines n q → (a.known.get? n).map Fraction.value = some q ∨
        ∃ ts, a.expressed.get? n = some ts ∧
          ∃ t ∈ ts, t.isConstant = false ∧ t.name ∈ a.expressed.keys) ∧
      (∀ n q, (a.UsesFreeOnly ∨ ∀ m ∈ s.unknowns, m ≠ n → s.policy.compareNames m n = .lt) →
        (s.Determines n q ↔ (a.known.get? n).map Fraction.value = some q)) ∧
      ∀ p r' b, p.isBuiltIn → (s.withPolicy p).Returns r' (.underdetermined b) →
        ∀ n x, a.known.get? n = some x → b.known.get? n = some x ∨ n ∈ b.expressed.keys := by
  have ht := hs.isTidy
  obtain ⟨he, hd, hset⟩ := describes_of_returns ht h
  have htri := isTriangular_of_describes he ht hd hp hset
  have hknown (n : Name) (x : Fraction) (hx : a.known.get? n = some x) :
      s.Determines n x.value := determines_of_known he ht hd hx
  refine ⟨hknown, fun n q hn => known_or_expressed he ht hd htri hn, fun n q hor => ⟨fun hn => ?_,
    fun hval => ?_⟩, fun p r' b hpb h' n x hx => ?_⟩
  · rcases hor with hfree | hlast
    · exact known_of_usesFreeOnly he ht hd htri hfree hn
    · have hords := Policy.ordersNames_of_isBuiltIn hp
      exact known_of_rank_lt he ht hd htri
        (fun m hm hne => hords.rank_lt_rank hm (hlast m hm hne)) hn
  · obtain ⟨x, hx, rfl⟩ := Option.map_eq_some_iff.1 hval
    exact hknown n x hx
  · -- the value is determined under the other policy as well
    have hn := (determines_withPolicy p).2 (hknown n x hx)
    have ht' := ht.withPolicy p
    obtain ⟨he', hd', hset'⟩ := describes_of_returns ht' h'
    have htri' := isTriangular_of_describes he' ht' hd' hpb hset'
    exact known_or_mem_expressed he' ht' hd' htri' hn

def nestedSums : LinearSystem :=
  let row := Equation.ofPairs .descending
  .ofEquations [row [(1, "z"), (1, "y"), (1, "x"), (-3, "")], row [(1, "y"), (1, "x"), (-1, "")]]

def nestedTables : Solution where
  expressed := ⟨[(.ofText "y", [⟨.whole (-1), .ofText "x"⟩, .constant (.whole 1)]),
    (.ofText "z", [⟨.whole (-1), .ofText "y"⟩, ⟨.whole (-1), .ofText "x"⟩,
      .constant (.whole 3)])]⟩

def nestedValue : Solution where
  known := ⟨[(.ofText "z", .whole 2)]⟩
  expressed := ⟨[(.ofText "x", [⟨.whole (-1), .ofText "y"⟩, .constant (.whole 1)])]⟩

theorem reachable_nestedSums (allowed : Policy → Prop) : nestedSums.Reachable allowed :=
  .push (.push .empty (.of_terms (by cbv))) (.of_terms (by cbv))

theorem returns_nestedTables : ∃ r, nestedSums.Returns r (.underdetermined nestedTables) :=
  exists_returns (show nestedSums.solveWithin 4 4 = some (.underdetermined nestedTables) by cbv)

theorem returns_nestedValue :
    ∃ r, (nestedSums.withPolicy .alphabetical).Returns r (.underdetermined nestedValue) :=
  exists_returns (show (nestedSums.withPolicy .alphabetical).solveWithin 4 4 =
    some (.underdetermined nestedValue) by cbv)

theorem determines_nestedSums : nestedSums.Determines (.ofText "z") 2 := by
  obtain ⟨r, h⟩ := returns_nestedValue
  have ht := (reachable_nestedSums fun p => p.isBuiltIn).isTidy.withPolicy .alphabetical
  obtain ⟨he, hd, _⟩ := describes_of_returns ht h
  have hz : nestedValue.known.get? (.ofText "z") = some (.whole 2) := by cbv
  have hn := determines_of_known he ht hd hz
  rw [determines_withPolicy, Fraction.value_whole (by decide)] at hn
  exact hn

/-- The value of `z` under the one policy is that of all solutions, so under the other policy `z` is
expressed at least. -/
theorem known_or_expressed_of_determines_nestedSums :
    (nestedSums.withPolicy .alphabetical).Reachable (fun p => p.isBuiltIn) ∧
      (∃ r, (nestedSums.withPolicy .alphabetical).Returns r (.underdetermined nestedValue)) ∧
        (nestedSums.withPolicy .alphabetical).Determines (.ofText "z") (Fraction.whole 2).value ∧
          .ofText "z" ∈ nestedTables.expressed.keys := by
  have hs : (nestedSums.withPolicy .alphabetical).Reachable fun p => p.isBuiltIn :=
    .withPolicy rfl (reachable_nestedSums _)
  obtain ⟨r, hr⟩ := returns_nestedValue
  obtain ⟨hknown, _, _, hother⟩ := known_or_expressed_of_determines hs rfl hr
  have hz : nestedValue.known.get? (.ofText "z") = some (.whole 2) := by cbv
  have hnone : nestedTables.known.get? (.ofText "z") = none := by cbv
  obtain ⟨r', hr'⟩ := exists_returns
    (show ((nestedSums.withPolicy .alphabetical).withPolicy .descending).solveWithin 4 4 =
      some (.underdetermined nestedTables) by cbv)
  have hor := hother .descending r' nestedTables rfl hr' _ _ hz
  exact ⟨hs, ⟨r, hr⟩, hknown _ _ hz, hor.resolve_left (by simp [hnone])⟩

/-- In all solutions `z` is two. One built-in policy finds this value, and another one does not. -/
theorem not_known_of_determines_nestedSums :
    nestedSums.Reachable (fun p => p.isBuiltIn) ∧ nestedSums.policy.isBuiltIn ∧
      (∃ r, nestedSums.Returns r (.underdetermined nestedTables)) ∧
      (∃ r, (nestedSums.withPolicy .alphabetical).Returns r (.underdetermined nestedValue)) ∧
      nestedSums.Determines (.ofText "z") 2 ∧ nestedTables.known.get? (.ofText "z") = none ∧
      nestedValue.known.get? (.ofText "z") = some (.whole 2) :=
  ⟨reachable_nestedSums _, rfl, returns_nestedTables, returns_nestedValue, determines_nestedSums,
    by cbv, by cbv⟩

end LinearSystem
end ExactLinear
