import ExactLinear.Proofs.Elimination.Systems
import ExactLinear.Proofs.Outcome.BackSubstitution

/-! # What an answer rests on

Elimination ends in a clash, or in settled rows that the tables of the answer describe in full. From
such rows the outcome is decided by whether one of them is left without a direct solution.
-/

namespace ExactLinear

theorem Unpaired.eq_of_expresses {rows : List Equation} (h : Unpaired rows) :
    ∀ a ∈ rows, ∀ b ∈ rows, ∀ n ts us, a.Expresses n ts → b.Expresses n us → ts = us := by
  have symm : Std.Symm fun a b : Equation => ∀ n ts us, a.Expresses n ts → b.Expresses n us →
      ts = us := ⟨fun a b hab n ts us ha hb => (hab n us ts hb ha).symm⟩
  refine List.Pairwise.forall_of_forall (fun a _ n ts us ha hb => (hb.unique ha).2) ?_
  refine h.imp fun {a b} hab n ts us ha hb => ?_
  obtain ⟨t, ht, rfl⟩ := ha.leader
  obtain ⟨u, hu, hn⟩ := hb.leader
  have hla := (Equation.leader?_of_solution?_none ha.isUnsolved).trans (congrArg _ ht)
  have hlb := (Equation.leader?_of_solution?_none hb.isUnsolved).trans (congrArg _ hu)
  exact absurd hn.symm (hab t u hla hlb)

namespace Solution

/-- The tables hold exactly what the rows show, and every row shows something. -/
structure Describes (a : Solution) (rows : List Equation) : Prop where
  known : ∀ n x, a.known.get? n = some x ↔ ∃ row ∈ rows, row.Assigns n x
  expressed : ∀ n ts, a.expressed.get? n = some ts ↔ ∃ row ∈ rows, row.Expresses n ts
  shown : ∀ row ∈ rows, row.solution? = .ok (some .trivial) ∨ (∃ n x, row.Assigns n x) ∨
    ∃ n ts, row.Expresses n ts

theorem describes_of_reads {a : Solution} {rows : List Equation} {complete complete' : Bool}
    (h : Reads rows {} complete a complete') (hs : Settled rows) (hu : Unpaired rows) :
    a.Describes rows :=
  ⟨fun _ _ => h.known.get?_eq_some_iff hs.agree,
    fun _ _ => h.expressed.get?_eq_some_iff hu.eq_of_expresses, h.shown⟩

namespace Describes

variable {a : Solution} {p : Policy} {rows : List Equation}

theorem areSatisfied_iff (h : a.Describes rows) (ht : AreTidy p rows) (v : Valuation) :
    AreSatisfied v rows ↔ a.Holds v := by
  constructor
  · intro hs
    refine ⟨fun n x hx => ?_, fun n ts hts => ?_⟩
    · obtain ⟨row, hr, ha⟩ := (h.known n x).1 hx
      have hc := (ht row hr).2.isCanonical
      exact (Equation.satisfied_of_solution?_assignment hc ha v).1 (hs row hr)
    · obtain ⟨row, hr, he⟩ := (h.expressed n ts).1 hts
      exact (he.satisfied_iff (ht row hr).2.isCanonical v).1 (hs row hr)
  · intro hv row hr
    have hc := (ht row hr).2.isCanonical
    rcases h.shown row hr with htriv | ⟨n, x, ha⟩ | ⟨n, ts, he⟩
    · exact Equation.satisfied_of_solution?_trivial htriv v
    · rw [Equation.satisfied_of_solution?_assignment hc ha v]
      exact hv.known n x ((h.known n x).2 ⟨row, hr, ha⟩)
    · rw [he.satisfied_iff hc v]
      exact hv.expressed n ts ((h.expressed n ts).2 ⟨row, hr, he⟩)

theorem exists_of_mem_known (h : a.Describes rows) {n : Name} (hn : n ∈ a.known.keys) :
    ∃ row ∈ rows, n ∈ row.unknowns := by
  obtain ⟨x, hx⟩ := Bindings.mem_keys.1 hn
  obtain ⟨row, hr, ha⟩ := (h.known n x).1 hx
  refine ⟨row, hr, ?_⟩
  rw [Equation.unknowns_of_solution?_assignment ha]
  exact List.mem_singleton.2 rfl

/-- A row without a direct solution has no variable that another row gives a value. -/
theorem notMem_known (h : a.Describes rows) (hs : Settled rows) {row : Equation} (hr : row ∈ rows)
    (hu : row.IsUnsolved) {n : Name} (hn : n ∈ row.unknowns) : n ∉ a.known.keys := by
  intro hk
  obtain ⟨x, hx⟩ := Bindings.mem_keys.1 hk
  obtain ⟨source, hsr, ha⟩ := (h.known n x).1 hx
  exact hs.cleared source hsr row hr n x ha hu hn

theorem isTriangular (h : a.Describes rows) (hp : p.OrdersNames) (ht : AreTidy p rows)
    (hs : Settled rows) {ns : List Name} (hns : ∀ row ∈ rows, ∀ n ∈ row.unknowns, n ∈ ns) :
    a.IsTriangular ns (p.rank ns) := by
  refine ⟨fun n => List.countP_le_length, fun n hk he => ?_, fun n ts hts m hm hv => ?_,
    fun n ts hts => ?_⟩
  · obtain ⟨ts, hts⟩ := Bindings.mem_keys.1 he
    obtain ⟨row, hr, hex⟩ := (h.expressed n ts).1 hts
    exact h.notMem_known hs hr hex.isUnsolved (hex.mem_unknowns (ht row hr).2.isCanonical) hk
  · obtain ⟨row, hr, hex⟩ := (h.expressed n ts).1 hts
    obtain ⟨hpol, htidy⟩ := ht row hr
    obtain ⟨hmem, hlt⟩ := hex.of_mem htidy hm hv
    have hn := hex.mem_unknowns htidy.isCanonical
    rw [hpol] at hlt
    exact ⟨hns row hr m hmem, h.notMem_known hs hr hex.isUnsolved hmem,
      hp.rank_lt_rank (hns row hr n hn) (hlt hp)⟩
  · obtain ⟨row, hr, hex⟩ := (h.expressed n ts).1 hts
    exact hex.exists_mem (ht row hr).2.isCanonical

end Describes
end Solution

inductive LinearSystem.Answers (s r : LinearSystem) : Outcome → Prop
  | inconsistent (h : Clash r.equations) : Answers s r .inconsistent
  | solved {a : Solution} (h : a.Describes r.equations)
    (hu : ∀ row ∈ r.equations, ¬row.IsUnsolved) (hk : a.known.keys = s.unknowns) :
    Answers s r (.solved a)
  | underdetermined {a : Solution} (h : a.Describes r.equations) (hs : Settled r.equations)
    (hu : ∃ row ∈ r.equations, row.IsUnsolved) : Answers s r (.underdetermined a)

namespace LinearSystem

variable {s r : LinearSystem}

/-- The values of an answer are those of the equations that it was read off from. -/
theorem Answers.known_of_assigns {o : Outcome} {a : Solution} (h : s.Answers r o)
    (ho : o = .solved a ∨ o = .underdetermined a) {row : Equation} (hr : row ∈ r.equations)
    {n : Name} {x : Fraction} (hx : row.Assigns n x) : a.known.get? n = some x := by
  cases h with
  | inconsistent => simp at ho
  | solved hd =>
    obtain rfl : _ = a := by simpa using ho
    exact (hd.known n x).2 ⟨row, hr, hx⟩
  | underdetermined hd =>
    obtain rfl : _ = a := by simpa using ho
    exact (hd.known n x).2 ⟨row, hr, hx⟩

theorem mem_known_of_unknowns {a : Solution} (h : a.Describes r.equations)
    (hu : ∀ row ∈ r.equations, ¬row.IsUnsolved) {n : Name} (hn : n ∈ r.unknowns) :
    n ∈ a.known.keys := by
  obtain ⟨row, hr, hmem⟩ := mem_unknowns.1 hn
  rcases h.shown row hr with ht | ⟨m, x, ha⟩ | ⟨m, ts, he⟩
  · simp [Equation.unknowns, Equation.variableTerms, Equation.terms_of_solution?_trivial ht] at hmem
  · rw [Equation.unknowns_of_solution?_assignment ha, List.mem_singleton] at hmem
    subst hmem
    exact Bindings.mem_keys.2 ⟨x, (h.known n x).2 ⟨row, hr, ha⟩⟩
  · exact absurd he.isUnsolved (hu row hr)

theorem answers_of_ofRows (he : s.Evolves r) (ht : r.IsTidy) (hs : Settled r.equations)
    (hu : Unpaired r.equations) {o : Outcome}
    (h : Outcome.ofRows s.unknowns r.equations = .ok o) : s.Answers r o := by
  obtain ⟨read?, hr, h⟩ := bind_eq_ok.1 h
  cases read? with
  | none =>
    cases h
    exact .inconsistent (.inl (exists_isContradiction_of_readOff hr))
  | some read =>
    obtain ⟨a, complete⟩ := read
    have hreads := reads_of_readOff (fun row hrow => (ht row hrow).2.isCanonical) hr
    have hd := Solution.describes_of_reads hreads hs hu
    have hcomplete : complete = true ↔ ∀ row ∈ r.equations, ¬row.IsUnsolved := by
      simpa using hreads.complete
    have hall (hc : complete = true) (n : Name) (hn : n ∈ s.unknowns) : n ∈ a.known.keys :=
      mem_known_of_unknowns hd (hcomplete.1 hc) (he.unknowns ▸ hn)
    dsimp only at h
    split at h
    · next hc =>
      cases h
      rw [Bool.and_eq_true] at hc
      refine .solved hd (hcomplete.1 hc.1) ?_
      refine (hreads.known.ascending .nil).ext s.isAscending_unknowns fun n => ⟨fun hn => ?_, ?_⟩
      · rw [← he.unknowns, mem_unknowns]
        exact hd.exists_of_mem_known hn
      · exact hall hc.1 n
    · next hc =>
      cases h
      refine .underdetermined hd hs ?_
      by_contra hno
      have hdone : complete = true := hcomplete.2 fun row hrow hrow' => hno ⟨row, hrow, hrow'⟩
      refine hc (Bool.and_eq_true_iff.2 ⟨hdone, List.all_eq_true.2 fun n hn => ?_⟩)
      exact Bindings.contains_iff_mem_keys.2 (hall hdone n hn)

/-- A run that gives an answer works on the equations by steps, and the answer rests on them. -/
theorem answers_of_solve (hs : s.IsTidy) {passes : ℕ} {o : Outcome}
    (h : (s.solve passes).result = .ok (r, some o)) : s.Evolves r ∧ s.Answers r o := by
  obtain ⟨⟨after, ending⟩, he, h⟩ := Logged.bind_result_eq_ok.1 h
  obtain ⟨hev, hclash, hfin⟩ := evolves_of_eliminate he
  cases ending with
  | unfinished => cases h
  | contradiction =>
    cases h
    exact ⟨hev, .inconsistent (hclash rfl)⟩
  | finished =>
    obtain ⟨out, hout, h⟩ := Logged.bind_result_eq_ok.1 h
    cases h
    obtain ⟨hset, hun⟩ := hfin rfl
    exact ⟨hev, answers_of_ofRows hev (hev.isTidy hs) hset hun hout⟩

theorem not_satisfied_of_clash (he : s.Evolves r) (hs : s.IsTidy) (h : Clash r.equations)
    (v : Valuation) : ¬s.Satisfied v := by
  rw [← he.satisfied_iff hs v]
  exact not_areSatisfied_of_clash (he.isTidy hs) h v

theorem satisfied_iff_holds (he : s.Evolves r) (hs : s.IsTidy) {a : Solution}
    (h : a.Describes r.equations) (v : Valuation) : s.Satisfied v ↔ a.Holds v := by
  rw [← he.satisfied_iff hs v]
  exact h.areSatisfied_iff (he.isTidy hs) v

end LinearSystem
end ExactLinear
