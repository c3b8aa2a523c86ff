import ExactLinear.Proofs.Elimination.Passes
import ExactLinear.Proofs.Outcome.Solutions

/-! # Expressions and free variables

The variables in an expression come after the one that it is for, and they may have expressions of
their own, since a row is reduced by the rows with its leader only. Put into one another the
expressions give every unknown by the free variables, and in one way.
-/

namespace ExactLinear

/-- No row has a variable that leads another row. -/
def IsReduced (rows : List Equation) : Prop :=
  ∀ a ∈ rows, ∀ b ∈ rows, ∀ m n, a.IsLedBy m → b.IsLedBy n → m ∈ b.unknowns → m = n

namespace Equation

variable {e : Equation} {n : Name} {ts : List Term}

theorem Expresses.isLedBy (h : e.Expresses n ts) : e.IsLedBy n := by
  obtain ⟨t, ht, rfl⟩ := h.leader
  refine ⟨fun hf => hf.not_isUnsolved h.isUnsolved, ?_⟩
  rw [ht, Option.map_some]

theorem Expresses.mem_unknowns_iff (h : e.Expresses n ts) (hc : e.IsCanonical) {m : Name} :
    m ∈ e.unknowns ↔ m = n ∨ ∃ t ∈ ts, t.isConstant = false ∧ t.name = m := by
  obtain ⟨t, rest, he, rfl, hn, hnames, _⟩ := h.terms hc
  have hb := isBlank_of_mem_unknowns hn
  have hts : (∃ u ∈ ts, u.isConstant = false ∧ u.name = m) ↔
      m ∈ rest.map Term.name ∧ m.isBlank = false := by
    rw [← hnames, List.mem_map]
    constructor
    · rintro ⟨u, hu, hv, rfl⟩
      exact ⟨⟨u, hu, rfl⟩, hv⟩
    · rintro ⟨⟨u, hu, rfl⟩, hv⟩
      exact ⟨u, hu, hv, rfl⟩
  rw [hts, mem_unknowns_iff_names, he, List.map_cons, List.mem_cons]
  constructor
  · rintro ⟨hm | hm, hv⟩
    · exact .inl hm
    · exact .inr ⟨hm, hv⟩
  · rintro (rfl | ⟨hm, hv⟩)
    · exact ⟨.inl rfl, hb⟩
    · exact ⟨.inr hm, hv⟩

end Equation

namespace Solution

/-- Every variable in an expression is free. -/
def UsesFreeOnly (a : Solution) : Prop :=
  ∀ n ts, a.expressed.get? n = some ts → ∀ t ∈ ts, t.isConstant = false → a.IsFree t.name

namespace Describes

variable {a : Solution} {rows : List Equation} (h : a.Describes rows)

include h

theorem exists_expresses {row : Equation} (hr : row ∈ rows) {n : Name} (hn : row.IsLedBy n) :
    ∃ ts, row.Expresses n ts := by
  rcases h.shown row hr with ht | ⟨m, x, ha⟩ | ⟨m, ts, he⟩
  · exact absurd (.inl (Equation.terms_of_solution?_trivial ht)) hn.1
  · exact absurd (.inr (.inr ⟨m, x, ha⟩)) hn.1
  · obtain rfl : m = n := Option.some.inj (he.isLedBy.2.symm.trans hn.2)
    exact ⟨ts, he⟩

theorem mem_expressed_iff {n : Name} : n ∈ a.expressed.keys ↔ ∃ row ∈ rows, row.IsLedBy n := by
  rw [Bindings.mem_keys]
  constructor
  · rintro ⟨ts, hts⟩
    obtain ⟨row, hr, he⟩ := (h.expressed n ts).1 hts
    exact ⟨row, hr, he.isLedBy⟩
  · rintro ⟨row, hr, hn⟩
    obtain ⟨ts, he⟩ := h.exists_expresses hr hn
    exact ⟨ts, (h.expressed n ts).2 ⟨row, hr, he⟩⟩

variable {p : Policy} (ht : AreTidy p rows) (hs : Settled rows)

include ht hs

theorem mem_of_expressed {n : Name} {ts : List Term} (hn : a.expressed.get? n = some ts) {t : Term}
    (htm : t ∈ ts) (hv : t.isConstant = false) :
    (∃ row ∈ rows, t.name ∈ row.unknowns) ∧ t.name ∉ a.known.keys ∧
      (p.OrdersNames → p.compareNames n t.name = .lt) := by
  obtain ⟨row, hr, he⟩ := (h.expressed n ts).1 hn
  obtain ⟨hp, htidy⟩ := ht row hr
  obtain ⟨hmem, hlt⟩ := he.of_mem htidy (List.mem_map_of_mem htm) hv
  rw [hp] at hlt
  exact ⟨⟨row, hr, hmem⟩, h.notMem_known hs hr he.isUnsolved hmem, hlt⟩

/-- The expressions use free variables only where no row keeps the leader of another. -/
theorem usesFreeOnly_iff : a.UsesFreeOnly ↔ IsReduced rows := by
  constructor
  · intro hfree r hr b hb m n hm hn hmem
    by_contra hne
    obtain ⟨ts, he⟩ := h.exists_expresses hb hn
    -- the leader of the one row stands in the expression that the other shows
    have hc := (ht b hb).2.isCanonical
    obtain ⟨t, htm, hv, rfl⟩ := ((he.mem_unknowns_iff hc).1 hmem).resolve_left hne
    have hno := (hfree n ts ((h.expressed n ts).2 ⟨b, hb, he⟩) t htm hv).2
    exact hno (h.mem_expressed_iff.2 ⟨r, hr, hm⟩)
  · intro hred n ts hts t htm hv
    refine ⟨(h.mem_of_expressed ht hs hts htm hv).2.1, fun hex => ?_⟩
    obtain ⟨r, hr, hm⟩ := h.mem_expressed_iff.1 hex
    obtain ⟨b, hb, he⟩ := (h.expressed n ts).1 hts
    have hc := (ht b hb).2.isCanonical
    have hmem := (he.mem_unknowns_iff hc).2 (.inr ⟨t, htm, hv, rfl⟩)
    have heq := hred r hr b hb t.name n hm he.isLedBy hmem
    -- a name stands once in a row, so the leading one is not in the sum
    obtain ⟨u, rest, hterms, hu, _, hnames, _⟩ := he.terms hc
    have hnodup := hc.nodup
    rw [hterms, List.map_cons, List.nodup_cons, ← hnames, hu, ← heq] at hnodup
    exact hnodup.1 (List.mem_map_of_mem htm)

end Describes
end Solution

/-- On the valuations in the set the quantity is a number and multiples of these variables. -/
def IsAffine (vs : Set Valuation) (ms : List Name) (q : Valuation → ℚ) (k : ℚ) (c : Name → ℚ) :
    Prop :=
  ∀ v ∈ vs, q v = k + ∑ m ∈ ms.toFinset, c m * v m

namespace IsAffine

variable {vs : Set Valuation} {ms : List Name} {q q' : Valuation → ℚ} {k k' : ℚ} {c c' : Name → ℚ}

theorem const (x : ℚ) : IsAffine vs ms (fun _ => x) x 0 := by
  intro v _
  simp

theorem of_mem {n : Name} (hn : n ∈ ms) : IsAffine vs ms (fun v => v n) 0 (Pi.single n 1) := by
  intro v _
  simp [Pi.single_apply, hn]

theorem add (h : IsAffine vs ms q k c) (h' : IsAffine vs ms q' k' c') :
    IsAffine vs ms (fun v => q v + q' v) (k + k') (c + c') := by
  intro v hv
  dsimp only
  rw [h v hv, h' v hv]
  simp only [Pi.add_apply, add_mul, Finset.sum_add_distrib]
  ring

theorem mul (x : ℚ) (h : IsAffine vs ms q k c) :
    IsAffine vs ms (fun v => x * q v) (x * k) (x • c) := by
  intro v hv
  dsimp only
  rw [h v hv, mul_add, Finset.mul_sum]
  simp only [Pi.smul_apply, smul_eq_mul, mul_assoc]

theorem congr (h : IsAffine vs ms q k c) (hq : ∀ v ∈ vs, q' v = q v) : IsAffine vs ms q' k c :=
  fun v hv => (hq v hv).trans (h v hv)

theorem exists_evalSum {ts : List Term}
    (h : ∀ t ∈ ts, t.isConstant = false → ∃ k c, IsAffine vs ms (fun v => v t.name) k c) :
    ∃ k c, IsAffine vs ms (fun v => Term.evalSum v ts) k c := by
  induction ts with
  | nil => exact ⟨0, 0, const 0⟩
  | cons t ts ih =>
    obtain ⟨ht, hts⟩ := List.forall_mem_cons.1 h
    obtain ⟨k, c, hsum⟩ := ih hts
    have hterm : ∃ k c, IsAffine vs ms (fun v => t.eval v) k c := by
      simp only [Term.eval]
      cases hv : t.isConstant with
      | true => exact ⟨_, _, const t.coefficient.value⟩
      | false =>
        obtain ⟨k, c, hn⟩ := ht hv
        exact ⟨_, _, hn.mul t.coefficient.value⟩
    obtain ⟨k', c', hterm⟩ := hterm
    exact ⟨_, _, hterm.add hsum⟩

end IsAffine

namespace Solution.IsTriangular

variable {a : Solution} {ns ms : List Name} {rank : Name → ℕ} (ht : a.IsTriangular ns rank)

include ht

/-- Expressions put into one another leave nothing but free variables. -/
theorem exists_isAffine (hms : ∀ n ∈ ns, a.IsFree n → n ∈ ms) :
    ∀ n ∈ ns, ∃ k c, IsAffine {v | a.Holds v} ms (fun v => v n) k c := by
  -- the variables of high rank are resolved first, as an expression mentions higher ones only
  have key (j : ℕ) : ∀ n ∈ ns, ns.length < rank n + j →
      ∃ k c, IsAffine {v | a.Holds v} ms (fun v => v n) k c := by
    induction j with
    | zero =>
      intro n _ hlt
      have hb := ht.bounded n
      omega
    | succ j ih =>
      intro n hn hlt
      rcases a.known_or_expressed_or_free n with ⟨x, hx⟩ | ⟨ts, hts⟩ | hf
      · exact ⟨_, _, (IsAffine.const x.value).congr fun v hv => hv.known n x hx⟩
      · have hsum : ∃ k c, IsAffine {v | a.Holds v} ms (fun v => Term.evalSum v ts) k c :=
          IsAffine.exists_evalSum fun t htm hv => by
            obtain ⟨hm, _, hlt'⟩ := ht.later n ts hts t.name (List.mem_map_of_mem htm) hv
            exact ih t.name hm (by omega)
        obtain ⟨k, c, hsum⟩ := hsum
        exact ⟨k, c, hsum.congr fun v hv => hv.expressed n ts hts⟩
      · exact ⟨_, _, IsAffine.of_mem (hms n hn hf)⟩
  intro n hn
  exact key (ns.length + 1) n hn (by omega)

/-- There is one way only to give a quantity by the free variables. -/
theorem isAffine_unique (hms : ∀ n ∈ ms, a.IsFree n) {q : Valuation → ℚ} {k k' : ℚ}
    {c c' : Name → ℚ} (h : IsAffine {v | a.Holds v} ms q k c)
    (h' : IsAffine {v | a.Holds v} ms q k' c') : k' = k ∧ ∀ m ∈ ms, c' m = c m := by
  have heq (free : Valuation) : k + ∑ m ∈ ms.toFinset, c m * free m =
      k' + ∑ m ∈ ms.toFinset, c' m * free m := by
    obtain ⟨v, hv, hfree⟩ := ht.exists_holds free
    have hsum (d : Name → ℚ) : ∑ m ∈ ms.toFinset, d m * v m = ∑ m ∈ ms.toFinset, d m * free m :=
      Finset.sum_congr rfl fun m hm => by rw [hfree m (hms m (List.mem_toFinset.1 hm))]
    rw [← hsum, ← hsum, ← h v hv, ← h' v hv]
  have hk : k' = k := by simpa using (heq 0).symm
  refine ⟨hk, fun m hm => ?_⟩
  have hone := heq (Pi.single m 1)
  simp only [hk, add_right_inj, Pi.single_apply, mul_ite, mul_one, mul_zero, Finset.sum_ite_eq',
    List.mem_toFinset, if_pos hm] at hone
  exact hone.symm

end Solution.IsTriangular

namespace LinearSystem

variable {s r : LinearSystem} {a : Solution}

/-- What is left of a system with free variables: settled rows that the tables describe. -/
theorem describes_of_returns (hs : s.IsTidy) (h : s.Returns r (.underdetermined a)) :
    s.Evolves r ∧ a.Describes r.equations ∧ Settled r.equations := by
  obtain ⟨passes, h⟩ := h
  obtain ⟨he, hans⟩ := answers_of_solve hs h
  cases hans with
  | underdetermined hd hset _ => exact ⟨he, hd, hset⟩

/-- Every solution gives the variable this number and these multiples of the free variables. -/
def Resolves (s : LinearSystem) (a : Solution) (n : Name) (k : ℚ) (c : Name → ℚ) : Prop :=
  IsAffine {v | s.Satisfied v} (CommandLine.freeNames s.unknowns a) (fun v => v n) k c

theorem existsUnique_resolves {rank : Name → ℕ} (he : s.Evolves r) (hs : s.IsTidy)
    (h : a.Describes r.equations) (ht : a.IsTriangular s.unknowns rank) {n : Name}
    (hn : n ∈ s.unknowns) : ∃ k c, s.Resolves a n k c ∧ ∀ k' c', s.Resolves a n k' c' →
      k' = k ∧ ∀ m ∈ CommandLine.freeNames s.unknowns a, c' m = c m := by
  have hset : {v | s.Satisfied v} = {v | a.Holds v} :=
    Set.ext fun v => satisfied_iff_holds he hs h v
  simp only [Resolves, hset]
  obtain ⟨k, c, hc⟩ := ht.exists_isAffine (fun m hm hf => mem_freeNames.2 ⟨hm, hf⟩) n hn
  exact ⟨k, c, hc, fun k' c' hc' => ht.isAffine_unique (fun m hm => (mem_freeNames.1 hm).2) hc hc'⟩

/-- Under a built-in policy the variables in an expression have no values and come after the one it
is for. They are all free if and only if no row is left with the leader of another. In any case the
solutions give each unknown by the free variables in exactly one way. -/
theorem usesFreeOnly_iff_isReduced {allowed : Policy → Prop} (hs : s.Reachable allowed)
    (hp : s.policy.isBuiltIn) (h : s.Returns r (.underdetermined a)) :
    (∀ n ts, a.expressed.get? n = some ts → ∀ t ∈ ts, t.isConstant = false →
      t.name ∈ s.unknowns ∧ t.name ∉ a.known.keys ∧ s.policy.compareNames n t.name = .lt) ∧
      (a.UsesFreeOnly ↔ IsReduced r.equations) ∧
      ∀ n ∈ s.unknowns, ∃ k c, s.Resolves a n k c ∧ ∀ k' c', s.Resolves a n k' c' →
        k' = k ∧ ∀ m ∈ CommandLine.freeNames s.unknowns a, c' m = c m := by
  have ht := hs.isTidy
  obtain ⟨he, hd, hset⟩ := describes_of_returns ht h
  have hrows : AreTidy s.policy r.equations := he.policy ▸ he.isTidy ht
  have htri := isTriangular_of_describes he ht hd hp hset
  refine ⟨fun n ts hts t htm hv => ?_, hd.usesFreeOnly_iff hrows hset, fun n hn =>
    existsUnique_resolves he ht hd htri hn⟩
  obtain ⟨hmem, hk, hlt⟩ := hd.mem_of_expressed hrows hset hts htm hv
  exact ⟨he.unknowns ▸ mem_unknowns.2 hmem, hk, hlt (Policy.ordersNames_of_isBuiltIn hp)⟩

def chainedSums : LinearSystem :=
  let row := Equation.ofPairs .descending
  .ofEquations [row [(1, "z"), (1, "y"), (-3, "")], row [(1, "y"), (1, "x"), (-1, "")]]

def chainedTables : Solution where
  expressed := ⟨[(.ofText "y", [⟨.whole (-1), .ofText "x"⟩, .constant (.whole 1)]),
    (.ofText "z", [⟨.whole (-1), .ofText "y"⟩, .constant (.whole 3)])]⟩

theorem reachable_chainedSums (allowed : Policy → Prop) : chainedSums.Reachable allowed :=
  .push (.push .empty (.of_terms (by cbv))) (.of_terms (by cbv))

theorem returns_chainedSums : chainedSums.Returns chainedSums (.underdetermined chainedTables) :=
  ⟨3, by cbv⟩

theorem not_usesFreeOnly_chainedTables : ¬chainedTables.UsesFreeOnly := by
  intro hfree
  have hz : chainedTables.expressed.get? (.ofText "z") =
      some [⟨.whole (-1), .ofText "y"⟩, .constant (.whole 3)] := by cbv
  have hy := hfree _ _ hz _ List.mem_cons_self (by cbv)
  exact hy.2 (Bindings.mem_keys.2 ⟨_, by cbv⟩)

/-- The first of the sums is left with the leader of the second, and yet the solutions give `z` by
the free variable `x` alone. -/
theorem usesFreeOnly_iff_isReduced_chainedSums :
    chainedSums.Reachable (fun p => p.isBuiltIn) ∧ chainedSums.policy.isBuiltIn ∧
      chainedSums.Returns chainedSums (.underdetermined chainedTables) ∧
        ¬IsReduced chainedSums.equations ∧
          CommandLine.freeNames chainedSums.unknowns chainedTables = [.ofText "x"] ∧
            ∃ k c, chainedSums.Resolves chainedTables (.ofText "z") k c := by
  have hs := reachable_chainedSums fun p => p.isBuiltIn
  obtain ⟨_, hiff, hres⟩ := usesFreeOnly_iff_isReduced hs rfl returns_chainedSums
  have hu : chainedSums.unknowns = [.ofText "x", .ofText "y", .ofText "z"] := by cbv
  obtain ⟨k, c, hz, _⟩ := hres (.ofText "z") (by simp [hu])
  exact ⟨hs, rfl, returns_chainedSums, mt hiff.2 not_usesFreeOnly_chainedTables, by cbv, k, c, hz⟩

/-- Solving leaves an expression that does not use free variables only. -/
theorem not_usesFreeOnly_chainedSums :
    chainedSums.Reachable (fun p => p.isBuiltIn) ∧ chainedSums.policy.isBuiltIn ∧
      chainedSums.Returns chainedSums (.underdetermined chainedTables) ∧
        ¬chainedTables.UsesFreeOnly :=
  ⟨reachable_chainedSums _, rfl, returns_chainedSums, not_usesFreeOnly_chainedTables⟩

end LinearSystem
end ExactLinear
