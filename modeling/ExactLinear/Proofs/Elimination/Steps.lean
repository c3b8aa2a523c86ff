import ExactLinear.Elimination
import ExactLinear.Proofs.Equation.Solution

/-! # Steps of an elimination

Whatever elimination does to the rows is a run of two kinds of steps: a value that one row gives to
a variable takes the place of the variable in another row, and a multiple of one row is added to a
later one led by the same variable. What elimination keeps is shown for one step.
-/

namespace ExactLinear

namespace Equation

/-- The equation by itself gives the variable the value. -/
abbrev Assigns (e : Equation) (n : Name) (x : Fraction) : Prop :=
  e.solution? = .ok (some (.assignment n x))

theorem assigns_unique {e : Equation} {m n : Name} {x y : Fraction} (h : e.Assigns n x)
    (k : e.Assigns m y) : m = n ∧ y = x := by
  have hs := k.symm.trans h
  simpa using hs

abbrev IsUnsolved (e : Equation) : Prop := e.solution? = .ok none

theorem not_isUnsolved_of_isContradiction {e : Equation} (h : e.isContradiction) :
    ¬e.IsUnsolved := by
  intro hu
  rw [isContradiction_of_solution? hu] at h
  cases h

theorem not_isUnsolved_of_assigns {e : Equation} {n : Name} {x : Fraction}
    (h : e.Assigns n x) : ¬e.IsUnsolved := by
  intro hu
  cases h.symm.trans hu

/-- The equation holds always, contradicts itself, or is directly solved, so it is left alone. -/
def IsFinal (e : Equation) : Prop :=
  e.terms = [] ∨ e.isContradiction ∨ ∃ n x, e.Assigns n x

theorem IsFinal.not_isUnsolved {e : Equation} (h : e.IsFinal) : ¬e.IsUnsolved := by
  rcases h with ht | hc | ⟨n, x, ha⟩
  · intro hu
    have hcon := isContradiction_of_solution? hu
    simp only [IsUnsolved, solution?, hcon, ht] at hu
    cases hu
  · exact not_isUnsolved_of_isContradiction hc
  · exact not_isUnsolved_of_assigns ha

/-- The value for the variable neither contradicts the equation nor changes it. -/
def Respects (e : Equation) (n : Name) (x : Fraction) : Prop :=
  (∃ m y, e.Assigns m y ∧ (m = n → y = x)) ∨ e.solution? = .ok (some .trivial) ∨
    e.IsUnsolved ∧ n ∉ e.unknowns

end Equation

structure LedRow.IsIn (r : LedRow) (rows : List Equation) : Prop where
  row : rows[r.index]? = some r.row
  leader : r.row.leader? = .ok (some r.leader)

/-- One change of one row. -/
inductive RowStep : List Equation → List Equation → Prop
  | substituted {rows : List Equation} {i j : ℕ} {source row e : Equation} {n : Name}
      {x : Fraction} (hi : rows[i]? = some source) (hs : source.Assigns n x) (hij : i ≠ j)
      (hj : rows[j]? = some row) (hu : row.IsUnsolved)
      (he : row.substitute? n x = .ok (some e)) : RowStep rows (rows.set j e)
  | reduced {rows : List Equation} {s d : LedRow} {c : Fraction} {e : Equation}
      (hs : s.IsIn rows) (hd : d.IsIn rows) (hlt : s.index < d.index)
      (hn : s.leader.name = d.leader.name) (he : combine s d = .ok (c, e)) :
      RowStep rows (rows.set d.index e)

abbrev RowSteps : List Equation → List Equation → Prop := Relation.ReflTransGen RowStep

/-- A row contradicts itself, or two rows give one variable different values. -/
def Clash (rows : List Equation) : Prop :=
  (∃ row ∈ rows, row.isContradiction) ∨
    ∃ a ∈ rows, ∃ b ∈ rows, ∃ n x y, a.Assigns n x ∧ b.Assigns n y ∧ x ≠ y

theorem Verdict.join_eq_contradiction {v w : Verdict} :
    v.join w = .contradiction ↔ v = .contradiction ∨ w = .contradiction := by
  cases v <;> cases w <;> simp [join]

theorem Verdict.join_eq_unchanged {v w : Verdict} :
    v.join w = .unchanged ↔ v = .unchanged ∧ w = .unchanged := by
  cases v <;> cases w <;> simp [join]

/-- What a stretch of substitutions does to the rows. -/
structure Passes (rows rows' : List Equation) (v : Verdict) : Prop where
  steps : RowSteps rows rows'
  clash : v = .contradiction → Clash rows'
  unchanged : v = .unchanged → rows' = rows

theorem Passes.refl (rows : List Equation) : Passes rows rows .unchanged :=
  ⟨.refl, by simp, fun _ => rfl⟩

theorem Passes.trans {a b c : List Equation} {v w : Verdict} (h : Passes a b v)
    (hv : v ≠ .contradiction) (k : Passes b c w) : Passes a c (v.join w) := by
  refine ⟨h.steps.trans k.steps, fun hj => ?_, fun hj => ?_⟩
  · exact k.clash ((Verdict.join_eq_contradiction.1 hj).resolve_left hv)
  · obtain ⟨hu, hw⟩ := Verdict.join_eq_unchanged.1 hj
    rw [k.unchanged hw, h.unchanged hu]

/-- How a row takes the value that row `i` gives to a variable. -/
inductive Meets (n : Name) (x : Fraction) (i j : ℕ) (row : Equation) : Meeting → Prop
  | own (h : j = i) : Meets n x i j row .kept
  | contradiction (h : row.isContradiction) : Meets n x i j row .contradictory
  | clash {y : Fraction} (h : row.Assigns n y) (hy : y ≠ x) : Meets n x i j row .contradictory
  | respected (h : row.Respects n x) : Meets n x i j row .kept
  | rewritten {e : Equation} (hij : i ≠ j) (h : row.IsUnsolved)
      (he : row.substitute? n x = .ok (some e)) : Meets n x i j row (.rewritten e)

theorem meets_of_meet {n : Name} {x : Fraction} {i j : ℕ} {row : Equation} {m : Meeting}
    (h : (meet n x i j row).result = .ok m) : Meets n x i j row m := by
  rw [meet] at h
  split at h
  · next hj => cases h; exact .own hj
  split at h
  · next hc => cases h; exact .contradiction hc
  · next hj _ =>
    obtain ⟨s, hs, h⟩ := Logged.bind_result_eq_ok.1 h
    cases s with
    | some d =>
      cases d with
      | trivial => cases h; exact .respected (.inr (.inl hs))
      | assignment k y =>
        dsimp only at h
        split at h
        · next hk =>
          obtain ⟨_, _, h⟩ := Logged.bind_result_eq_ok.1 h
          cases h
          exact .clash (hk.1 ▸ hs) hk.2
        · next hk =>
          cases h
          exact .respected (.inl ⟨k, y, hs, fun he => by_contra fun hy => hk ⟨he, hy⟩⟩)
    | none =>
      obtain ⟨r, hr, h⟩ := Logged.bind_result_eq_ok.1 h
      cases r with
      | none =>
        cases h
        refine .respected (.inr (.inr ⟨hs, fun hn => ?_⟩))
        obtain ⟨t, ht, _, rfl⟩ := Equation.mem_unknowns.1 hn
        exact Equation.substitute?_eq_none hr (List.mem_map_of_mem ht)
      | some e =>
        obtain ⟨_, _, h⟩ := Logged.bind_result_eq_ok.1 h
        cases h
        exact .rewritten (Ne.symm hj) hs hr

/-- The rows before the spread, among them perhaps row `i`, stay as they are. -/
theorem passes_spread {n : Name} {x : Fraction} {i : ℕ} (before : List Equation)
    {rows rows' : List Equation} {source : Equation} {v : Verdict}
    (hi : (before ++ rows)[i]? = some source) (hs : source.Assigns n x)
    (h : (spread n x i before.length rows).result = .ok (rows', v)) :
    Passes (before ++ rows) (before ++ rows') v := by
  induction rows generalizing before rows' v with
  | nil => cases h; exact .refl _
  | cons row rest ih =>
    rw [spread] at h
    obtain ⟨m, hm, h⟩ := Logged.bind_result_eq_ok.1 h
    -- the part of the list that is still to be visited loses its first row
    have tail (r : Equation) (hr : (before ++ r :: rest)[i]? = some source)
        {rest' : List Equation} {w : Verdict}
        (hw : (spread n x i (before.length + 1) rest).result = .ok (rest', w)) :
        Passes (before ++ r :: rest) (before ++ r :: rest') w := by
      have hp := ih (before ++ [r]) (by simpa using hr) (by simpa using hw)
      simpa using hp
    cases meets_of_meet hm with
    | own _ | respected _ =>
      obtain ⟨⟨rest', w⟩, hw, h⟩ := Logged.bind_result_eq_ok.1 h
      cases h
      exact tail row hi hw
    | contradiction hc =>
      cases h
      exact ⟨.refl, fun _ => .inl ⟨row, by simp, hc⟩, by simp⟩
    | @clash y hy hne =>
      cases h
      refine ⟨.refl, fun _ => .inr ?_, by simp⟩
      exact ⟨source, List.mem_of_getElem? hi, row, by simp, n, x, y, hs, hy, hne.symm⟩
    | @rewritten e hij hu he =>
      obtain ⟨⟨rest', w⟩, hw, h⟩ := Logged.bind_result_eq_ok.1 h
      cases h
      have hstep : RowStep (before ++ row :: rest) (before ++ e :: rest) := by
        have hj : (before ++ row :: rest)[before.length]? = some row := by simp
        have hset := RowStep.substituted hi hs hij hj hu he
        simpa using hset
      have hi' : (before ++ e :: rest)[i]? = some source := by
        have hset := List.getElem?_set_ne (l := before ++ row :: rest) (a := e) hij.symm
        rw [hi] at hset
        simpa using hset
      have hp := tail e hi' hw
      refine ⟨.head hstep hp.steps, fun hj => ?_, fun hj => ?_⟩
      · exact hp.clash ((Verdict.join_eq_contradiction.1 hj).resolve_left (by simp))
      · cases (Verdict.join_eq_unchanged.1 hj).1

theorem respects_of_spread {n : Name} {x : Fraction} {i j : ℕ} {rows rows' : List Equation}
    (h : (spread n x i j rows).result = .ok (rows', .unchanged)) {k : ℕ} {row : Equation}
    (hk : rows[k]? = some row) (hi : j + k ≠ i) : row.Respects n x := by
  induction rows generalizing j k rows' with
  | nil => simp at hk
  | cons r rest ih =>
    rw [spread] at h
    obtain ⟨m, hm, h⟩ := Logged.bind_result_eq_ok.1 h
    have meets := meets_of_meet hm
    cases m with
    | contradictory => cases h
    | rewritten e =>
      obtain ⟨⟨rest', w⟩, _, h⟩ := Logged.bind_result_eq_ok.1 h
      cases w <;> cases h
    | kept =>
      obtain ⟨⟨rest', w⟩, hw, h⟩ := Logged.bind_result_eq_ok.1 h
      cases h
      cases k with
      | zero =>
        obtain rfl : r = row := by simpa using hk
        cases meets with
        | own hj => exact absurd hj (by simpa using hi)
        | respected hr => exact hr
      | succ k => exact ih hw (by simpa using hk) (by omega)

theorem passes_substituteFrom {i : ℕ} {row : Equation} {rows rows' : List Equation} {v : Verdict}
    (hi : rows[i]? = some row) (h : (substituteFrom i row rows).result = .ok (rows', v)) :
    Passes rows rows' v := by
  rw [substituteFrom] at h
  split at h
  · next hc =>
    cases h
    exact ⟨.refl, fun _ => .inl ⟨row, List.mem_of_getElem? hi, hc⟩, by simp⟩
  · obtain ⟨s, hs, h⟩ := Logged.bind_result_eq_ok.1 h
    split at h
    · have hp := passes_spread [] (by simpa using hi) hs h
      simpa using hp
    · cases h; exact .refl _

/-- Row `i` has a direct solution or none, and the other rows respect the one that it has. -/
def IsRespected (i : ℕ) (row : Equation) (rows : List Equation) : Prop :=
  (∃ s, row.solution? = .ok s) ∧ ∀ n x, row.Assigns n x → ∀ (j : ℕ) (other : Equation), j ≠ i →
    rows[j]? = some other → other.Respects n x

theorem isRespected_of_substituteFrom {i : ℕ} {row : Equation} {rows rows' : List Equation}
    (h : (substituteFrom i row rows).result = .ok (rows', .unchanged)) :
    IsRespected i row rows := by
  rw [substituteFrom] at h
  split at h
  · cases h
  · obtain ⟨s, hs, h⟩ := Logged.bind_result_eq_ok.1 h
    refine ⟨⟨s, hs⟩, fun n x ha j other hj ho => ?_⟩
    have hsa : some (.assignment n x) = s := Except.ok.inj (ha.symm.trans hs)
    subst hsa
    exact respects_of_spread h ho (by omega)

theorem passes_roundFrom {k i : ℕ} {rows rows' : List Equation} {v : Verdict}
    (h : (roundFrom k i rows).result = .ok (rows', v)) : Passes rows rows' v := by
  induction k generalizing i rows rows' v with
  | zero => cases h; exact .refl _
  | succ k ih =>
    rw [roundFrom] at h
    split at h
    · cases h; exact .refl _
    · next row hrow =>
      obtain ⟨⟨mid, w⟩, hm, h⟩ := Logged.bind_result_eq_ok.1 h
      have hp := passes_substituteFrom hrow hm
      dsimp only at h
      split at h
      · cases h; exact hp
      · next hw =>
        obtain ⟨⟨last, u⟩, hl, h⟩ := Logged.bind_result_eq_ok.1 h
        cases h
        exact hp.trans hw (ih hl)

theorem isRespected_of_roundFrom {k i : ℕ} {rows rows' : List Equation}
    (h : (roundFrom k i rows).result = .ok (rows', .unchanged)) {m : ℕ} {row : Equation}
    (hi : i ≤ m) (hk : m < i + k) (hm : rows[m]? = some row) : IsRespected m row rows := by
  induction k generalizing i rows' with
  | zero => omega
  | succ k ih =>
    rw [roundFrom] at h
    split at h
    · next hnone =>
      rw [List.getElem?_eq_none_iff] at hnone
      rw [List.getElem?_eq_some_iff] at hm
      obtain ⟨hlt, _⟩ := hm
      omega
    · next row' hrow =>
      obtain ⟨⟨mid, w⟩, hmid, h⟩ := Logged.bind_result_eq_ok.1 h
      dsimp only at h
      split at h
      · next hw => rw [hw] at h; cases h
      · obtain ⟨⟨last, u⟩, hl, h⟩ := Logged.bind_result_eq_ok.1 h
        obtain ⟨rfl, hj⟩ := Prod.mk.inj (Except.ok.inj h)
        obtain ⟨rfl, rfl⟩ := Verdict.join_eq_unchanged.1 hj
        have hmr : mid = rows := (passes_substituteFrom hrow hmid).unchanged rfl
        subst hmr
        rcases Nat.eq_or_lt_of_le hi with rfl | hlt
        · rw [hrow] at hm
          cases hm
          exact isRespected_of_substituteFrom hmid
        · exact ih hl hlt (by omega)

/-- Rows on which a round of substitution changes nothing: each has a direct solution or none, the
direct solutions agree, and none of their variables is left in the other rows. -/
structure Settled (rows : List Equation) : Prop where
  decided : ∀ row ∈ rows, ∃ s, row.solution? = .ok s
  agree : ∀ a ∈ rows, ∀ b ∈ rows, ∀ n x y, a.Assigns n x → b.Assigns n y → x = y
  cleared : ∀ a ∈ rows, ∀ b ∈ rows, ∀ n x, a.Assigns n x → b.IsUnsolved → n ∉ b.unknowns

theorem settled_of_isRespected {rows : List Equation}
    (h : ∀ (i : ℕ) (row : Equation), rows[i]? = some row → IsRespected i row rows) :
    Settled rows := by
  refine ⟨fun row hr => ?_, fun a ha b hb n x y hx hy => ?_, fun a ha b hb n x hx hu => ?_⟩
  · obtain ⟨i, hi⟩ := List.mem_iff_getElem?.1 hr
    exact (h i row hi).1
  · obtain ⟨i, hi⟩ := List.mem_iff_getElem?.1 ha
    obtain ⟨j, hj⟩ := List.mem_iff_getElem?.1 hb
    by_cases hij : j = i
    · subst hij
      have hab : a = b := Option.some.inj (hi.symm.trans hj)
      subst hab
      exact (Equation.assigns_unique hy hx).2
    · rcases (h i a hi).2 n x hx j b hij hj with ⟨m, z, hz, hmz⟩ | ht | ⟨hu, _⟩
      · obtain ⟨hn, rfl⟩ := Equation.assigns_unique hz hy
        exact (hmz hn.symm).symm
      · cases hy.symm.trans ht
      · cases hy.symm.trans hu
  · obtain ⟨i, hi⟩ := List.mem_iff_getElem?.1 ha
    obtain ⟨j, hj⟩ := List.mem_iff_getElem?.1 hb
    have hij : j ≠ i := by
      rintro rfl
      rw [hi] at hj
      cases hj
      cases hx.symm.trans hu
    rcases (h i a hi).2 n x hx j b hij hj with ⟨m, z, hz, _⟩ | ht | ⟨_, hn⟩
    · cases hz.symm.trans hu
    · cases ht.symm.trans hu
    · exact hn

theorem passes_substitutionRound {rows rows' : List Equation} {v : Verdict}
    (h : (substitutionRound rows).result = .ok (rows', v)) : Passes rows rows' v :=
  passes_roundFrom h

theorem settled_of_substitutionRound {rows rows' : List Equation}
    (h : (substitutionRound rows).result = .ok (rows', .unchanged)) : Settled rows := by
  apply settled_of_isRespected
  intro i row hi
  obtain ⟨hlt, _⟩ := List.getElem?_eq_some_iff.1 hi
  exact isRespected_of_roundFrom h (Nat.zero_le i) (by omega) hi

inductive Rounds : ℕ → List Equation → List Equation → Prop
  | none (rows : List Equation) : Rounds 0 rows rows
  | more {k : ℕ} {rows mid last : List Equation}
      (h : (substitutionRound rows).result = .ok (mid, .changed)) (hs : Rounds k mid last) :
      Rounds (k + 1) rows last

namespace Rounds

variable {k : ℕ} {rows last : List Equation}

theorem steps (h : Rounds k rows last) : RowSteps rows last := by
  induction h with
  | none rows => exact .refl
  | more h _ ih => exact (passes_substitutionRound h).steps.trans ih

theorem variableCount_add_le (h : Rounds k rows last) :
    variableCount last + k ≤ variableCount rows := by
  induction h with
  | none rows => exact le_rfl
  | more h _ ih =>
    have hlt := variableCount_substitutionRound h
    omega

end Rounds

theorem settle_of_changed {rows mid : List Equation}
    (h : (substitutionRound rows).result = .ok (mid, .changed)) :
    (settle rows).result = (settle mid).result.map fun (last, k, v) => (last, k + 1, v) := by
  rw [settle]
  split
  · next hr => cases h.symm.trans hr
  · next hr => cases h.symm.trans hr; rfl
  · next hv hr =>
    cases h.symm.trans hr
    exact absurd rfl hv

theorem settle_of_ne_changed {rows mid : List Equation} {v : Verdict}
    (h : (substitutionRound rows).result = .ok (mid, v)) (hv : v ≠ .changed) :
    (settle rows).result = .ok (mid, 0, v) := by
  rw [settle]
  split
  · next hr => cases h.symm.trans hr
  · next hr =>
    cases h.symm.trans hr
    exact absurd rfl hv
  · next hr => cases h.symm.trans hr; rfl

def AtRest (rows : List Equation) : Prop :=
  (substitutionRound rows).result = .ok (rows, .unchanged)

/-- Rounds are repeated as long as they change something, and one more finds that they do not. -/
theorem rounds_of_settle {rows last : List Equation} {k : ℕ} {v : Verdict}
    (h : (settle rows).result = .ok (last, k, v)) :
    ∃ mid, Rounds k rows mid ∧ (substitutionRound mid).result = .ok (last, v) ∧ v ≠ .changed := by
  induction hc : variableCount rows using Nat.strong_induction_on generalizing rows last k v with
  | _ c ih =>
    rw [settle] at h
    split at h
    · cases h
    · next mid hr =>
      obtain ⟨⟨last', m, w⟩, hs, hm⟩ := map_eq_ok.1 h
      cases hm
      obtain ⟨mid', hrounds, hlast⟩ := ih _ (hc ▸ variableCount_substitutionRound hr) hs rfl
      exact ⟨mid', .more hr hrounds, hlast⟩
    · next mid w hw hr =>
      cases h
      exact ⟨rows, .none rows, hr, fun hv => hw (hv ▸ rfl)⟩

theorem AtRest.settle {rows : List Equation} (h : AtRest rows) :
    (ExactLinear.settle rows).result = .ok (rows, 0, .unchanged) :=
  settle_of_ne_changed h (by simp)

theorem atRest_of_settle {rows last : List Equation} {k : ℕ} {v : Verdict}
    (h : (settle rows).result = .ok (last, k, v)) (hv : v ≠ .contradiction) : AtRest last := by
  obtain ⟨mid, _, hr, hchanged⟩ := rounds_of_settle h
  cases v with
  | changed => exact absurd rfl hchanged
  | contradiction => exact absurd rfl hv
  | unchanged =>
    obtain rfl := (passes_substitutionRound hr).unchanged rfl
    exact hr

/-- Rounds until they come to rest: a run of steps that ends in settled rows or in a clash. -/
theorem passes_settle {rows rows' : List Equation} {k : ℕ} {v : Verdict}
    (h : (settle rows).result = .ok (rows', k, v)) :
    RowSteps rows rows' ∧ (v = .contradiction → Clash rows') ∧
      (v ≠ .contradiction → Settled rows' ∧ (k = 0 → rows' = rows)) := by
  obtain ⟨mid, hrounds, hr, hchanged⟩ := rounds_of_settle h
  have hp := passes_substitutionRound hr
  refine ⟨hrounds.steps.trans hp.steps, hp.clash, fun hv => ?_⟩
  refine ⟨settled_of_substitutionRound (atRest_of_settle h hv), fun h0 => ?_⟩
  subst h0
  cases hrounds
  cases v with
  | changed => exact absurd rfl hchanged
  | contradiction => exact absurd rfl hv
  | unchanged => exact hp.unchanged rfl

end ExactLinear
