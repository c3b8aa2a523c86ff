import ExactLinear.CommandLine.Input
import ExactLinear.Proofs.Elimination.Evaluation
import Mathlib.Data.List.Basic
import Mathlib.Tactic

/-! # An input is read line by line

An input is read up to its first line that is no text or that ends the run. If all its lines are
read, either each line that is no equation is reported with its number, or the equations on the
other lines are there in their order.
-/

namespace ExactLinear.CommandLine

def isBlankLine (line : String) : Bool := line.toList.all Text.isBlank

/-- The line is neither skipped nor an equation. -/
def Fails (line : String) (e : ParseError) : Prop :=
  isBlankLine line = false ∧ Equation.parse line = .error e

/-- Reading the line does not end the run. -/
def IsSafe (line : String) : Prop := ∀ e, Fails line e → e.fatal? = none

def equation? (line : String) : Option Equation :=
  if isBlankLine line then none else (Equation.parse line).toOption

def error? (line : String) : Option ParseError :=
  if isBlankLine line then none
  else match Equation.parse line with
    | .ok _ => none
    | .error e => some e

theorem error?_eq_some {line : String} {e : ParseError} :
    error? line = some e ↔ Fails line e := by
  rw [error?, Fails]
  cases isBlankLine line <;> cases Equation.parse line <;> simp

theorem isSafe_iff {line : String} :
    IsSafe line ↔ (error? line).all fun e => e.fatal?.isNone := by
  simp [IsSafe, ← error?_eq_some, Option.all_eq_true]

/-- The lines that fail, where the first line has the given number. -/
def badLines (first : ℕ) (lines : List String) : List BadLine :=
  (lines.zipIdx first).filterMap fun p => (error? p.1).map fun e => ⟨p.2, p.1, e⟩

section

variable {line : String} {lines : List String}

/-- A line adds its equation or its error to those of the lines after it. -/
theorem sortLines_cons (h : IsSafe line) (k : ℕ) (rest : List (Option String)) :
    sortLines k (some line :: rest) = (sortLines (k + 1) rest).map fun p =>
      ((equation? line).toList ++ p.1, ((error? line).map (BadLine.mk k line)).toList ++ p.2) := by
  rw [sortLines, equation?, error?]
  -- What the reader tests is `isBlankLine line`, spelled out.
  change (if isBlankLine line then _ else _) = _
  cases hblank : isBlankLine line with
  | true => cases sortLines (k + 1) rest <;> rfl
  | false =>
    cases hparse : Equation.parse line with
    | ok e => cases sortLines (k + 1) rest <;> rfl
    | error e =>
      rw [if_neg Bool.false_ne_true]
      simp only [h e ⟨hblank, hparse⟩]
      cases sortLines (k + 1) rest <;> rfl

theorem badLines_cons (first : ℕ) (line : String) (lines : List String) :
    badLines first (line :: lines) =
      ((error? line).map (BadLine.mk first line)).toList ++ badLines (first + 1) lines := by
  rw [badLines, List.zipIdx_cons, List.filterMap_cons]
  cases error? line <;> rfl

/-- Lines that do not end the run are sorted into the equations on them and the lines that fail. -/
theorem sortLines_append (h : ∀ line ∈ lines, IsSafe line) (k : ℕ) (tail : List (Option String)) :
    sortLines k (lines.map some ++ tail) = (sortLines (k + lines.length) tail).map fun p =>
      (lines.filterMap equation? ++ p.1, badLines k lines ++ p.2) := by
  induction lines generalizing k with
  | nil =>
    rw [List.map_nil, List.nil_append, List.length_nil, Nat.add_zero]
    cases sortLines k tail <;> rfl
  | cons line lines ih =>
    obtain ⟨hline, hlines⟩ := List.forall_mem_cons.1 h
    have hk : k + (line :: lines).length = k + 1 + lines.length := by
      rw [List.length_cons]
      omega
    have hequations : (line :: lines).filterMap equation? =
        (equation? line).toList ++ lines.filterMap equation? := by
      rw [List.filterMap_cons]
      cases equation? line <;> rfl
    rw [List.map_cons, List.cons_append, sortLines_cons hline, ih hlines, hk, badLines_cons,
      hequations]
    cases sortLines (k + 1 + lines.length) tail with
    | error e => rfl
    | ok p => simp [Except.map, List.append_assoc]

/-- The entries are those of the lines that fail, in the order of the lines, which are numbered from
one. -/
structure IsReport (lines : List String) (bad : List BadLine) : Prop where
  mem_iff : ∀ b, b ∈ bad ↔ ∃ i, lines[i]? = some b.text ∧ b.number = i + 1 ∧ Fails b.text b.error
  ascending : bad.Pairwise fun a b => a.number < b.number

theorem isReport_badLines (lines : List String) : IsReport lines (badLines 1 lines) where
  mem_iff b := by
    rw [badLines, List.mem_filterMap]
    constructor
    · rintro ⟨⟨line, k⟩, hmem, hb⟩
      obtain ⟨e, he, rfl⟩ := Option.map_eq_some_iff.1 hb
      obtain ⟨hk, hline⟩ := List.mk_mem_zipIdx_iff_le_and_getElem?_sub.1 hmem
      exact ⟨k - 1, hline, by dsimp only; omega, error?_eq_some.1 he⟩
    · rintro ⟨i, hline, hnumber, hfails⟩
      refine ⟨(b.text, b.number), ?_, ?_⟩
      · apply List.mk_mem_zipIdx_iff_le_and_getElem?_sub.2
        rw [hnumber]
        exact ⟨by omega, by simpa using hline⟩
      · rw [error?_eq_some.2 hfails]
        rfl
  ascending := by
    have hnumbers : (lines.zipIdx 1).Pairwise fun p q => p.2 < q.2 := by
      rw [← List.pairwise_map, List.zipIdx_map_snd]
      exact List.pairwise_lt_range'
    apply hnumbers.filterMap
    intro p q hlt b hb c hc
    obtain ⟨_, _, rfl⟩ := Option.map_eq_some_iff.1 hb
    obtain ⟨_, _, rfl⟩ := Option.map_eq_some_iff.1 hc
    exact hlt

theorem badLines_eq_nil_iff {first : ℕ} :
    badLines first lines = [] ↔ ∀ line ∈ lines, ∀ e, ¬Fails line e := by
  induction lines generalizing first with
  | nil => simp [badLines]
  | cons line lines ih =>
    rw [badLines_cons, List.append_eq_nil_iff, ih, List.forall_mem_cons]
    simp [Option.eq_none_iff_forall_ne_some, error?_eq_some]

theorem map_equation? (h : ∀ line ∈ lines, ∀ e, ¬Fails line e) :
    (lines.filterMap equation?).map .ok =
      (lines.filter fun line => !isBlankLine line).map Equation.parse := by
  induction lines with
  | nil => rfl
  | cons line lines ih =>
    obtain ⟨hline, hlines⟩ := List.forall_mem_cons.1 h
    cases hblank : isBlankLine line with
    | true => simp [equation?, hblank, ih hlines]
    | false =>
      cases hparse : Equation.parse line with
      | ok e => simp [equation?, hblank, hparse, Except.toOption, ih hlines]
      | error e => exact absurd ⟨hblank, hparse⟩ (hline e)

theorem readEquations_map_some (h : ∀ line ∈ lines, IsSafe line) :
    readEquations (lines.map some) =
      if badLines 1 lines = [] then
        if lines.filterMap equation? = [] then .error .empty
        else .ok (lines.filterMap equation?)
      else .error (.unparseable (badLines 1 lines)) := by
  have hsort := sortLines_append h 1 []
  simp only [List.append_nil, sortLines, pure, Except.pure, Except.map] at hsort
  rw [readEquations, hsort, ok_bind]
  cases badLines 1 lines with
  | cons b bad => rfl
  | nil =>
    cases lines.filterMap equation? <;> rfl

theorem readEquations_eq_unparseable_iff (h : ∀ line ∈ lines, IsSafe line) {bad : List BadLine} :
    readEquations (lines.map some) = .error (.unparseable bad) ↔
      (∃ line ∈ lines, ∃ e, Fails line e) ∧ bad = badLines 1 lines := by
  have hfails : badLines 1 lines ≠ [] ↔ ∃ line ∈ lines, ∃ e, Fails line e := by
    simp [badLines_eq_nil_iff]
  rw [readEquations_map_some h, ← hfails]
  split_ifs with hbad <;> simp [hbad, eq_comm]

theorem readEquations_eq_empty_iff (h : ∀ line ∈ lines, IsSafe line) :
    readEquations (lines.map some) = .error .empty ↔ ∀ line ∈ lines, isBlankLine line := by
  have hblank : (lines.filter fun line => !isBlankLine line) = [] ↔
      ∀ line ∈ lines, isBlankLine line := by
    simp [List.filter_eq_nil_iff]
  rw [readEquations_map_some h, ← hblank]
  constructor
  · intro hempty
    split_ifs at hempty with hbad hnil
    · have hmap := map_equation? (badLines_eq_nil_iff.1 hbad)
      rw [hnil, List.map_nil] at hmap
      exact List.map_eq_nil_iff.1 hmap.symm
    · cases hempty
  · intro hnil
    have hbad : ∀ line ∈ lines, ∀ e, ¬Fails line e := by
      intro line hline e he
      simp [hblank.1 hnil line hline, Fails] at he
    have hmap := map_equation? hbad
    rw [hnil, List.map_nil, List.map_eq_nil_iff] at hmap
    rw [if_pos (badLines_eq_nil_iff.2 hbad), if_pos hmap]

theorem exists_readEquations (h : ∀ line ∈ lines, IsSafe line)
    (hfails : ∀ line ∈ lines, ∀ e, ¬Fails line e)
    (hblank : ∃ line ∈ lines, isBlankLine line = false) :
    ∃ es, readEquations (lines.map some) = .ok es ∧
      es.map .ok = (lines.filter fun line => !isBlankLine line).map Equation.parse := by
  refine ⟨_, ?_, map_equation? hfails⟩
  have hnot : readEquations (lines.map some) ≠ .error .empty := by
    rw [Ne, readEquations_eq_empty_iff h]
    push Not
    simpa using hblank
  rw [readEquations_map_some h, if_pos (badLines_eq_nil_iff.2 hfails)] at hnot ⊢
  split_ifs at hnot ⊢ with hnil
  · exact absurd rfl hnot
  · rfl

theorem readEquations_of_none (h : ∀ line ∈ lines, IsSafe line) (rest : List (Option String)) :
    readEquations (lines.map some ++ none :: rest) = .error .undecodable := by
  rw [readEquations, sortLines_append h, sortLines]
  rfl

theorem readEquations_of_fatal (h : ∀ line ∈ lines, IsSafe line) {e : ParseError} {f : Fault}
    (he : Fails line e) (hf : e.fatal? = some f) (rest : List (Option String)) :
    readEquations (lines.map some ++ some line :: rest) = .error (.fault f) := by
  have hblank : line.toList.all Text.isBlank = false := he.1
  rw [readEquations, sortLines_append h, sortLines, hblank, he.2]
  simp only [hf]
  rfl

end

theorem exists_safe_lines (ls : List (Option String)) :
    ∃ (lines : List String) (tail : List (Option String)), ls = lines.map some ++ tail ∧
      (∀ line ∈ lines, IsSafe line) ∧ (tail = [] ∨ (∃ rest, tail = none :: rest) ∨
        ∃ line rest e f, tail = some line :: rest ∧ Fails line e ∧ e.fatal? = some f) := by
  induction ls with
  | nil => exact ⟨[], [], rfl, by simp, .inl rfl⟩
  | cons head ls ih =>
    cases head with
    | none => exact ⟨[], _, rfl, by simp, .inr (.inl ⟨ls, rfl⟩)⟩
    | some line =>
      by_cases hline : IsSafe line
      · obtain ⟨lines, tail, rfl, hlines, htail⟩ := ih
        exact ⟨line :: lines, tail, rfl, List.forall_mem_cons.2 ⟨hline, hlines⟩, htail⟩
      · rw [IsSafe] at hline
        push Not at hline
        obtain ⟨e, he, hfatal⟩ := hline
        obtain ⟨f, hf⟩ := Option.ne_none_iff_exists'.1 hfatal
        exact ⟨[], _, rfl, by simp, .inr (.inr ⟨line, ls, e, f, rfl, he, hf⟩)⟩

/-- The run ends with the first line whose reading ends it, unless one before it is no text. -/
theorem readEquations_eq_fault_iff {ls : List (Option String)} {f : Fault} :
    readEquations ls = .error (.fault f) ↔ ∃ (lines : List String) (line : String)
      (rest : List (Option String)) (e : ParseError), ls = lines.map some ++ some line :: rest ∧
        (∀ line ∈ lines, IsSafe line) ∧ Fails line e ∧ e.fatal? = some f := by
  constructor
  · intro h
    obtain ⟨lines, tail, rfl, hlines, rfl | ⟨rest, rfl⟩ | ⟨line, rest, e, g, rfl, he, hg⟩⟩ :=
      exists_safe_lines ls
    · rw [List.append_nil, readEquations_map_some hlines] at h
      split_ifs at h <;> cases h
    · simp [readEquations_of_none hlines] at h
    · rw [readEquations_of_fatal hlines he hg] at h
      cases h
      exact ⟨lines, line, rest, e, rfl, hlines, he, hg⟩
  · rintro ⟨lines, line, rest, e, rfl, hlines, he, hf⟩
    exact readEquations_of_fatal hlines he hf rest

/-- If no line before the first that is no text ends the run, an input with such a line is rejected
for it. Any other input is rejected with a report on the lines that fail, if there are any. If there
are none, it is empty where all its lines are blank, and otherwise the equations on the others are
read in their order. -/
theorem readEquations_of_isSafe {ls : List (Option String)}
    (h : ∀ line, some line ∈ ls.takeWhile Option.isSome → IsSafe line) :
    (none ∈ ls → readEquations ls = .error .undecodable) ∧
    ∀ lines : List String, ls = lines.map some →
      ((∃ bad, readEquations ls = .error (.unparseable bad)) ↔ ∃ line ∈ lines, ∃ e, Fails line e) ∧
      (∀ bad, readEquations ls = .error (.unparseable bad) → IsReport lines bad) ∧
      (readEquations ls = .error .empty ↔ ∀ line ∈ lines, isBlankLine line) ∧
      ((∀ line ∈ lines, ∀ e, ¬Fails line e) → (∃ line ∈ lines, isBlankLine line = false) →
        ∃ es, readEquations ls = .ok es ∧
          es.map .ok = (lines.filter fun line => !isBlankLine line).map Equation.parse) := by
  obtain ⟨lines, tail, rfl, hlines, rfl | ⟨rest, rfl⟩ | ⟨line, rest, e, f, rfl, he, hf⟩⟩ :=
    exists_safe_lines ls
  · rw [List.append_nil] at h ⊢
    refine ⟨by simp, ?_⟩
    intro lines' heq
    obtain rfl := List.map_injective_iff.2 (Option.some_injective _) heq
    refine ⟨?_, ?_, readEquations_eq_empty_iff hlines, exists_readEquations hlines⟩
    · simp [readEquations_eq_unparseable_iff hlines]
    · intro bad hbad
      obtain ⟨_, rfl⟩ := (readEquations_eq_unparseable_iff hlines).1 hbad
      exact isReport_badLines lines
  · refine ⟨fun _ => readEquations_of_none hlines rest, ?_⟩
    intro lines' heq
    have hmem : none ∈ lines'.map some := heq ▸ by simp
    simp at hmem
  · have hsafe : IsSafe line := by
      apply h
      rw [List.takeWhile_append_of_pos (by simp)]
      simp
    rw [hsafe e he] at hf
    cases hf

set_option maxRecDepth 8000 in
/-- Two lines that fail among equations and blank lines, and one of them before a line that is no
text. -/
theorem readEquations_of_isSafe_mixedLines :
    let lines := ["x = 1", "", "x + = 3", " ", "3 = 4 = 5"]
    let bad : List BadLine :=
      [⟨3, "x + = 3", .malformedTerm ⟨1, 2⟩⟩, ⟨5, "3 = 4 = 5", .secondEqualsSign⟩]
    (∀ line ∈ lines, IsSafe line) ∧ readEquations (lines.map some) = .error (.unparseable bad) ∧
      IsReport lines bad ∧ bad.map BadLine.message =
        ["Line 3: unable to parse \"x + = 3\": Term format is invalid",
          "Line 5: unable to parse \"3 = 4 = 5\": An equation may only contain one \"=\""] ∧
      readEquations [some "x + = 3", none, some "y"] = .error .undecodable := by
  intro lines bad
  have hparse : Equation.parse "x = 1" = .ok (.ofPairs .descending [(1, "x"), (-1, "")]) := by cbv
  have hequation : error? "x = 1" = none := by rw [error?, hparse]; rfl
  have hempty : error? "" = none := if_pos (by decide)
  have hblank : error? " " = none := if_pos (by decide)
  have hsum : error? "x + = 3" = some (.malformedTerm ⟨1, 2⟩) :=
    error?_eq_some.2 ⟨by decide, by cbv⟩
  have hchain : error? "3 = 4 = 5" = some .secondEqualsSign :=
    error?_eq_some.2 ⟨by decide, by cbv⟩
  have hsafe : ∀ line ∈ lines, IsSafe line := by
    simp [lines, isSafe_iff, hequation, hempty, hsum, hblank, hchain, ParseError.fatal?]
  have hbad : bad = badLines 1 lines := by
    simp [bad, lines, badLines, List.zipIdx_cons, hequation, hempty, hsum, hblank, hchain]
  have hreport : readEquations (lines.map some) = .error (.unparseable bad) :=
    (readEquations_eq_unparseable_iff hsafe).2
      ⟨⟨_, by simp [lines], _, error?_eq_some.1 hsum⟩, hbad⟩
  obtain ⟨_, hread⟩ := @readEquations_of_isSafe (lines.map some) fun line hline =>
    hsafe line (by simpa using (List.takeWhile_prefix _).subset hline)
  obtain ⟨hnone, _⟩ := @readEquations_of_isSafe [some "x + = 3", none, some "y"]
    (by simpa using hsafe "x + = 3" (by simp [lines]))
  exact ⟨hsafe, hreport, (hread lines rfl).2.1 bad hreport, by cbv, hnone (by simp)⟩

end ExactLinear.CommandLine
