import ExactLinear.Proofs.Reading.Culprits
import ExactLinear.Proofs.Reading.RoundTrip

/-! # Errors point into the text

The place that comes with a parse error is one in the text without its blanks. A span starts and
stops between tokens, and only that of a text that ends too early is empty. A number that is too big
is a whole run of digits, a stray character is the first one, and what comes before a second equals
sign is an equation on its own.
-/

namespace ExactLinear

variable {cs : List Char}

/-- A stretch of the text that starts and stops between tokens. -/
structure Span.IsIn (cs : List Char) (s : Span) : Prop where
  start : IsTokenBoundary cs s.start
  stop : IsTokenBoundary cs s.stop
  start_le : s.start ≤ s.stop
  stop_le : s.stop ≤ byteLength cs

theorem isIn_of_append {l m r : List Token} (h : (tokenize 0 cs).1 = l ++ m ++ r) :
    Span.IsIn cs ⟨byteLength (charsOf l), byteLength (charsOf (l ++ m))⟩ := by
  have hstop := isTokenBoundary_of_append h
  rw [List.append_assoc] at h
  refine ⟨isTokenBoundary_of_append h, hstop, ?_, hstop.le⟩
  simp [charsOf]

theorem isIn_of_ofText {stop : ℕ} (h : (tokenize 0 cs).2 = .ofText stop) :
    Span.IsIn cs ⟨stop, stop⟩ ∧ stop = byteLength cs := by
  obtain ⟨rest, hs, hend⟩ := splits_tokenize 0 cs
  obtain rfl := hend ⟨stop, h⟩
  have hstop : stop = byteLength cs := by
    have hlast := isEndOf_tokenize 0 cs
    rw [h, TokenEnd.IsEndOf, Nat.zero_add] at hlast
    exact hlast
  have hbound : IsTokenBoundary cs stop := by
    have hall := hs.eq_append
    rw [List.append_nil] at hall
    exact ⟨_, [], hs, hstop.trans (congrArg byteLength hall)⟩
  exact ⟨⟨hbound, hbound, Nat.le_refl _, hbound.le⟩, hstop⟩

theorem IsSpanOf.isIn {s : Span} (h : IsSpanOf (tokenize 0 cs).1 s) :
    s.IsIn cs ∧ s.start < s.stop := by
  obtain ⟨t, us, u, ⟨l, hl⟩, hu, rfl⟩ := h
  obtain ⟨m, r, hm⟩ := List.append_of_mem hu
  have hlast : (tokenize 0 cs).1 = (l ++ m) ++ u :: r := by rw [← hl, hm, List.append_assoc]
  have hrow : (tokenize 0 cs).1 = l ++ (m ++ [u]) ++ r := by simp [hlast]
  have hpos : 0 < byteLength u.text := by
    have hvalid : u.lexeme.IsValid := areValid_tokenize 0 cs _ (by simp [hlast])
    exact byteLength_pos hvalid.ne_nil
  rw [span_of_tokenize hl.symm, span_of_tokenize hlast, Nat.zero_add, Nat.zero_add]
  refine ⟨by simpa using isIn_of_append hrow, ?_⟩
  simp only [charsOf, List.flatMap_append, List.flatMap_singleton, byteLength_append]
  omega

theorem Lexeme.IsValid.kind_eq_equals {l : Lexeme} (h : l.IsValid) (hc : '=' ∈ l.text) :
    l.kind = .equals :=
  (Option.some.inj (h.ofChar? hc)).symm

theorem kind_sign_ne (c : Char) : (Lexeme.sign c).kind ≠ .equals := by
  rw [Lexeme.sign]
  split <;> simp

theorem PartForm.kind_ne (p : PartForm) : ∀ l ∈ p.lexemes, l.kind ≠ .equals := by
  cases p <;> simp [lexemes]

theorem TermForm.kind_ne (t : TermForm) : ∀ l ∈ t.lexemes, l.kind ≠ .equals := by
  have hsigns (cs : List Char) : ∀ l ∈ cs.map Lexeme.sign, l.kind ≠ .equals := by
    simpa [List.forall_mem_map] using fun c _ => kind_sign_ne c
  rw [lexemes, List.forall_mem_append, List.forall_mem_append]
  refine ⟨⟨hsigns _, t.upper.kind_ne⟩, ?_⟩
  cases t.lower with
  | none => simp
  | some q =>
    rw [List.forall_mem_append, List.forall_mem_cons]
    exact ⟨⟨by simp [Lexeme.slash], hsigns _⟩, q.2.kind_ne⟩

theorem SideForm.notMem_chars {s : SideForm} (h : s.IsWellFormed) : '=' ∉ s.chars := by
  rw [← flatMap_lexemes]
  intro hmem
  obtain ⟨l, hl, hc⟩ := List.mem_flatMap.1 hmem
  obtain ⟨t, _, ht⟩ := List.mem_flatMap.1 hl
  exact t.kind_ne l ht ((h.isValid l hl).kind_eq_equals hc)

theorem EquationForm.count_chars {s s' : SideForm} (hs : s.IsWellFormed) (hs' : s'.IsWellFormed) :
    (EquationForm.chars ⟨s, some s'⟩).count '=' = 1 := by
  simp [chars, List.count_eq_zero.2 (s.notMem_chars hs), List.count_eq_zero.2 (s'.notMem_chars hs')]

theorem Takes.exists_equals {ls : List Lexeme} {v : Token} {vs : List Token}
    (h : Takes (tokenize 0 cs).1 ls (v :: vs)) (hv : v.kind = .equals) :
    ∃ after, cs = ls.flatMap Lexeme.text ++ '=' :: after := by
  obtain ⟨rest, hs, _⟩ := splits_tokenize 0 cs
  rw [h] at hs
  obtain ⟨middle, hls, hrest⟩ := hs.of_append
  obtain ⟨after, rfl, _⟩ := hrest.extendedBy_head?
  have hvalid : v.lexeme.IsValid := hrest.isValid _ (by simp)
  rw [Token.lexeme_eq_equals hvalid hv] at hls
  exact ⟨after, hls.eq_append⟩

theorem IsEquationOf.parse_chars {f : EquationForm} {ts : List Term} {rest : List Char}
    (h : IsEquationOf cs f ts rest) (hblank : ∀ c ∈ cs, Text.isBlank c = false) :
    Equation.parse (.ofList f.chars) = (Equation.ofTerms ts).mapError .fault := by
  have hchars : ∀ c ∈ f.chars, Text.isBlank c = false := by
    intro c hc
    apply hblank
    rw [h.splits.eq_append, EquationForm.flatMap_lexemes]
    exact List.mem_append_left rest hc
  have hform : f.IsFormOf (.ofList f.chars) := by
    refine ⟨h.isWellFormed, ?_⟩
    rw [String.toList_ofList, Text.removeBlanks_eq_self hchars]
    exact h.isWellFormed.splits
  obtain ⟨us, hmono, hparse⟩ := Equation.parse_of_isFormOf hform
  obtain rfl := List.map_injective_iff.2 Term.monomial_injective (hmono.trans h.monomials.symm)
  exact hparse

/-- The text up to a second equals sign is read as the terms of the sides before it. -/
theorem HasTwoSides.exists_parse {ts : List Term}
    (h : HasTwoSides (tokenize 0 cs).2 (tokenize 0 cs).1 ts)
    (hblank : ∀ c ∈ cs, Text.isBlank c = false) :
    ∃ before after, cs = before ++ '=' :: after ∧ before.count '=' = 1 ∧
      Equation.parse (.ofList before) = (Equation.ofTerms ts).mapError .fault := by
  obtain ⟨hs, hs'⟩ := h
  have hu := hs.stops.head _ rfl
  obtain ⟨_, hf, _⟩ := hs.isEquationOf_append hu hs' endsTerm_of_eq_equals
  obtain ⟨after, hcs⟩ := (hs.takes_append hu hs').exists_equals (hs'.stops.head _ rfl)
  rw [EquationForm.flatMap_lexemes] at hcs
  exact ⟨_, after, hcs, EquationForm.count_chars hs.isWellFormed hs'.isWellFormed,
    hf.parse_chars hblank⟩

/-- The character can stand in a token. -/
def TokenKind.Admits (c : Char) : Prop :=
  c = '+' ∨ c = '-' ∨ c = '/' ∨ c = '=' ∨ c.isDigit ∨ Text.isAlphabetic c

theorem TokenKind.ofChar?_eq_none {c : Char} : ofChar? c = none ↔ ¬Admits c := by
  rw [ofChar?, Admits]
  split_ifs <;> simp_all

/-- The place and the cause that come with an error are there in the text. -/
def ParseError.PointsInto (cs : List Char) : ParseError → Prop
  | malformedTerm s => s.IsIn cs ∧ (s.start = s.stop → s.stop = byteLength cs)
  | strayCharacter c i => ∃ before after, cs = before ++ c :: after ∧ i = byteLength before ∧
      ¬TokenKind.Admits c ∧ ∀ d ∈ before, TokenKind.Admits d
  | secondEqualsSign => ∃ before after, cs = before ++ '=' :: after ∧ before.count '=' = 1 ∧
      ∃ e, Equation.parse (.ofList before) = .ok e
  | oversizedNumber s => s.IsIn cs ∧ s.start < s.stop ∧
      ∃ before ds after, IsDigitRun cs ds before after ∧
        s = ⟨byteLength before, byteLength (before ++ ds)⟩ ∧ 9223372036854775807 < decimal ds
  | fault _ => True

theorem Blames.pointsInto {e : ParseError} (h : Blames (tokenize 0 cs).2 (tokenize 0 cs).1 e) :
    e.PointsInto cs := by
  cases h with
  | tokens h =>
    obtain ⟨hin, hlt⟩ := h.isIn
    exact ⟨hin, fun h => absurd h hlt.ne⟩
  | ended h =>
    obtain ⟨hin, hstop⟩ := isIn_of_ofText h
    exact ⟨hin, fun _ => hstop⟩
  | @stray c i h =>
    have hend := isEndOf_tokenize 0 cs
    rw [h] at hend
    obtain ⟨before, after, hcs, hi, hc, hbefore⟩ := hend
    refine ⟨before, after, hcs, by simpa using hi, TokenKind.ofChar?_eq_none.1 hc, ?_⟩
    exact fun d hd => not_not.1 fun hnot => hbefore d hd (TokenKind.ofChar?_eq_none.2 hnot)
  | @number t ht hk hn =>
    obtain ⟨l, r, hrow⟩ := List.append_of_mem ht
    obtain ⟨after, hrun⟩ := isDigitRun_of_tokenize hrow hk
    have hin : IsSpanOf (tokenize 0 cs).1 t.span :=
      ⟨t, r, t, ⟨l, hrow.symm⟩, List.mem_cons_self .., rfl⟩
    refine ⟨hin.isIn.1, hin.isIn.2, charsOf l, t.text, after, hrun, ?_, ?_⟩
    · simp [span_of_tokenize hrow, charsOf]
    · rw [FitsWord] at hn
      omega
  | fault f => trivial

namespace Equation

/-- What a parse error says is there in the text without its blanks. A span stands between tokens
and is empty only at the end of the text, a number that is too big is a whole run of digits, a stray
character is the first one, and the text before a second equals sign is accepted. -/
theorem pointsInto_of_parse {s : String} {e : ParseError} (h : parse s = .error e) :
    e.PointsInto (Text.removeBlanks s.toList) := by
  rcases parse_eq_error h with ⟨f, rfl, _⟩ | herr
  · trivial
  rcases blames_of_readEquation _ e herr with hblames | ⟨rfl, hsides⟩
  · exact hblames.pointsInto
  have hblank : ∀ c ∈ Text.removeBlanks s.toList, Text.isBlank c = false := by
    intro c hc
    simpa using List.of_mem_filter hc
  obtain ⟨before, after, hcs, hcount, hbefore⟩ := hsides.exists_parse hblank
  refine ⟨before, after, hcs, hcount, ?_⟩
  -- Terms without a sum would have been the error.
  rw [hbefore]
  rw [parse_eq, herr] at h
  cases hsum : ofTerms (readEquation (Text.removeBlanks s.toList)).1 with
  | ok e => exact ⟨e, rfl⟩
  | error f =>
    rw [hsum] at h
    cases h

set_option maxRecDepth 8000 in
/-- A name below the line after a letter of two bytes, a text that ends at its slash, a number too
big by one, a power, and a chain of equations. -/
theorem pointsInto_of_parse_fiveTexts :
    (parse "я = 2/y" = .error (.malformedTerm ⟨3, 6⟩) ∧
      (ParseError.malformedTerm ⟨3, 6⟩).PointsInto ['я', '=', '2', '/', 'y']) ∧
    (parse "x /" = .error (.malformedTerm ⟨2, 2⟩) ∧
      (ParseError.malformedTerm ⟨2, 2⟩).PointsInto ['x', '/']) ∧
    (parse "1 - 9223372036854775808 x" = .error (.oversizedNumber ⟨2, 21⟩) ∧
      (ParseError.oversizedNumber ⟨2, 21⟩).PointsInto "1-9223372036854775808x".toList) ∧
    (parse "1 + x^2" = .error (.strayCharacter '^' 3) ∧
      (ParseError.strayCharacter '^' 3).PointsInto ['1', '+', 'x', '^', '2']) ∧
    parse "x = y = z" = .error .secondEqualsSign ∧
      ParseError.secondEqualsSign.PointsInto ['x', '=', 'y', '=', 'z'] := by
  have hquotient : parse "я = 2/y" = .error (.malformedTerm ⟨3, 6⟩) := by cbv
  have hslash : parse "x /" = .error (.malformedTerm ⟨2, 2⟩) := by cbv
  have hnumber : parse "1 - 9223372036854775808 x" = .error (.oversizedNumber ⟨2, 21⟩) := by cbv
  have hpower : parse "1 + x^2" = .error (.strayCharacter '^' 3) := by cbv
  have hchain : parse "x = y = z" = .error .secondEqualsSign := by cbv
  exact ⟨⟨hquotient, pointsInto_of_parse hquotient⟩, ⟨hslash, pointsInto_of_parse hslash⟩,
    ⟨hnumber, pointsInto_of_parse hnumber⟩, ⟨hpower, pointsInto_of_parse hpower⟩,
    hchain, pointsInto_of_parse hchain⟩

end Equation
end ExactLinear
