import ExactLinear.Proofs.Elimination.Evaluation
import ExactLinear.Proofs.Reading.Completeness

/-! # The language of equations

Reading accepts the texts that a well formed equation splits into, and gives every variable the sum
of the coefficients that are written before it. It ends the run only where such a sum, over the
terms up to some point, has no stored form.
-/

namespace ExactLinear

/-- The text without its blanks splits into the lexemes of the form, and nothing is left. -/
def EquationForm.IsFormOf (f : EquationForm) (s : String) : Prop :=
  f.IsWellFormed ∧ Splits (Text.removeBlanks s.toList) f.lexemes []

namespace Equation

theorem exists_ofRat_of_ofTerms {ts : List Term} {f : Fault} (h : ofTerms ts = .error f) :
    ∃ l t r, ts = l ++ t :: r ∧
      Fraction.ofRat (coefficientSum t.name ((l ++ [t]).map Term.monomial)) = .error f := by
  obtain ⟨l, t, r, rfl, hsum⟩ := ofRat_of_addTerms isTidy_empty h
  refine ⟨l, t, r, rfl, ?_⟩
  simpa using hsum

theorem isFatal_of_ofTerms {ts : List Term} {f : Fault} (h : ofTerms ts = .error f) :
    f.isFatal := by
  obtain ⟨_, _, _, _, hsum⟩ := exists_ofRat_of_ofTerms h
  rcases Fraction.isOverflow_of_ofRat hsum with ⟨_⟩ | _ <;> rfl

/-- The terms are added up before the error to their right is reported. -/
theorem parse_eq (s : String) : parse s =
    ((ofTerms (readEquation (Text.removeBlanks s.toList)).1).mapError .fault >>= fun e =>
      (readEquation (Text.removeBlanks s.toList)).2.elim (.ok e) .error) := by
  rw [parse]
  obtain ⟨ts, error?⟩ := readEquation (Text.removeBlanks s.toList)
  dsimp only
  generalize ofTerms ts = sum
  cases sum <;> cases error? <;> rfl

theorem parse_eq_ok {s : String} {e : Equation} (h : parse s = .ok e) :
    (readEquation (Text.removeBlanks s.toList)).2 = none := by
  rw [parse_eq] at h
  obtain ⟨_, _, h⟩ := bind_eq_ok.1 h
  cases herr : (readEquation (Text.removeBlanks s.toList)).2 with
  | none => rfl
  | some err =>
    rw [herr] at h
    cases h

theorem parse_eq_error {s : String} {e : ParseError} (h : parse s = .error e) :
    (∃ f, e = .fault f ∧ ofTerms (readEquation (Text.removeBlanks s.toList)).1 = .error f) ∨
      (readEquation (Text.removeBlanks s.toList)).2 = some e := by
  rw [parse_eq] at h
  rcases bind_eq_error.1 h with h | ⟨_, _, h⟩
  · cases hsum : ofTerms (readEquation (Text.removeBlanks s.toList)).1 with
    | ok r => rw [hsum] at h; cases h
    | error f => rw [hsum] at h; cases h; exact .inl ⟨f, rfl, rfl⟩
  · cases herr : (readEquation (Text.removeBlanks s.toList)).2 with
    | none => rw [herr] at h; cases h
    | some err => rw [herr] at h; cases h; exact .inr rfl

theorem parse_of_isFormOf {s : String} {f : EquationForm} (h : f.IsFormOf s) :
    ∃ ts, ts.map Term.monomial = f.monomials ∧ parse s = (ofTerms ts).mapError .fault := by
  obtain ⟨ts, hread, hmono⟩ := readEquation_of_splits h.1 h.2
  refine ⟨ts, hmono, ?_⟩
  rw [parse_eq, hread]
  cases ofTerms ts <;> rfl

/-- If reading ends the run, the fault is that of a sum over the terms read so far. -/
theorem exists_isEquationOf_of_parse {s : String} {e : ParseError} {fault : Fault}
    (h : parse s = .error e) (hfatal : e.fatal? = some fault) :
    ∃ f terms rest n, IsEquationOf (Text.removeBlanks s.toList) f terms rest ∧
      Fraction.ofRat (f.coefficientOf n) = .error fault := by
  rcases parse_eq_error h with ⟨g, rfl, hsum⟩ | herr
  · have hg : g = fault := by
      rw [ParseError.fatal?, if_pos (isFatal_of_ofTerms hsum)] at hfatal
      exact Option.some.inj hfatal
    subst hg
    obtain ⟨l, t, r, hts, hsum⟩ := exists_ofRat_of_ofTerms hsum
    obtain ⟨f, rest, hf⟩ := exists_isEquationOf_append hts
    refine ⟨f, _, rest, t.name, hf, ?_⟩
    rw [← EquationForm.coefficientSum_monomials, ← hf.monomials]
    exact hsum
  · rw [fatal?_readEquation herr] at hfatal
    cases hfatal

/-- Reading accepts exactly the written equations, unless it ends the run. The coefficients of what
it returns are those that the text denotes. It ends the run only where a sum of like terms, from the
start of the text to the end of one of its terms, has no stored form. -/
theorem parse_iff_isFormOf (s : String) :
    ((∀ e, parse s = .error e → e.fatal? = none) →
      ((∃ e, parse s = .ok e) ↔ ∃ f : EquationForm, f.IsFormOf s)) ∧
    (∀ (e : Equation) (f : EquationForm), parse s = .ok e → f.IsFormOf s →
      e.constant.value = f.coefficientOf .blank ∧
        ∀ n, (e.coefficientOf n).value = f.coefficientOf n) ∧
    ∀ e fault, parse s = .error e → e.fatal? = some fault →
      ∃ (f : EquationForm) (rest : List Char) (n : Name), f.IsWellFormed ∧
        Splits (Text.removeBlanks s.toList) f.lexemes rest ∧ EndsTerm rest ∧
        Fraction.ofRat (f.coefficientOf n) = .error fault := by
  refine ⟨fun hplain => ⟨?_, ?_⟩, ?_, ?_⟩
  · rintro ⟨e, he⟩
    obtain ⟨f, hf⟩ := exists_isEquationOf (parse_eq_ok he)
    exact ⟨f, hf.isWellFormed, hf.splits⟩
  · rintro ⟨f, hf⟩
    obtain ⟨ts, _, hparse⟩ := parse_of_isFormOf hf
    cases hsum : ofTerms ts with
    | ok e => exact ⟨e, by rw [hparse, hsum]; rfl⟩
    | error g =>
      rw [hsum] at hparse
      have hnone := hplain (.fault g) hparse
      rw [ParseError.fatal?, if_pos (isFatal_of_ofTerms hsum)] at hnone
      cases hnone
  · intro e f he hf
    obtain ⟨ts, hmono, hparse⟩ := parse_of_isFormOf hf
    have hsum : ofTerms ts = .ok e := by
      rw [he] at hparse
      cases h : ofTerms ts with
      | ok e' => rw [h] at hparse; cases hparse; rfl
      | error g => rw [h] at hparse; cases hparse
    have hcoeff (n : Name) : (e.coefficientOf n).value = f.coefficientOf n := by
      rw [value_coefficientOf_ofTerms hsum, hmono, EquationForm.coefficientSum_monomials]
    exact ⟨by rw [constant_eq_coefficientOf, hcoeff], hcoeff⟩
  · intro e fault he hfatal
    obtain ⟨f, _, rest, n, hf, hsum⟩ := exists_isEquationOf_of_parse he hfatal
    exact ⟨f, rest, n, hf.isWellFormed, hf.splits, hf.endsTerm, hsum⟩

set_option maxRecDepth 8000 in
/-- A quotient with a sign below the line and a variable on both sides, and a constant whose second
summand is too much. -/
theorem parse_iff_isFormOf_quotient :
    parse "x + 6/-3 = 3x" = .ok (.ofPairs .descending [(-2, "x"), (-2, "")]) ∧
    (∃ f : EquationForm, f.IsFormOf "x + 6/-3 = 3x" ∧ f.coefficientOf (.ofText "x") = -2 ∧
      f.coefficientOf .blank = -2) ∧
    parse "9223372036854775807 + 1 + y" = .error (.fault (.overflow 9223372036854775808)) ∧
    ∃ (f : EquationForm) (rest : List Char) (n : Name), f.IsWellFormed ∧
      Splits "9223372036854775807+1+y".toList f.lexemes rest ∧ EndsTerm rest ∧
      Fraction.ofRat (f.coefficientOf n) = .error (.overflow 9223372036854775808) := by
  have hread : parse "x + 6/-3 = 3x" = .ok (.ofPairs .descending [(-2, "x"), (-2, "")]) := by cbv
  have hfail : parse "9223372036854775807 + 1 + y" =
      .error (.fault (.overflow 9223372036854775808)) := by cbv
  obtain ⟨hiff, hvalue, _⟩ := parse_iff_isFormOf "x + 6/-3 = 3x"
  obtain ⟨f, hf⟩ := (hiff (by simp [hread])).1 ⟨_, hread⟩
  obtain ⟨hconst, hcoeff⟩ := hvalue _ f hread hf
  have hx : f.coefficientOf (.ofText "x") = -2 := (hcoeff (.ofText "x")).symm.trans (by cbv)
  exact ⟨hread, ⟨f, hf, hx, hconst.symm.trans (by cbv)⟩, hfail,
    (parse_iff_isFormOf _).2.2 _ _ hfail rfl⟩

end Equation
end ExactLinear
