import ExactLinear.Proofs.Reading.Sides

/-! # Equations are read as they are written

The terms that are read from a text are those of a written equation at its start. They are those of
the whole text if there is no error, and no error of the reader ends the run.
-/

namespace ExactLinear

theorem Stops.imp {p q : TokenKind → Prop} {last : TokenEnd} {ts : List Token}
    (h : Stops p last ts) (hpq : ∀ k, p k → q k) : Stops q last ts :=
  ⟨h.last, fun t ht => hpq _ (h.head t ht)⟩

theorem endsTerm_of_eq_equals (k : TokenKind) (h : k = .equals) : k.EndsTerm := .inr (.inr h)

theorem areValid_tokenize (start : ℕ) (cs : List Char) : AreValid (tokenize start cs).1 := by
  obtain ⟨rest, h, _⟩ := splits_tokenize start cs
  exact h.isValid

theorem Takes.exists_splits {cs : List Char} {ls : List Lexeme} {us : List Token}
    (h : Takes (tokenize 0 cs).1 ls us) (hs : Stops TokenKind.EndsTerm (tokenize 0 cs).2 us) :
    ∃ rest, Splits cs ls rest ∧ EndsTerm rest ∧ (us = [] → rest = []) := by
  obtain ⟨rest, hsplit, hend⟩ := splits_tokenize 0 cs
  rw [h] at hsplit
  obtain ⟨middle, hls, hus⟩ := hsplit.of_append
  refine ⟨middle, hls, ?_⟩
  cases us with
  | nil =>
    cases hus
    rw [hend (hs.last rfl)]
    exact ⟨by simp [EndsTerm], fun _ => rfl⟩
  | cons u us =>
    cases hus with
    | next valid _ _ =>
      refine ⟨?_, by simp⟩
      have hk : u.kind.EndsTerm := hs.head u rfl
      rw [Lexeme.IsValid] at valid
      rcases hk with hk | hk | hk <;>
        simp [Token.lexeme, hk, TokenKind.Matches] at valid <;>
        simp [EndsTerm, Token.lexeme, valid]

/-- The equation was read off the front of the text, and its last term ends before the rest. -/
structure IsEquationOf (cs : List Char) (f : EquationForm) (terms : List Term)
    (rest : List Char) : Prop where
  isWellFormed : f.IsWellFormed
  monomials : terms.map Term.monomial = f.monomials
  splits : Splits cs f.lexemes rest
  endsTerm : EndsTerm rest

/-- How reading an equation ends: with an error after the left-hand side, at the end of the text, or
with a right-hand side. -/
inductive EquationReading (last : TokenEnd) (ts : List Token) :
    List Term × Option ParseError → Prop
  | rejected {e : ParseError} (he : e.fatal? = none) :
    EquationReading last ts ((readSide last false ts).1, some e)
  | oneSide {s : SideForm}
      (hs : IsSideOf (· = .equals) last false ts s (readSide last false ts).1 []) :
    EquationReading last ts ((readSide last false ts).1, none)
  | twoSides {s : SideForm} {u : Token} {us : List Token} {error? : Option ParseError}
      (hs : IsSideOf (· = .equals) last false ts s (readSide last false ts).1 (u :: us))
      (hu : u.kind = .equals) (he : ∀ e, error? = some e → e.fatal? = none)
      (hr : error? = none →
        ∃ s', IsSideOf (· = .equals) last true us s' (readSide last true us).1 []) :
    EquationReading last ts ((readSide last false ts).1 ++ (readSide last true us).1, error?)

theorem trailingError?_eq_none {ts : List Token} : trailingError? ts = none ↔ ts = [] := by
  cases ts <;> simp [trailingError?]

/-- An error after a side is that of a second equals sign, since nothing else can follow. -/
theorem fatal?_trailingError? {last : TokenEnd} {ts : List Token}
    (h : Stops (· = .equals) last ts) {e : ParseError} (he : trailingError? ts = some e) :
    e.fatal? = none := by
  cases ts with
  | nil => cases he
  | cons t ts =>
    rw [trailingError?, if_pos (h.head t rfl)] at he
    cases he
    rfl

theorem equationReading (cs : List Char) :
    EquationReading (tokenize 0 cs).2 (tokenize 0 cs).1 (readEquation cs) := by
  have hv := areValid_tokenize 0 cs
  rw [readEquation]
  generalize tokenize 0 cs = tokens at hv ⊢
  obtain ⟨ts, last⟩ := tokens
  have hleft := yields_readSide last false hv
  dsimp only at hv hleft ⊢
  split
  · next left e hl =>
    obtain ⟨rfl, hl⟩ := Prod.ext_iff.1 hl
    exact .rejected (hleft.of_error hl)
  · next left hl =>
    obtain ⟨rfl, hl⟩ := Prod.ext_iff.1 hl
    obtain ⟨s, hs⟩ := hleft.of_ok hl
    exact .oneSide hs
  · next left u us hl =>
    obtain ⟨rfl, hl⟩ := Prod.ext_iff.1 hl
    obtain ⟨s, hs⟩ := hleft.of_ok hl
    have hu : u.kind = .equals := hs.stops.head u rfl
    have hvu : AreValid us := fun l hl => hs.takes.areValid hv l (List.mem_cons_of_mem _ hl)
    have hright := yields_readSide last true hvu
    rw [if_neg (not_not.2 hu)]
    split
    · next right e hr =>
      obtain ⟨rfl, hr⟩ := Prod.ext_iff.1 hr
      exact .twoSides hs hu (by simpa using hright.of_error hr) (by simp)
    · next right rest hr =>
      obtain ⟨rfl, hr⟩ := Prod.ext_iff.1 hr
      obtain ⟨s', hs'⟩ := hright.of_ok hr
      refine .twoSides hs hu (fun e he => fatal?_trailingError? hs'.stops he) fun hnone => ?_
      rw [trailingError?_eq_none.1 hnone] at hs'
      exact ⟨s', hs'⟩

theorem fatal?_readEquation {cs : List Char} {e : ParseError} (h : (readEquation cs).2 = some e) :
    e.fatal? = none := by
  have hread := equationReading cs
  generalize readEquation cs = r at h hread
  cases hread with
  | rejected he => exact Option.some.inj h ▸ he
  | oneSide _ => cases h
  | twoSides _ _ he _ => exact he e h

theorem IsSideOf.isEquationOf {cs : List Char} {s : SideForm} {terms : List Term} {us : List Token}
    {allowed : TokenKind → Prop}
    (h : IsSideOf allowed (tokenize 0 cs).2 false (tokenize 0 cs).1 s terms us)
    (hallowed : ∀ k, allowed k → k.EndsTerm) :
    ∃ rest, IsEquationOf cs ⟨s, none⟩ terms rest ∧ (us = [] → rest = []) := by
  have htake : Takes (tokenize 0 cs).1 (EquationForm.lexemes ⟨s, none⟩) us := by
    simpa [EquationForm.lexemes] using h.takes
  obtain ⟨rest, hsplit, hend, hnil⟩ := htake.exists_splits (h.stops.imp hallowed)
  refine ⟨rest, ⟨⟨h.isWellFormed, by simp⟩, ?_, hsplit, hend⟩, hnil⟩
  simpa [EquationForm.monomials, SideForm.monomials] using h.monomials

theorem IsSideOf.takes_append {cs : List Char} {s s' : SideForm} {left right : List Term}
    {u : Token} {us vs : List Token} {allowed : TokenKind → Prop}
    (h : IsSideOf (· = .equals) (tokenize 0 cs).2 false (tokenize 0 cs).1 s left (u :: us))
    (hu : u.kind = .equals) (h' : IsSideOf allowed (tokenize 0 cs).2 true us s' right vs) :
    Takes (tokenize 0 cs).1 (EquationForm.lexemes ⟨s, some s'⟩) vs := by
  have hvu : u.lexeme.IsValid := h.takes.areValid (areValid_tokenize 0 cs) _ (by simp)
  have heq : Takes (u :: us) [.equals] us := by
    rw [Takes, List.map_cons, Token.lexeme_eq_equals hvu hu, List.singleton_append]
  simpa [EquationForm.lexemes] using h.takes.trans (heq.trans h'.takes)

theorem IsSideOf.isEquationOf_append {cs : List Char} {s s' : SideForm} {left right : List Term}
    {u : Token} {us vs : List Token} {allowed : TokenKind → Prop}
    (h : IsSideOf (· = .equals) (tokenize 0 cs).2 false (tokenize 0 cs).1 s left (u :: us))
    (hu : u.kind = .equals) (h' : IsSideOf allowed (tokenize 0 cs).2 true us s' right vs)
    (hallowed : ∀ k, allowed k → k.EndsTerm) :
    ∃ rest, IsEquationOf cs ⟨s, some s'⟩ (left ++ right) rest ∧ (vs = [] → rest = []) := by
  obtain ⟨rest, hsplit, hend, hnil⟩ :=
    (h.takes_append hu h').exists_splits (h'.stops.imp hallowed)
  refine ⟨rest, ⟨⟨h.isWellFormed, by simpa using h'.isWellFormed⟩, ?_, hsplit, hend⟩, hnil⟩
  rw [List.map_append, h.monomials, h'.monomials, EquationForm.monomials, Option.getD_some]

theorem exists_isEquationOf {cs : List Char} (h : (readEquation cs).2 = none) :
    ∃ f, IsEquationOf cs f (readEquation cs).1 [] := by
  have hread := equationReading cs
  generalize readEquation cs = r at h hread
  cases hread with
  | rejected _ => cases h
  | oneSide hs =>
    obtain ⟨rest, hf, hnil⟩ := hs.isEquationOf endsTerm_of_eq_equals
    exact ⟨_, hnil rfl ▸ hf⟩
  | twoSides hs hu _ hr =>
    obtain ⟨s', hs'⟩ := hr h
    obtain ⟨rest, hf, hnil⟩ := hs.isEquationOf_append hu hs' endsTerm_of_eq_equals
    exact ⟨_, hnil rfl ▸ hf⟩

/-- The terms up to any one of them are those of a written equation, whatever follows. -/
theorem exists_isEquationOf_append {cs : List Char} {l r : List Term} {t : Term}
    (h : (readEquation cs).1 = l ++ t :: r) : ∃ f rest, IsEquationOf cs f (l ++ [t]) rest := by
  have hv := areValid_tokenize 0 cs
  have hleft {r : List Term}
      (h : (readSide (tokenize 0 cs).2 false (tokenize 0 cs).1).1 = l ++ t :: r) :
      ∃ f rest, IsEquationOf cs f (l ++ [t]) rest := by
    obtain ⟨s, us, hs⟩ := exists_isSideOf_append _ false hv h
    obtain ⟨rest, hf, _⟩ := hs.isEquationOf fun _ => id
    exact ⟨_, rest, hf⟩
  have hread := equationReading cs
  generalize readEquation cs = read at h hread
  cases hread with
  | rejected _ => exact hleft h
  | oneSide _ => exact hleft h
  | @twoSides s u us _ hs hu _ _ =>
    have hright {m : List Term}
        (hl : l = (readSide (tokenize 0 cs).2 false (tokenize 0 cs).1).1 ++ m)
        (hm : (readSide (tokenize 0 cs).2 true us).1 = m ++ t :: r) :
        ∃ f rest, IsEquationOf cs f (l ++ [t]) rest := by
      have hvu : AreValid us := fun l hl => hs.takes.areValid hv l (List.mem_cons_of_mem _ hl)
      obtain ⟨s', vs, hs'⟩ := exists_isSideOf_append _ true hvu hm
      obtain ⟨rest, hf, _⟩ := hs.isEquationOf_append hu hs' fun _ => id
      rw [← List.append_assoc, ← hl] at hf
      exact ⟨_, rest, hf⟩
    rcases List.append_eq_append_iff.1 h with ⟨m, hl, hr⟩ | ⟨m, hl, hr⟩
    · exact hright hl hr
    · cases m with
      | nil => exact hright (m := []) (by simpa using hl.symm) (by simpa using hr.symm)
      | cons w m =>
        obtain ⟨rfl, _⟩ := List.cons.inj hr
        exact hleft hl

end ExactLinear
