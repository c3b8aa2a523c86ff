import ExactLinear.Proofs.Reading.Terms

/-! # Sides are read as they are written

A side is read term by term, and the terms read so far are always a written side. An equation is
read as one side or two, so what it consists of is written as well.
-/

namespace ExactLinear

section

variable (last : TokenEnd)

/-- The signed term was read off the front of a side, and ends where it may end. -/
structure IsStepOf (last : TokenEnd) (negated : Bool) (ts : List Token) (f : TermForm) (t : Term)
    (us : List Token) : Prop where
  isWellFormed : f.IsWellFormed
  monomial : t.monomial = (f.name, if negated then -f.value else f.value)
  takes : Takes ts f.lexemes us
  stops : Stops TokenKind.EndsTerm last us

theorem yields_endsSide (ts : List Token) :
    Yields (fun b => b = true → Stops (· = .equals) last ts) (endsSide last ts) := by
  cases ts with
  | nil => exact .bind (yields_check last) fun _ h => .ok fun _ => ⟨fun _ => h, by simp⟩
  | cons t ts => exact .ok fun h => ⟨by simp, by simpa using h⟩

theorem IsTermOf.isStepOf {ts us : List Token} {cs : List Char} {f : TermForm} {t t' : Term}
    {negated : Bool} (h : IsTermOf last (readSigns ts).2 f t us)
    (hs : IsSignsOf ts (readSigns ts) cs) (hmono : t'.monomial =
      (f.name, if negated then -TermForm.value ⟨cs, f.upper, f.lower⟩
        else TermForm.value ⟨cs, f.upper, f.lower⟩)) :
    IsStepOf last negated ts ⟨cs, f.upper, f.lower⟩ t' us := by
  obtain ⟨hwf, hnil, _, _, htake, hstop⟩ := h
  refine ⟨⟨hs.isSigns, hwf.2⟩, hmono, ?_, hstop⟩
  simpa [TermForm.lexemes, hnil] using hs.takes.trans htake

/-- What reading a side does first: it stops at an error or at the end, or it takes one term. -/
theorem readSide_cases (negated : Bool) {ts : List Token} (hv : AreValid ts) :
    (∃ e, readSide last negated ts = ([], .error e) ∧ e.fatal? = none) ∨
      (∃ us, readSide last negated ts = ([], .ok us) ∧ Takes ts [] us ∧
        Stops (· = .equals) last us) ∨
      ∃ f t us, IsStepOf last negated ts f t us ∧ us.length < ts.length ∧
        readSide last negated ts =
          (t :: (readSide last negated us).1, (readSide last negated us).2) := by
  obtain ⟨cs, hs⟩ := exists_isSignsOf hv
  have hvu := hs.takes.areValid hv
  rw [readSide]
  split
  · next e he => exact .inl ⟨e, rfl, (yields_endsSide last _).of_error he⟩
  · next hend =>
    split
    · exact .inl ⟨_, rfl, rfl⟩
    · next hspan =>
      refine .inr (.inl ⟨_, rfl, ?_, (yields_endsSide last _).of_ok hend rfl⟩)
      have htake := hs.takes
      rwa [hs.span.1 hspan] at htake
  · split
    · next e he => exact .inl ⟨e, rfl, (yields_readTerm last hvu).of_error he⟩
    · next t us ht =>
      obtain ⟨f, hf⟩ := (yields_readTerm last hvu).of_ok ht
      have hterm : t.monomial = TermForm.monomial ⟨[], f.upper, f.lower⟩ := by
        rw [hf.monomial, ← hf.signs]
      obtain ⟨t', ht', hmono⟩ := TermForm.exists_signed ⟨cs, f.upper, f.lower⟩ negated hterm
        hf.hasOpposite
      rw [← hs.negative] at ht'
      split
      · next e he => cases ht'.symm.trans he
      · next u hu =>
        obtain rfl := Except.ok.inj (ht'.symm.trans hu)
        have hlt := length_of_readTerm last ht
        have hle := length_readSigns_le ts
        exact .inr (.inr ⟨_, t', us, hf.isStepOf last hs hmono, by omega, rfl⟩)

structure IsSideOf (allowed : TokenKind → Prop) (last : TokenEnd) (negated : Bool)
    (ts : List Token) (s : SideForm) (terms : List Term) (us : List Token) : Prop where
  isWellFormed : s.IsWellFormed
  monomials : terms.map Term.monomial = s.monomials negated
  takes : Takes ts s.lexemes us
  stops : Stops allowed last us

/-- A term that starts after the end of another has a sign. -/
theorem Takes.signs_ne_nil {ts us : List Token} {f : TermForm} {s : SideForm}
    (h : Takes ts (SideForm.lexemes (f :: s)) us) (hs : Stops TokenKind.EndsTerm last ts) :
    f.signs ≠ [] := by
  intro hnil
  have hhead : ∀ l ∈ (ts.map Token.lexeme).head?, l.kind.EndsTerm := by
    rw [List.head?_map]
    rintro _ hl
    obtain ⟨t, ht, rfl⟩ := Option.map_eq_some_iff.1 hl
    exact hs.head t ht
  rw [h] at hhead
  rcases f with ⟨_, upper, lower⟩
  dsimp only at hnil
  subst hnil
  cases upper <;>
    simp [SideForm.lexemes, TermForm.lexemes, PartForm.lexemes, TokenKind.EndsTerm] at hhead

theorem IsStepOf.cons {allowed : TokenKind → Prop} {negated : Bool} {ts us vs : List Token}
    {f : TermForm} {s : SideForm} {t : Term} {terms : List Term}
    (h : IsStepOf last negated ts f t us) (hs : IsSideOf allowed last negated us s terms vs) :
    IsSideOf allowed last negated ts (f :: s) (t :: terms) vs := by
  refine ⟨⟨List.forall_mem_cons.2 ⟨h.isWellFormed, hs.isWellFormed.1⟩, ?_⟩, ?_,
    h.takes.trans hs.takes, hs.stops⟩
  · rw [List.tail_cons]
    cases s with
    | nil => simp
    | cons g s =>
      exact List.forall_mem_cons.2 ⟨hs.takes.signs_ne_nil last h.stops, hs.isWellFormed.2⟩
  · rw [List.map_cons, h.monomial, hs.monomials, SideForm.monomials, SideForm.monomials,
      List.map_cons]

theorem isSideOf_nil {allowed : TokenKind → Prop} {negated : Bool} {ts us : List Token}
    (h : Takes ts [] us) (hs : Stops allowed last us) :
    IsSideOf allowed last negated ts [] [] us :=
  ⟨by simp [SideForm.IsWellFormed], rfl, h, hs⟩

theorem yields_readSide (negated : Bool) {ts : List Token} (hv : AreValid ts) :
    Yields (fun us => ∃ s, IsSideOf (· = .equals) last negated ts s
      (readSide last negated ts).1 us) (readSide last negated ts).2 := by
  induction hk : ts.length using Nat.strong_induction_on generalizing ts with
  | _ k ih =>
    rcases readSide_cases last negated hv with ⟨e, h, he⟩ | ⟨us, h, ht, hs⟩ | ⟨f, t, us, hf, hlt, h⟩
    · rw [h]
      exact .error he
    · rw [h]
      exact .ok ⟨[], isSideOf_nil last ht hs⟩
    · rw [h]
      refine (ih us.length (by omega) (hf.takes.areValid hv) rfl).imp fun vs hs => ?_
      obtain ⟨s, hs⟩ := hs
      exact ⟨f :: s, hf.cons last hs⟩

/-- If a side has terms, the first of them was read off its front and the others after it. -/
theorem exists_isStepOf {negated : Bool} {ts : List Token} (hv : AreValid ts) {t : Term}
    {terms : List Term} (h : (readSide last negated ts).1 = t :: terms) :
    ∃ f us, IsStepOf last negated ts f t us ∧ (readSide last negated us).1 = terms := by
  rcases readSide_cases last negated hv with ⟨e, h', _⟩ | ⟨us, h', _⟩ | ⟨f, u, us, hf, _, h'⟩
  · simp [h'] at h
  · simp [h'] at h
  · rw [h'] at h
    obtain ⟨rfl, rfl⟩ := List.cons.inj h
    exact ⟨f, us, hf, rfl⟩

theorem exists_isSideOf_append (negated : Bool) {ts : List Token} (hv : AreValid ts)
    {l r : List Term} {t : Term} (h : (readSide last negated ts).1 = l ++ t :: r) :
    ∃ s us, IsSideOf TokenKind.EndsTerm last negated ts s (l ++ [t]) us := by
  induction l generalizing ts with
  | nil =>
    obtain ⟨f, us, hf, _⟩ := exists_isStepOf last hv h
    exact ⟨[f], us, hf.cons last (isSideOf_nil last (by simp [Takes]) hf.stops)⟩
  | cons u l ih =>
    obtain ⟨f, us, hf, hrest⟩ := exists_isStepOf last hv h
    obtain ⟨s, vs, hs⟩ := ih (hf.takes.areValid hv) hrest
    exact ⟨f :: s, vs, hf.cons last hs⟩

end
end ExactLinear
