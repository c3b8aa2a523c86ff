import ExactLinear.Equation.Reading
import ExactLinear.Proofs.Reading.Lexemes

/-! # Places in a text

The span of a token is the bytes before it and the bytes up to its end, so spans start and stop
where the text before them splits into tokens. A digit run stands between characters that are no
digits, and the end of the tokens is the end of the text or its first character that starts none.
-/

namespace ExactLinear

@[simp] theorem byteLength_nil : byteLength [] = 0 := rfl

@[simp] theorem byteLength_append (cs ds : List Char) :
    byteLength (cs ++ ds) = byteLength cs + byteLength ds := by
  induction cs with
  | nil => simp
  | cons c cs ih => simp [byteLength, ih, Nat.add_assoc]

theorem byteLength_pos {cs : List Char} (h : cs ≠ []) : 0 < byteLength cs := by
  cases cs with
  | nil => exact absurd rfl h
  | cons c cs =>
    have hc := c.utf8Size_pos
    rw [byteLength]
    omega

theorem Lexeme.IsValid.ofChar? {l : Lexeme} (h : l.IsValid) {c : Char} (hc : c ∈ l.text) :
    TokenKind.ofChar? c = some l.kind := by
  obtain ⟨d, ds, ht, hd, hds⟩ := TokenKind.matches_iff.1 h
  rw [ht] at hc
  rcases List.mem_cons.1 hc with rfl | hc
  · exact hd
  · have he := hds c hc
    simp only [TokenKind.extendedBy, Bool.and_eq_true, decide_eq_true_eq] at he
    exact he.2

theorem Lexeme.IsValid.ne_nil {l : Lexeme} (h : l.IsValid) : l.text ≠ [] := by
  obtain ⟨d, ds, ht, _⟩ := TokenKind.matches_iff.1 h
  simp [ht]

namespace Splits

variable {cs rest : List Char} {l m : Lexeme} {ls : List Lexeme}

theorem eq_append (h : Splits cs ls rest) : cs = ls.flatMap Lexeme.text ++ rest := by
  induction h with
  | done => rfl
  | next _ _ _ ih => rw [List.flatMap_cons, List.append_assoc, ← ih]

theorem extendedBy_head? (h : Splits cs (l :: ls) rest) :
    ∃ after, cs = l.text ++ after ∧ Splits after ls rest ∧
      ∀ c ∈ after.head?, l.kind.extendedBy c = false := by
  cases h with
  | @next _ after _ _ valid longest hs =>
    refine ⟨after, rfl, hs, ?_⟩
    intro c hc
    by_contra hext
    obtain ⟨d, ds, ht, hd, hds⟩ := TokenKind.matches_iff.1 valid
    obtain ⟨after, rfl⟩ : ∃ tail, after = c :: tail := by
      cases after with
      | nil => cases hc
      | cons b tail => exact ⟨tail, by simpa using hc⟩
    have hlonger : Lexeme.IsValid ⟨l.kind, l.text ++ [c]⟩ := by
      apply TokenKind.matches_iff.2
      refine ⟨d, ds ++ [c], by simp [ht], hd, ?_⟩
      rw [List.forall_mem_append]
      exact ⟨hds, by simpa using hext⟩
    have hle := longest _ hlonger ⟨after, by simp⟩
    simp at hle

theorem kind_ne (h : Splits cs (l :: m :: ls) rest) (hrun : l.kind.isRun) : m.kind ≠ l.kind := by
  intro heq
  obtain ⟨after, _, hs, hstop⟩ := h.extendedBy_head?
  obtain ⟨hm, _⟩ := List.forall_mem_cons.1 hs.isValid
  obtain ⟨c, ds, ht, hc, _⟩ := TokenKind.matches_iff.1 hm
  obtain ⟨later, rfl, _⟩ := hs.extendedBy_head?
  have hfalse := hstop c (by simp [ht])
  simp [TokenKind.extendedBy, hrun, hc, heq] at hfalse

end Splits

/-- The characters of tokens that lie side by side. -/
def charsOf (ts : List Token) : List Char := ts.flatMap Token.text

theorem flatMap_lexeme (ts : List Token) :
    (ts.map Token.lexeme).flatMap Lexeme.text = charsOf ts := by
  rw [charsOf, List.flatMap_map]
  rfl

/-- The first token starts where the text does, and the others are those of what follows it. -/
theorem tokenize_eq_cons {start : ℕ} {cs : List Char} {t : Token} {ts : List Token}
    (h : (tokenize start cs).1 = t :: ts) :
    t.span = ⟨start, start + byteLength t.text⟩ ∧
      ∃ after, cs = t.text ++ after ∧ (∀ c ∈ t.text, TokenKind.ofChar? c = some t.kind) ∧
        tokenize start cs =
          (t :: (tokenize t.span.stop after).1, (tokenize t.span.stop after).2) := by
  cases cs with
  | nil => simp [tokenize] at h
  | cons c cs =>
    cases hc : TokenKind.ofChar? c with
    | none => simp [tokenize_of_none hc] at h
    | some k =>
      rw [tokenize, hc] at h ⊢
      obtain ⟨rfl, rfl⟩ := List.cons.inj h
      refine ⟨rfl, cs.dropWhile k.extendedBy, ?_, ?_, rfl⟩
      · rw [List.cons_append, List.takeWhile_append_dropWhile]
      · exact fun d hd => (Lexeme.isValid_takeWhile hc cs).ofChar? hd

/-- A token starts after the bytes of the tokens before it. -/
theorem span_of_tokenize {start : ℕ} {cs : List Char} {l r : List Token} {t : Token}
    (h : (tokenize start cs).1 = l ++ t :: r) :
    t.span = ⟨start + byteLength (charsOf l), start + byteLength (charsOf (l ++ [t]))⟩ := by
  induction l generalizing start cs with
  | nil => simpa [charsOf] using (tokenize_eq_cons h).1
  | cons a l ih =>
    obtain ⟨hspan, after, _, _, htok⟩ := tokenize_eq_cons h
    rw [htok] at h
    rw [ih (List.cons.inj h).2, hspan]
    simp [charsOf, Nat.add_assoc]

/-- Where the tokens of a text end: with it, or before its first character that starts none. -/
def TokenEnd.IsEndOf (start : ℕ) (cs : List Char) : TokenEnd → Prop
  | ofText stop => stop = start + byteLength cs
  | stray c i => ∃ before after, cs = before ++ c :: after ∧ i = start + byteLength before ∧
      TokenKind.ofChar? c = none ∧ ∀ d ∈ before, TokenKind.ofChar? d ≠ none

theorem isEndOf_tokenize (start : ℕ) (cs : List Char) :
    (tokenize start cs).2.IsEndOf start cs := by
  generalize hts : (tokenize start cs).1 = ts
  induction ts generalizing start cs with
  | nil =>
    cases cs with
    | nil => simp [tokenize, TokenEnd.IsEndOf]
    | cons c cs =>
      cases hc : TokenKind.ofChar? c with
      | none =>
        rw [tokenize_of_none hc]
        exact ⟨[], cs, rfl, rfl, hc, by simp⟩
      | some k =>
        obtain ⟨_, htok⟩ := tokenize_of_some hc start cs
        simp [htok] at hts
  | cons t ts ih =>
    obtain ⟨hspan, after, rfl, hchars, htok⟩ := tokenize_eq_cons hts
    rw [htok] at hts ⊢
    have hrest := ih t.span.stop after (List.cons.inj hts).2
    dsimp only
    revert hrest
    cases (tokenize t.span.stop after).2 with
    | ofText stop =>
      intro hrest
      rw [TokenEnd.IsEndOf] at hrest ⊢
      rw [hrest, hspan, byteLength_append, Nat.add_assoc]
    | stray c i =>
      rintro ⟨before, later, rfl, hi, hc, hbefore⟩
      refine ⟨t.text ++ before, later, by simp, ?_, hc, ?_⟩
      · rw [hi, hspan, byteLength_append, Nat.add_assoc]
      · rw [List.forall_mem_append]
        refine ⟨?_, hbefore⟩
        intro d hd
        simp [hchars d hd]

/-- The text before the offset splits into tokens. -/
def IsTokenBoundary (cs : List Char) (i : ℕ) : Prop :=
  ∃ ls after, Splits cs ls after ∧ i = byteLength (ls.flatMap Lexeme.text)

theorem IsTokenBoundary.le {cs : List Char} {i : ℕ} (h : IsTokenBoundary cs i) :
    i ≤ byteLength cs := by
  obtain ⟨ls, after, hs, rfl⟩ := h
  rw [hs.eq_append, byteLength_append]
  omega

section

variable {cs : List Char} {l r : List Token} {t : Token}

theorem isTokenBoundary_of_append (h : (tokenize 0 cs).1 = l ++ r) :
    IsTokenBoundary cs (byteLength (charsOf l)) := by
  obtain ⟨rest, hs, _⟩ := splits_tokenize 0 cs
  rw [h, List.map_append] at hs
  obtain ⟨middle, hl, _⟩ := hs.of_append
  exact ⟨_, middle, hl, by rw [flatMap_lexeme]⟩

/-- The stretch holds a run of digits, and no digit stands beside it. -/
structure IsDigitRun (cs ds before after : List Char) : Prop where
  eq_append : cs = before ++ ds ++ after
  ne_nil : ds ≠ []
  isDigit : ∀ c ∈ ds, c.isDigit
  getLast? : ∀ c ∈ before.getLast?, c.isDigit = false
  head? : ∀ c ∈ after.head?, c.isDigit = false

/-- A digit before a token is not the start of it as well. -/
theorem isDigit_getLast? {rest : List Char}
    (hs : Splits cs (l.map Token.lexeme ++ t.lexeme :: r.map Token.lexeme) rest)
    (hk : t.kind = .number) : ∀ c ∈ (charsOf l).getLast?, c.isDigit = false := by
  intro c hc
  rcases l.eq_nil_or_concat with rfl | ⟨l, p, rfl⟩
  · simp [charsOf] at hc
  rw [List.concat_eq_append, List.map_append, List.append_assoc] at hs
  obtain ⟨middle, _, hp⟩ := hs.of_append
  have hvalid : p.lexeme.IsValid := hp.isValid _ (by simp)
  have hmem : c ∈ p.lexeme.text := by
    have hsplit : charsOf (l.concat p) = charsOf l ++ p.lexeme.text := by
      simp [charsOf, Token.lexeme]
    rw [hsplit, List.getLast?_append_of_ne_nil _ hvalid.ne_nil] at hc
    exact List.mem_of_getLast? hc
  by_contra hdigit
  have hnumber : p.kind = .number := by
    have hkind := hvalid.ofChar? hmem
    rw [TokenKind.ofChar?_eq_number.2 (by simpa using hdigit)] at hkind
    exact (Option.some.inj hkind).symm
  exact hp.kind_ne (by simp [Token.lexeme, hnumber, TokenKind.isRun]) (hk.trans hnumber.symm)

theorem isDigitRun_of_tokenize (h : (tokenize 0 cs).1 = l ++ t :: r) (hk : t.kind = .number) :
    ∃ after, IsDigitRun cs t.text (charsOf l) after := by
  obtain ⟨rest, hs, _⟩ := splits_tokenize 0 cs
  rw [h, List.map_append, List.map_cons] at hs
  obtain ⟨middle, hl, ht⟩ := hs.of_append
  obtain ⟨after, rfl, _, hstop⟩ := ht.extendedBy_head?
  have hvalid : t.lexeme.IsValid := ht.isValid _ (by simp)
  refine ⟨after, ?_, hvalid.ne_nil, ?_, ?_, ?_⟩
  · rw [hl.eq_append, flatMap_lexeme, List.append_assoc]
    rfl
  · intro c hc
    rw [← TokenKind.ofChar?_eq_number, ← hk]
    exact hvalid.ofChar? hc
  · exact isDigit_getLast? hs hk
  · intro c hc
    have hfalse := hstop c hc
    rw [show t.lexeme.kind = .number from hk] at hfalse
    by_contra hdigit
    simp [TokenKind.extendedBy, TokenKind.isRun, TokenKind.ofChar?_eq_number, hdigit] at hfalse

end
end ExactLinear
