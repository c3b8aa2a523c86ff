import ExactLinear.Proofs.Reading.Forms
import ExactLinear.Proofs.Reading.Positions
import ExactLinear.Token.Cursor
import Mathlib.Data.String.Basic
import Mathlib.Logic.Relation

/-! # Cursors tile a text

A cursor that starts where the text does always stands between two characters, so every slice that
it takes exists. From there its next token is the first one of the characters after it. Taken one
after the other, its tokens lie side by side from the start of the text to its end or to its first
character that starts none.
-/

namespace ExactLinear

theorem byteLength_eq_utf8Len (cs : List Char) : byteLength cs = String.utf8Len cs := by
  induction cs with
  | nil => rfl
  | cons c cs ih => rw [byteLength, String.utf8Len_cons, ih, Nat.add_comm]

theorem utf8ByteSize_ofList (cs : List Char) : (String.ofList cs).utf8ByteSize = byteLength cs := by
  rw [String.utf8ByteSize_ofList, byteLength_eq_utf8Len]

theorem isValid_byteLength (l r : List Char) :
    (⟨byteLength l⟩ : String.Pos.Raw).IsValid (.ofList (l ++ r)) := by
  apply String.Pos.Raw.isValid_iff_exists_append.2
  refine ⟨.ofList l, .ofList r, String.ofList_append, ?_⟩
  rw [String.rawEndPos_ofList, byteLength_eq_utf8Len]

/-- The slice between two places is what stands between them. -/
theorem slice_append (l m r : List Char) :
    Span.slice (.ofList (l ++ m ++ r)) ⟨byteLength l, byteLength (l ++ m)⟩ = .ok m := by
  have hstart := isValid_byteLength l (m ++ r)
  have hstop := isValid_byteLength (l ++ m) r
  rw [← List.append_assoc] at hstart
  have hle : byteLength l ≤ byteLength (l ++ m) := by simp
  have hextract := String.extract_of_valid l m r
  rw [← String.utf8Len_append, ← byteLength_eq_utf8Len, ← byteLength_eq_utf8Len] at hextract
  simp only [Span.slice, hle, String.Pos.Raw.isValid_eq_true_iff.2 hstart,
    String.Pos.Raw.isValid_eq_true_iff.2 hstop, hextract, decide_true, Bool.and_self, if_true,
    String.toList_ofList]

/-- A span that stops inside a letter of two bytes has no slice. -/
example : Span.slice "aя" ⟨0, 2⟩ = .error (.slice ⟨0, 2⟩) := by cbv

theorem TokenKind.extendedBy_number : extendedBy .number = Char.isDigit := by
  funext c
  simp [extendedBy, isRun, ofChar?_eq_number]

theorem TokenKind.extendedBy_name : extendedBy .name = Text.isAlphabetic := by
  funext c
  simp [extendedBy, isRun, ofChar?_eq_name]

namespace Cursor

theorem skipWhile_eq (p : Char → Bool) (c : Cursor) :
    c.skipWhile p = do
      match ← c.peek? with
      | none => return c
      | some a => if p a then (c.past a).skipWhile p else return c := by
  rw [Cursor.skipWhile]
  split <;>
  · rename_i hpeek
    rw [hpeek]
    rfl

/-- The cursor stands between two parts of its text. -/
structure IsBetween (c : Cursor) (l r : List Char) : Prop where
  text : c.text = .ofList (l ++ r)
  offset : c.offset = byteLength l

theorem isBetween_start (text : String) : IsBetween ⟨text, 0⟩ [] text.toList :=
  ⟨by simp, rfl⟩

namespace IsBetween

variable {c d : Cursor} {l m r : List Char} {a : Char} {k : TokenKind}

theorem rest_eq (h : c.IsBetween l r) : c.rest = .ok r := by
  have hslice := slice_append l r []
  rw [List.append_nil] at hslice
  rw [Cursor.rest, h.text, h.offset, utf8ByteSize_ofList]
  exact hslice

theorem peek?_eq (h : c.IsBetween l r) : c.peek? = .ok r.head? := by
  rw [Cursor.peek?, h.rest_eq]
  rfl

theorem past (h : c.IsBetween l (a :: r)) : (c.past a).IsBetween (l ++ [a]) r where
  text := by simp [Cursor.past, h.text]
  offset := by simp [Cursor.past, h.offset, byteLength]

theorem advance_eq (h : c.IsBetween l (a :: r)) : c.advance = .ok (c.past a) := by
  rw [Cursor.advance, h.peek?_eq]
  rfl

theorem skipWhile (p : Char → Bool) (h : c.IsBetween l r) :
    ∃ d, c.skipWhile p = .ok d ∧ d.IsBetween (l ++ r.takeWhile p) (r.dropWhile p) := by
  -- The part before the cursor grows while the part after it, on which the induction is, shrinks.
  induction r generalizing c l with
  | nil =>
    refine ⟨c, ?_, by simpa using h⟩
    rw [skipWhile_eq, h.peek?_eq]
    rfl
  | cons a r ih =>
    rw [skipWhile_eq, h.peek?_eq, List.head?_cons, ok_bind]
    dsimp only
    by_cases hp : p a
    · obtain ⟨d, hd, hbetween⟩ := ih h.past
      rw [if_pos hp]
      exact ⟨d, hd, by simpa [hp] using hbetween⟩
    · rw [if_neg hp]
      exact ⟨c, rfl, by simpa [hp] using h⟩

theorem tokenFrom_eq (h : d.IsBetween (l ++ m) r) (k : TokenKind) :
    d.tokenFrom k (byteLength l) = .ok ⟨k, m, ⟨byteLength l, d.offset⟩⟩ := by
  rw [Cursor.tokenFrom, h.text, h.offset, slice_append]
  rfl

theorem next_nil (h : c.IsBetween l []) : c.next = .ok .ended := by
  rw [Cursor.next, h.peek?_eq]
  rfl

theorem next_of_none (h : c.IsBetween l (a :: r)) (ha : TokenKind.ofChar? a = none) :
    c.next = .ok (.stray a c.offset) := by
  rw [Cursor.next, h.peek?_eq, List.head?_cons, ok_bind]
  simp only [ha]
  rfl

theorem takeOne_eq (h : c.IsBetween l (a :: r)) (k : TokenKind) :
    c.takeOne k = .ok (.token ⟨k, [a], ⟨c.offset, (c.past a).offset⟩⟩ (c.past a)) := by
  rw [Cursor.takeOne, h.advance_eq, ok_bind, h.offset, h.past.tokenFrom_eq]
  rfl

/-- A run is taken as far as it goes, and is not empty if its first character belongs to it. -/
theorem takeRun_eq {p : Char → Bool} (h : c.IsBetween l (a :: r)) (k : TokenKind) (ha : p a) :
    ∃ d, c.takeRun k p = .ok (.token ⟨k, a :: r.takeWhile p, ⟨c.offset, d.offset⟩⟩ d) ∧
      d.IsBetween (l ++ a :: r.takeWhile p) (r.dropWhile p) := by
  obtain ⟨d, hd, hbetween⟩ := h.skipWhile p
  rw [List.takeWhile_cons_of_pos ha, List.dropWhile_cons_of_pos ha] at hbetween
  have hpos : 0 < byteLength (a :: r.takeWhile p) := byteLength_pos (by simp)
  have hne : d.offset ≠ c.offset := by
    rw [hbetween.offset, h.offset, byteLength_append]
    omega
  refine ⟨d, ?_, hbetween⟩
  rw [Cursor.takeRun, hd, ok_bind, if_neg hne, h.offset, hbetween.tokenFrom_eq]
  rfl

/-- The next token is the first one of the characters that follow. -/
theorem next_of_some (h : c.IsBetween l (a :: r)) (ha : TokenKind.ofChar? a = some k) :
    ∃ d, c.next = .ok (.token ⟨k, a :: r.takeWhile k.extendedBy, ⟨c.offset, d.offset⟩⟩ d) ∧
      d.IsBetween (l ++ a :: r.takeWhile k.extendedBy) (r.dropWhile k.extendedBy) := by
  have hsingle (hk : k.isRun = false) : ∃ d, c.takeOne k =
      .ok (.token ⟨k, a :: r.takeWhile k.extendedBy, ⟨c.offset, d.offset⟩⟩ d) ∧
        d.IsBetween (l ++ a :: r.takeWhile k.extendedBy) (r.dropWhile k.extendedBy) := by
    have hstop := TokenKind.extendedBy_eq_false hk
    have htake : r.takeWhile k.extendedBy = [] := by cases r <;> simp [hstop]
    have hdrop : r.dropWhile k.extendedBy = r := by cases r <;> simp [hstop]
    rw [htake, hdrop]
    exact ⟨c.past a, h.takeOne_eq k, h.past⟩
  rw [Cursor.next, h.peek?_eq, List.head?_cons, ok_bind]
  simp only [ha]
  cases k with
  | number =>
    rw [TokenKind.extendedBy_number]
    exact h.takeRun_eq .number (TokenKind.ofChar?_eq_number.1 ha)
  | name =>
    rw [TokenKind.extendedBy_name]
    exact h.takeRun_eq .name (TokenKind.ofChar?_eq_name.1 ha)
  | plus => exact hsingle rfl
  | minus => exact hsingle rfl
  | slash => exact hsingle rfl
  | equals => exact hsingle rfl

end IsBetween

def Moves (c d : Cursor) : Prop := ∃ t, c.next = .ok (.token t d)

/-- The tokens that the cursor takes one after the other, and where they stop. -/
inductive Yields : Cursor → List Token → TokenEnd → Prop
  | ended {c : Cursor} (h : c.next = .ok .ended) : Yields c [] (.ofText c.offset)
  | stray {c : Cursor} {a : Char} {i : ℕ} (h : c.next = .ok (.stray a i)) :
    Yields c [] (.stray a i)
  | token {c d : Cursor} {t : Token} {ts : List Token} {last : TokenEnd}
      (h : c.next = .ok (.token t d)) (rest : Yields d ts last) : Yields c (t :: ts) last

theorem Yields.unique {c : Cursor} {ts us : List Token} {e f : TokenEnd} (h : Yields c ts e)
    (h' : Yields c us f) : us = ts ∧ f = e := by
  induction h generalizing us f with
  | ended h => cases h' <;> simp_all
  | stray h => cases h' <;> simp_all
  | token h _ ih =>
    cases h' with
    | ended h' => simp [h] at h'
    | stray h' => simp [h] at h'
    | token h' rest =>
      rw [h] at h'
      cases h'
      simpa using ih rest

namespace IsBetween

variable {c d : Cursor} {l r : List Char}

/-- Every step exists, and takes the cursor further to a place between characters. -/
theorem exists_next (h : c.IsBetween l r) : ∃ item, c.next = .ok item ∧
    ∀ t d, item = .token t d → t.span = ⟨c.offset, d.offset⟩ ∧ c.offset < d.offset ∧
      ∃ l' r', d.IsBetween l' r' := by
  cases r with
  | nil => exact ⟨_, h.next_nil, by simp⟩
  | cons a r =>
    cases ha : TokenKind.ofChar? a with
    | none => exact ⟨_, h.next_of_none ha, by simp⟩
    | some k =>
      obtain ⟨d, hnext, hd⟩ := h.next_of_some ha
      refine ⟨_, hnext, ?_⟩
      rintro _ _ ⟨⟩
      refine ⟨rfl, ?_, _, _, hd⟩
      have hpos : 0 < byteLength (a :: r.takeWhile k.extendedBy) := byteLength_pos (by simp)
      rw [hd.offset, h.offset, byteLength_append]
      omega

theorem of_moves (h : c.IsBetween l r) (hd : Relation.ReflTransGen Moves c d) :
    ∃ l' r', d.IsBetween l' r' := by
  induction hd with
  | refl => exact ⟨l, r, h⟩
  | tail _ hmove ih =>
    obtain ⟨l', r', h'⟩ := ih
    obtain ⟨t, ht⟩ := hmove
    obtain ⟨item, hitem, htoken⟩ := h'.exists_next
    rw [hitem] at ht
    exact (htoken _ _ (Except.ok.inj ht)).2.2

theorem yields (h : c.IsBetween l r) :
    Yields c (tokenize c.offset r).1 (tokenize c.offset r).2 := by
  generalize hstart : c.offset = start
  fun_induction tokenize start r generalizing c l with
  | case1 start =>
    subst hstart
    exact .ended h.next_nil
  | case2 start a r ha =>
    subst hstart
    exact .stray (h.next_of_none ha)
  | case3 start a r k ha text stop ts last =>
    rename_i htok ih
    obtain ⟨d, hnext, hd⟩ := h.next_of_some ha
    have hstop : d.offset = stop := by
      rw [hd.offset, byteLength_append, ← h.offset, hstart]
    have hrest := ih hd hstop
    rw [htok] at hrest
    rw [hstart, hstop] at hnext
    exact .token hnext hrest

end IsBetween

end Cursor

/-- The spans stand side by side from one offset to another, and none of them is empty. -/
def Covers : ℕ → List Token → ℕ → Prop
  | i, [], j => i = j
  | i, t :: ts, j => t.span.start = i ∧ i < t.span.stop ∧ Covers t.span.stop ts j

def TokenEnd.offset : TokenEnd → ℕ
  | ofText stop => stop
  | stray _ index => index

theorem covers_tokenize (start : ℕ) (cs : List Char) :
    Covers start (tokenize start cs).1 (tokenize start cs).2.offset := by
  fun_induction tokenize start cs with
  | case1 start => rfl
  | case2 start a r ha => rfl
  | case3 start a r k ha text stop ts last =>
    rename_i htok ih
    have hpos : 0 < byteLength text := byteLength_pos (List.cons_ne_nil a _)
    rw [htok] at ih
    exact ⟨rfl, Nat.lt_add_of_pos_right hpos, ih⟩

theorem Splits.isChain {cs rest : List Char} {ls : List Lexeme} (h : Splits cs ls rest) :
    ls.IsChain Lexeme.IsApart := by
  induction ls generalizing cs with
  | nil => exact .nil
  | cons l ls ih =>
    obtain ⟨after, _, hs, _⟩ := h.extendedBy_head?
    cases ls with
    | nil => exact .singleton l
    | cons m ls => exact .cons_cons h.kind_ne (ih hs)

theorem slice_of_mem_tokenize {text : String} {t : Token} (ht : t ∈ (tokenize 0 text.toList).1) :
    (⟨t.span.start⟩ : String.Pos.Raw).IsValid text ∧
      (⟨t.span.stop⟩ : String.Pos.Raw).IsValid text ∧ t.span.slice text = .ok t.text := by
  obtain ⟨l, r, hrow⟩ := List.append_of_mem ht
  obtain ⟨rest, hs, _⟩ := splits_tokenize 0 text.toList
  have hall := hs.eq_append
  rw [flatMap_lexeme, hrow, charsOf, List.flatMap_append, List.flatMap_cons] at hall
  obtain ⟨after, hafter⟩ : ∃ after, text = .ofList (charsOf l ++ t.text ++ after) := by
    refine ⟨charsOf r ++ rest, ?_⟩
    rw [← String.ofList_toList (s := text), hall]
    simp [charsOf]
  have hspan : t.span = ⟨byteLength (charsOf l), byteLength (charsOf l ++ t.text)⟩ := by
    simpa [charsOf] using span_of_tokenize hrow
  rw [hspan, hafter]
  refine ⟨?_, isValid_byteLength _ _, slice_append _ _ _⟩
  rw [List.append_assoc]
  exact isValid_byteLength _ _

/-- The tokens stand side by side in the text from its start to where they stop. Each is the slice
of its span, and no run goes on in the next one. -/
structure IsTiling (text : String) (ts : List Token) (last : TokenEnd) : Prop where
  covers : Covers 0 ts last.offset
  isBoundary : ∀ t ∈ ts, (⟨t.span.start⟩ : String.Pos.Raw).IsValid text ∧
    (⟨t.span.stop⟩ : String.Pos.Raw).IsValid text
  slice_eq : ∀ t ∈ ts, t.span.slice text = .ok t.text
  isValid : ∀ t ∈ ts, t.lexeme.IsValid
  isChain : (ts.map Token.lexeme).IsChain Lexeme.IsApart
  isEndOf : last.IsEndOf 0 text.toList

theorem isTiling_tokenize (text : String) :
    IsTiling text (tokenize 0 text.toList).1 (tokenize 0 text.toList).2 := by
  obtain ⟨rest, hs, _⟩ := splits_tokenize 0 text.toList
  constructor
  · exact covers_tokenize 0 text.toList
  · exact fun t ht => ⟨(slice_of_mem_tokenize ht).1, (slice_of_mem_tokenize ht).2.1⟩
  · exact fun t ht => (slice_of_mem_tokenize ht).2.2
  · exact List.forall_mem_map.1 hs.isValid
  · exact hs.isChain
  · exact isEndOf_tokenize 0 text.toList

namespace Cursor

/-- A cursor that starts where the text does never fails, and each token takes it further by the
span of the token. So it comes to a stop, and the tokens up to there, which are those of `tokenize`,
tile the text. -/
theorem exists_isTiling (text : String) :
    (∀ c, Relation.ReflTransGen Moves ⟨text, 0⟩ c → ∃ item, c.next = .ok item ∧
      ∀ t d, item = .token t d → t.span = ⟨c.offset, d.offset⟩ ∧ c.offset < d.offset) ∧
    ∃ ts last, (∀ us e, Yields ⟨text, 0⟩ us e ↔ us = ts ∧ e = last) ∧
      tokenize 0 text.toList = (ts, last) ∧ IsTiling text ts last := by
  refine ⟨?_, _, _, ?_, rfl, isTiling_tokenize text⟩
  · intro c hc
    obtain ⟨l, r, h⟩ := (isBetween_start text).of_moves hc
    obtain ⟨item, hitem, htoken⟩ := h.exists_next
    exact ⟨item, hitem, fun t d ht => ⟨(htoken t d ht).1, (htoken t d ht).2.1⟩⟩
  · intro us e
    have hyields := (isBetween_start text).yields
    constructor
    · exact fun h => hyields.unique h
    · rintro ⟨rfl, rfl⟩
      exact hyields

set_option maxRecDepth 8000 in
/-- A letter of two bytes between numbers, and a character that starts no token. -/
theorem exists_isTiling_stray :
    let tokens : List Token := [⟨.number, ['1', '2'], ⟨0, 2⟩⟩, ⟨.name, ['я'], ⟨2, 4⟩⟩,
      ⟨.slash, ['/'], ⟨4, 5⟩⟩, ⟨.number, ['3'], ⟨5, 6⟩⟩]
    Yields ⟨"12я/3!x", 0⟩ tokens (.stray '!' 6) ∧ IsTiling "12я/3!x" tokens (.stray '!' 6) := by
  intro tokens
  obtain ⟨_, ts, last, hyields, htok, htiling⟩ := exists_isTiling "12я/3!x"
  have hread : tokenize 0 "12я/3!x".toList = (tokens, .stray '!' 6) := by cbv
  obtain ⟨rfl, rfl⟩ := Prod.ext_iff.1 (htok.symm.trans hread)
  exact ⟨(hyields _ _).2 ⟨rfl, rfl⟩, htiling⟩

end Cursor
end ExactLinear
