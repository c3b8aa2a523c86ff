import ExactLinear.Token

/-! # Tokens by a cursor

A cursor is a byte offset into a text. It moves over one character after the other, and a token is
the slice of the text between two of its places. Only a span between characters has a slice, so a
cursor that stood inside a character would end the run.
-/

namespace ExactLinear

inductive CursorFault
  /-- The span has no slice. -/
  | slice (span : Span)
  /-- A run at this offset has no characters. -/
  | emptyRun (offset : Nat)
deriving DecidableEq, Repr

/-- The characters of a text on a span, which starts and stops between characters. -/
def Span.slice (text : String) (s : Span) : Except CursorFault (List Char) :=
  let start : String.Pos.Raw := ⟨s.start⟩
  let stop : String.Pos.Raw := ⟨s.stop⟩
  if s.start ≤ s.stop && start.isValid text && stop.isValid text then
    .ok (start.extract text stop).toList
  else .error (.slice s)

/-- A place in a text, in bytes from its start. -/
structure Cursor where
  text : String
  offset : Nat := 0
deriving DecidableEq, Repr

namespace Cursor

inductive Item
  /-- A token, and the cursor after it. -/
  | token (token : Token) (after : Cursor)
  /-- A character that starts no token. -/
  | stray (character : Char) (index : Nat)
  | ended
deriving DecidableEq, Repr

def rest (c : Cursor) : Except CursorFault (List Char) :=
  Span.slice c.text ⟨c.offset, c.text.utf8ByteSize⟩

def peek? (c : Cursor) : Except CursorFault (Option Char) := List.head? <$> c.rest

def past (c : Cursor) (a : Char) : Cursor := { c with offset := c.offset + a.utf8Size }

def advance (c : Cursor) : Except CursorFault Cursor := do
  match ← c.peek? with
  | none => return c
  | some a => return c.past a

theorem offset_lt_of_peek? {c : Cursor} {a : Char} (h : c.peek? = .ok (some a)) :
    c.offset < c.text.utf8ByteSize := by
  apply Nat.lt_of_not_le
  intro hle
  have hempty : (⟨c.offset⟩ : String.Pos.Raw).extract c.text ⟨c.text.utf8ByteSize⟩ = "" :=
    if_pos hle
  rw [peek?, rest, Span.slice] at h
  split at h
  · rw [hempty] at h
    cases h
  · cases h

def skipWhile (p : Char → Bool) (c : Cursor) : Except CursorFault Cursor :=
  match _h : c.peek? with
  | .error f => .error f
  | .ok none => .ok c
  | .ok (some a) => if p a then skipWhile p (c.past a) else .ok c
termination_by c.text.utf8ByteSize - c.offset
decreasing_by
  have hlt := offset_lt_of_peek? ‹_›
  have hpos := a.utf8Size_pos
  simp only [past]
  omega

/-- The token from an earlier place up to the cursor. -/
def tokenFrom (c : Cursor) (k : TokenKind) (start : Nat) : Except CursorFault Token := do
  let span : Span := ⟨start, c.offset⟩
  return ⟨k, ← span.slice c.text, span⟩

def takeOne (c : Cursor) (k : TokenKind) : Except CursorFault Item := do
  let after ← c.advance
  return .token (← after.tokenFrom k c.offset) after

/-- Takes the characters that satisfy the predicate as a token. At least one does. -/
def takeRun (c : Cursor) (k : TokenKind) (p : Char → Bool) : Except CursorFault Item := do
  let after ← c.skipWhile p
  if after.offset = c.offset then throw (.emptyRun c.offset)
  return .token (← after.tokenFrom k c.offset) after

def next (c : Cursor) : Except CursorFault Item := do
  match ← c.peek? with
  | none => return .ended
  | some a =>
    match TokenKind.ofChar? a with
    | none => return .stray a c.offset
    | some .number => c.takeRun .number Char.isDigit
    | some .name => c.takeRun .name Text.isAlphabetic
    | some k => c.takeOne k

end Cursor
end ExactLinear
