import ExactLinear.Equation.Arithmetic
import ExactLinear.Token

/-! # Reading equations

An equation is one side, or two around an equals sign. A side is empty or a row of signed terms; a
term is a part or a fraction of two parts; a part is a number, a name, or one after the other. The
right-hand side counts with the opposite sign. Reading goes from left to right and stops at the
first error; the terms read before it are added up all the same.
-/

namespace ExactLinear

inductive ParseError
  /-- These tokens form no term. -/
  | malformedTerm (span : Span)
  /-- A character belongs to no token. -/
  | strayCharacter (character : Char) (index : Nat)
  | secondEqualsSign
  /-- A number does not fit a 64-bit word. -/
  | oversizedNumber (span : Span)
  /-- The terms cannot be computed. -/
  | fault (cause : Fault)
deriving DecidableEq, Repr

namespace ParseError

def message : ParseError → String
  | malformedTerm _ => "Term format is invalid"
  | strayCharacter _ _ => "Term format is invalid"
  | secondEqualsSign => "An equation may only contain one \"=\""
  | oversizedNumber _ => "The number is too big to fit in a 64-bit integer"
  | fault cause => cause.message

/-- The fault that ends the whole run, if that is the cause. -/
def fatal? : ParseError → Option Fault
  | fault cause => if cause.isFatal then some cause else none
  | _ => none

end ParseError

def TokenEnd.error : TokenEnd → ParseError
  | ofText stop => .malformedTerm ⟨stop, stop⟩
  | stray c index => .strayCharacter c index

/-- A text may end here, but a stray character may not stand here. -/
def TokenEnd.check : TokenEnd → Except ParseError Unit
  | ofText _ => return
  | stray c index => throw (.strayCharacter c index)

section

variable (last : TokenEnd)

/-- The next token, if it is of the kind, and the tokens after it. -/
def accept? (k : TokenKind) : List Token → Except ParseError (Option (Token × List Token))
  | [] => do
    last.check
    return none
  | t :: ts => return if t.kind = k then some (t, ts) else none

def decimal (digits : List Char) : Nat :=
  digits.foldl (fun n c => 10 * n + (c.toNat - '0'.toNat)) 0

def readNumber (t : Token) : Except ParseError Nat :=
  let n := decimal t.text
  if FitsWord n then return n else throw (.oversizedNumber t.span)

structure Part where
  number : Option Nat
  name : Option (List Char)
  span : Span

/-- Reads a number and perhaps a name, or a name and perhaps a number. -/
def readPart : List Token → Except ParseError (Part × List Token)
  | [] => throw last.error
  | t :: ts =>
    match t.kind with
    | .number => do
      let n ← readNumber t
      match ← accept? last .name ts with
      | some (u, us) => return (⟨some n, some u.text, ⟨t.span.start, u.span.stop⟩⟩, us)
      | none => return (⟨some n, none, t.span⟩, ts)
    | .name => do
      match ← accept? last .number ts with
      | some (u, us) =>
        let n ← readNumber u
        return (⟨some n, some t.text, ⟨t.span.start, u.span.stop⟩⟩, us)
      | none => return (⟨none, some t.text, t.span⟩, ts)
    | _ => throw (.malformedTerm t.span)

/-- A run of signs: whether it negates what follows, and where it stands. -/
structure Signs where
  negative : Bool
  span : Option Span

def readSigns (ts : List Token) : Signs × List Token :=
  let run := ts.takeWhile Token.isSign
  let negative := (run.countP fun t => t.kind = .minus) % 2 = 1
  let span := match run.head?, run.getLast? with
    | some t, some u => some ⟨t.span.start, u.span.stop⟩
    | _, _ => none
  (⟨negative, span⟩, ts.dropWhile Token.isSign)

def termOf (x : Fraction) (name : Option (List Char)) : Term :=
  ⟨x, .ofText (.ofList (name.getD []))⟩

/-- A quotient of parts. It is linear if one part has a name, and not the lower part alone. -/
def quotient (upper lower : Part) : Except ParseError Term := do
  let span : Span := ⟨upper.span.start, lower.span.stop⟩
  let name ← match upper.name, lower.name with
    | some _, some _ => throw (.malformedTerm span)
    | none, some name => if lower.number.isNone then throw (.malformedTerm span) else pure (some name)
    | name, none => pure name
  let x ← (Fraction.ofParts (upper.number.getD 1) (lower.number.getD 1)).mapError .fault
  return termOf x name

/-- After a term comes a sign, an equals sign or the end of the text. -/
def checkEndOfTerm (start : Nat) : List Token → Except ParseError Unit
  | [] => last.check
  | t :: _ =>
    if t.isSign || t.kind = .equals then return else throw (.malformedTerm ⟨start, t.span.stop⟩)

def signed (negative : Bool) (t : Term) : Except ParseError Term :=
  if negative then t.neg.mapError .fault else return t

/-- Reads a part or a quotient of two, with signs before the lower one. -/
def readTerm (ts : List Token) : Except ParseError (Term × List Token) := do
  let (upper, ts) ← readPart last ts
  match ← accept? last .slash ts with
  | some (_, us) =>
    let (signs, us) := readSigns us
    let (lower, us) ← readPart last us
    let t ← signed signs.negative (← quotient upper lower)
    checkEndOfTerm last upper.span.start us
    return (t, us)
  | none =>
    let x ← (Fraction.ofInt (upper.number.getD 1)).mapError .fault
    checkEndOfTerm last upper.span.start ts
    return (termOf x upper.name, ts)

theorem length_of_accept? {k : TokenKind} {ts us : List Token} {t : Token}
    (h : accept? last k ts = .ok (some (t, us))) : us.length < ts.length := by
  cases ts with
  | nil =>
    obtain ⟨_, _, h⟩ := bind_eq_ok.1 h
    cases h
  | cons u ts =>
    rw [accept?] at h
    split at h
    · cases h; exact Nat.lt_succ_self _
    · cases h

theorem length_of_readPart {ts us : List Token} {p : Part} (h : readPart last ts = .ok (p, us)) :
    us.length < ts.length := by
  cases ts with
  | nil => cases h
  | cons t ts =>
    rw [readPart] at h
    split at h
    · obtain ⟨n, _, h⟩ := bind_eq_ok.1 h
      obtain ⟨a, ha, h⟩ := bind_eq_ok.1 h
      split at h
      · cases h; exact Nat.lt_succ_of_lt (length_of_accept? last ha)
      · cases h; exact Nat.lt_succ_self _
    · obtain ⟨a, ha, h⟩ := bind_eq_ok.1 h
      split at h
      · obtain ⟨n, _, h⟩ := bind_eq_ok.1 h
        cases h
        exact Nat.lt_succ_of_lt (length_of_accept? last ha)
      · cases h; exact Nat.lt_succ_self _
    · cases h

theorem length_readSigns_le (ts : List Token) : (readSigns ts).2.length ≤ ts.length :=
  (List.dropWhile_suffix _).sublist.length_le

theorem length_of_readTerm {ts us : List Token} {t : Term} (h : readTerm last ts = .ok (t, us)) :
    us.length < ts.length := by
  obtain ⟨⟨upper, rest⟩, hu, h⟩ := bind_eq_ok.1 h
  obtain ⟨a, ha, h⟩ := bind_eq_ok.1 h
  have hr := length_of_readPart last hu
  split at h
  · next us' =>
    obtain ⟨⟨lower, ws⟩, hl, h⟩ := bind_eq_ok.1 h
    obtain ⟨q, _, h⟩ := bind_eq_ok.1 h
    obtain ⟨s, _, h⟩ := bind_eq_ok.1 h
    obtain ⟨_, _, h⟩ := bind_eq_ok.1 h
    cases h
    have h1 : us.length < (readSigns us').2.length := length_of_readPart last hl
    have h2 := length_readSigns_le us'
    have h3 := length_of_accept? last ha
    omega
  · obtain ⟨x, _, h⟩ := bind_eq_ok.1 h
    obtain ⟨_, _, h⟩ := bind_eq_ok.1 h
    cases h
    exact hr

def endsSide : List Token → Except ParseError Bool
  | [] => do
    last.check
    return true
  | t :: _ => return t.kind = .equals

/-- The terms read from a side, and the tokens after it or the error that ended it. -/
def readSide (negated : Bool) (ts : List Token) : List Term × Except ParseError (List Token) :=
  let signs := (readSigns ts).1
  let us := (readSigns ts).2
  match endsSide last us with
  | .error e => ([], .error e)
  | .ok true =>
    match signs.span with
    | some span => ([], .error (.malformedTerm span))
    | none => ([], .ok us)
  | .ok false =>
    match _h : readTerm last us with
    | .error e => ([], .error e)
    | .ok (t, rest) =>
      match signed (signs.negative != negated) t with
      | .error e => ([], .error e)
      | .ok t =>
        let (more, r) := readSide negated rest
        (t :: more, r)
termination_by ts.length
decreasing_by exact Nat.lt_of_lt_of_le (length_of_readTerm last ‹_›) (length_readSigns_le ts)

end

def trailingError? : List Token → Option ParseError
  | [] => none
  | t :: _ => some (if t.kind = .equals then .secondEqualsSign else .fault .leftover)

/-- The terms of an equation up to the first error, those on the right negated, and that error. -/
def readEquation (cs : List Char) : List Term × Option ParseError :=
  let (ts, last) := tokenize 0 cs
  match readSide last false ts with
  | (left, .error e) => (left, some e)
  | (left, .ok []) => (left, none)
  | (left, .ok (t :: ts)) =>
    if t.kind ≠ .equals then (left, trailingError? (t :: ts))
    else
      match readSide last true ts with
      | (right, .error e) => (left ++ right, some e)
      | (right, .ok rest) => (left ++ right, trailingError? rest)

/-- The equation that a text denotes. Terms are added up as they are read, so an overflow among them
comes before an error to their right. -/
def Equation.parse (s : String) : Except ParseError Equation :=
  let (ts, error?) := readEquation (Text.removeBlanks s.toList)
  match Equation.ofTerms ts, error? with
  | .error f, _ => throw (.fault f)
  | .ok _, some e => throw e
  | .ok e, none => return e

end ExactLinear
