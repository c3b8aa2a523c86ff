import ExactLinear.Proofs.Reading.Language
import ExactLinear.Proofs.Reading.Positions

/-! # What parse errors point at

An error of the reader blames tokens in a row, a number that has no word, a stray character, or the
end of a text that goes on too little. All of them are places in the text, whatever functions the
error has passed through.
-/

namespace ExactLinear

/-- The stretch from the start of a token to the end of the same or of a later one. -/
def IsSpanOf (ts : List Token) (s : Span) : Prop :=
  ∃ t us u, t :: us <:+ ts ∧ u ∈ t :: us ∧ s = ⟨t.span.start, u.span.stop⟩

/-- What an error of the reader can be about. -/
inductive Blames (last : TokenEnd) (ts : List Token) : ParseError → Prop
  | tokens {s : Span} (h : IsSpanOf ts s) : Blames last ts (.malformedTerm s)
  | ended {stop : ℕ} (h : last = .ofText stop) : Blames last ts (.malformedTerm ⟨stop, stop⟩)
  | stray {c : Char} {i : ℕ} (h : last = .stray c i) : Blames last ts (.strayCharacter c i)
  | number {t : Token} (ht : t ∈ ts) (hk : t.kind = .number) (hn : ¬FitsWord (decimal t.text)) :
    Blames last ts (.oversizedNumber t.span)
  | fault (f : Fault) : Blames last ts (.fault f)

variable {α β : Type} {last : TokenEnd} {ts us : List Token}

theorem IsSpanOf.of_suffix {s : Span} (h : IsSpanOf us s) (hs : us <:+ ts) : IsSpanOf ts s := by
  obtain ⟨t, vs, u, ht, hu, rfl⟩ := h
  exact ⟨t, vs, u, ht.trans hs, hu, rfl⟩

theorem Blames.of_suffix {e : ParseError} (h : Blames last us e) (hs : us <:+ ts) :
    Blames last ts e := by
  cases h with
  | tokens h => exact .tokens (h.of_suffix hs)
  | ended h => exact .ended h
  | stray h => exact .stray h
  | number ht hk hn => exact .number (hs.subset ht) hk hn
  | fault f => exact .fault f

theorem blames_error (last : TokenEnd) (ts : List Token) : Blames last ts last.error := by
  cases last with
  | ofText stop => exact .ended rfl
  | stray c i => exact .stray rfl

/-- The result has the property, or the error blames something in the tokens. -/
def Locates (last : TokenEnd) (ts : List Token) (P : α → Prop) : Except ParseError α → Prop
  | .ok a => P a
  | .error e => Blames last ts e

namespace Locates

variable {P : α → Prop} {Q : β → Prop} {x : Except ParseError α}

theorem bind {f : α → Except ParseError β} (hx : Locates last ts P x)
    (hf : ∀ a, P a → Locates last ts Q (f a)) : Locates last ts Q (x >>= f) := by
  cases x with
  | ok a => exact hf a hx
  | error e => exact hx

theorem imp {R : α → Prop} (hx : Locates last ts P x) (h : ∀ a, P a → R a) :
    Locates last ts R x := by
  cases x with
  | ok a => exact h a hx
  | error e => exact hx

theorem of_suffix (hx : Locates last us P x) (hs : us <:+ ts) : Locates last ts P x := by
  cases x with
  | ok a => exact hx
  | error e => exact Blames.of_suffix hx hs

theorem of_ok {a : α} (hx : Locates last ts P x) (ha : x = .ok a) : P a := by
  rw [ha] at hx
  exact hx

theorem of_error {e : ParseError} (hx : Locates last ts P x) (he : x = .error e) :
    Blames last ts e := by
  rw [he] at hx
  exact hx

theorem mapError (x : Except Fault α) : Locates last ts (fun _ => True) (x.mapError .fault) := by
  cases x with
  | ok a => trivial
  | error f => exact .fault f

end Locates

theorem locates_check (ts : List Token) : Locates last ts (fun _ => True) last.check := by
  cases last with
  | ofText stop => trivial
  | stray c i => exact .stray rfl

theorem locates_accept? (k : TokenKind) (ts : List Token) :
    Locates last ts (fun r => ∀ t us, r = some (t, us) → ts = t :: us ∧ t.kind = k)
      (accept? last k ts) := by
  cases ts with
  | nil =>
    apply (locates_check []).bind
    intro _ _ t us h
    cases h
  | cons t ts =>
    intro u us h
    by_cases hk : t.kind = k
    · simp_all
    · simp [hk] at h

theorem locates_readNumber {t : Token} (ht : t ∈ ts) (hk : t.kind = .number) :
    Locates last ts (fun _ => True) (readNumber t) := by
  rw [readNumber]
  split
  · trivial
  · next hn => exact .number ht hk hn

structure Part.IsAt (p : Part) (ts us : List Token) : Prop where
  start : ∃ t rest, ts = t :: rest ∧ p.span.start = t.span.start ∧ us <:+ rest
  stop : ∃ u ∈ ts, p.span.stop = u.span.stop

theorem Part.IsAt.isSpanOf {p : Part} (h : p.IsAt ts us) {u : Token} (hu : u ∈ ts) :
    IsSpanOf ts ⟨p.span.start, u.span.stop⟩ := by
  obtain ⟨t, rest, rfl, hstart, _⟩ := h.start
  exact ⟨t, rest, u, List.suffix_rfl, hu, by rw [hstart]⟩

theorem Part.IsAt.suffix {p : Part} (h : p.IsAt ts us) : us <:+ ts := by
  obtain ⟨t, rest, rfl, _, hs⟩ := h.start
  exact hs.trans (List.suffix_cons t rest)

theorem locates_readPart (ts : List Token) :
    Locates last ts (fun r => r.1.IsAt ts r.2) (readPart last ts) := by
  cases ts with
  | nil => exact blames_error last []
  | cons t ts =>
    have htail := List.suffix_cons t ts
    have one (number : Option ℕ) (name : Option (List Char)) :
        Part.IsAt ⟨number, name, t.span⟩ (t :: ts) ts :=
      ⟨⟨t, ts, rfl, rfl, List.suffix_rfl⟩, t, by simp, rfl⟩
    have two (number : Option ℕ) (name : Option (List Char)) (u : Token) (us : List Token)
        (h : ts = u :: us) :
        Part.IsAt ⟨number, name, ⟨t.span.start, u.span.stop⟩⟩ (t :: ts) us := by
      subst h
      exact ⟨⟨t, u :: us, rfl, rfl, List.suffix_cons u us⟩, u, by simp, rfl⟩
    rw [readPart]
    split
    · next hk =>
      apply (locates_readNumber (List.mem_cons_self ..) hk).bind
      intro n _
      apply ((locates_accept? .name ts).of_suffix htail).bind
      intro r hr
      split
      · next u us => exact two _ _ u us (hr u us rfl).1
      · exact one _ _
    · next hk =>
      apply ((locates_accept? .number ts).of_suffix htail).bind
      intro r hr
      split
      · next u us =>
        obtain ⟨rfl, hu⟩ := hr u us rfl
        apply (locates_readNumber (by simp) hu).bind
        intro n _
        exact two _ _ u us rfl
      · exact one _ _
    · exact .tokens ⟨t, ts, t, List.suffix_rfl, by simp, rfl⟩

theorem locates_quotient {upper lower : Part}
    (h : IsSpanOf ts ⟨upper.span.start, lower.span.stop⟩) :
    Locates last ts (fun _ => True) (quotient upper lower) := by
  have hdiv (name : Option (List Char)) : Locates last ts (fun _ => True) (do
      let x ← (Fraction.ofParts (upper.number.getD 1) (lower.number.getD 1)).mapError .fault
      return termOf x name) := by
    apply (Locates.mapError _).bind
    intro x _
    trivial
  rw [quotient]
  cases upper.name with
  | none =>
    cases lower.name with
    | none => exact hdiv none
    | some name =>
      dsimp only
      split
      · exact .tokens h
      · exact hdiv (some name)
  | some name =>
    cases lower.name with
    | none => exact hdiv (some name)
    | some _ => exact .tokens h

theorem locates_signed (negative : Bool) (t : Term) :
    Locates last ts (fun _ => True) (signed negative t) := by
  rw [signed]
  split
  · exact .mapError _
  · trivial

theorem locates_checkEndOfTerm {start : ℕ} (h : ∀ u ∈ us, IsSpanOf ts ⟨start, u.span.stop⟩) :
    Locates last ts (fun _ => True) (checkEndOfTerm last start us) := by
  cases us with
  | nil => exact locates_check ts
  | cons u us =>
    rw [checkEndOfTerm]
    split
    · trivial
    · exact .tokens (h u (by simp))

theorem suffix_readSigns (ts : List Token) : (readSigns ts).2 <:+ ts := List.dropWhile_suffix _

theorem locates_readTerm (ts : List Token) :
    Locates last ts (fun r => r.2 <:+ ts) (readTerm last ts) := by
  apply (locates_readPart ts).bind
  rintro ⟨upper, us⟩ hupper
  apply ((locates_accept? .slash us).of_suffix hupper.suffix).bind
  intro r hr
  split
  · next u vs =>
    obtain ⟨rfl, _⟩ := hr u vs rfl
    have hvs : (readSigns vs).2 <:+ ts :=
      (suffix_readSigns vs).trans ((List.suffix_cons u vs).trans hupper.suffix)
    apply ((locates_readPart _).of_suffix hvs).bind
    rintro ⟨lower, ws⟩ hlower
    have hws : ws <:+ ts := hlower.suffix.trans hvs
    have hspan : IsSpanOf ts ⟨upper.span.start, lower.span.stop⟩ := by
      obtain ⟨w, hw, hstop⟩ := hlower.stop
      rw [hstop]
      exact hupper.isSpanOf (hvs.subset hw)
    apply (locates_quotient hspan).bind
    intro q _
    apply (locates_signed _ q).bind
    intro t _
    apply (locates_checkEndOfTerm fun w hw => hupper.isSpanOf (hws.subset hw)).bind
    intro _ _
    exact hws
  · apply (Locates.mapError _).bind
    intro x _
    apply (locates_checkEndOfTerm fun u hu => hupper.isSpanOf (hupper.suffix.subset hu)).bind
    intro _ _
    exact hupper.suffix

theorem isSpanOf_readSigns {s : Span} (h : (readSigns ts).1.span = some s) : IsSpanOf ts s := by
  have hsplit := List.takeWhile_append_dropWhile (p := Token.isSign) (l := ts)
  rw [readSigns] at h
  generalize ts.takeWhile Token.isSign = run at h hsplit
  generalize ts.dropWhile Token.isSign = rest at h hsplit
  subst hsplit
  cases run with
  | nil => cases h
  | cons t run =>
    dsimp only at h
    split at h
    · next t' u ht hu =>
      cases h
      obtain rfl := Option.some.inj ht
      have hmem : u ∈ t :: run := List.mem_of_getLast? hu
      exact ⟨t, run ++ rest, u, List.suffix_rfl, List.mem_append_left rest hmem, rfl⟩
    · cases h

theorem locates_endsSide (ts : List Token) :
    Locates last ts (fun _ => True) (endsSide last ts) := by
  cases ts with
  | nil =>
    apply (locates_check []).bind
    intro _ _
    trivial
  | cons t ts => trivial

theorem locates_readSide (negated : Bool) (ts : List Token) :
    Locates last ts (fun us => us <:+ ts) (readSide last negated ts).2 := by
  fun_induction readSide last negated ts with
  | case1 ts us e he =>
    exact ((locates_endsSide us).of_error he).of_suffix (suffix_readSigns ts)
  | case2 ts signs us hend span hspan => exact .tokens (isSpanOf_readSigns hspan)
  | case3 ts signs us hend hspan => exact suffix_readSigns ts
  | case4 ts us hend e he =>
    exact ((locates_readTerm us).of_error he).of_suffix (suffix_readSigns ts)
  | case5 ts signs us hend t rest ht e he =>
    exact (locates_signed _ t).of_error he
  | case6 ts signs us hend t rest ht u hu more r hr ih =>
    rw [hr] at ih
    have hrest : rest <:+ ts := ((locates_readTerm us).of_ok ht).trans (suffix_readSigns ts)
    exact (ih.imp fun vs hvs => hvs.trans hrest).of_suffix hrest

/-- The tokens of two sides, each with an equals sign after it, at the start of a text. -/
inductive HasTwoSides (last : TokenEnd) (ts : List Token) : List Term → Prop
  | intro {s s' : SideForm} {left right : List Term} {u v : Token} {us vs : List Token}
      (hs : IsSideOf (· = .equals) last false ts s left (u :: us))
      (hs' : IsSideOf (· = .equals) last true us s' right (v :: vs)) :
    HasTwoSides last ts (left ++ right)

/-- An error blames tokens of the text, or it is that of the second equals sign. -/
theorem blames_of_readEquation (cs : List Char) : ∀ e, (readEquation cs).2 = some e →
    Blames (tokenize 0 cs).2 (tokenize 0 cs).1 e ∨
      e = .secondEqualsSign ∧
        HasTwoSides (tokenize 0 cs).2 (tokenize 0 cs).1 (readEquation cs).1 := by
  have hv := areValid_tokenize 0 cs
  rw [readEquation]
  generalize tokenize 0 cs = tokens at hv ⊢
  obtain ⟨ts, last⟩ := tokens
  have hleft := yields_readSide last false hv
  have hsuffix : Locates last ts (fun us => us <:+ ts) (readSide last false ts).2 :=
    locates_readSide false ts
  dsimp only at hv hleft ⊢
  split
  · next left e hl =>
    rintro _ ⟨⟩
    exact .inl (hsuffix.of_error (congrArg Prod.snd hl))
  · rintro _ ⟨⟩
  · next left u us hl =>
    obtain ⟨rfl, hl⟩ := Prod.ext_iff.1 hl
    obtain ⟨s, hs⟩ := hleft.of_ok hl
    have hus : us <:+ ts := (List.suffix_cons u us).trans (hsuffix.of_ok hl)
    have hvu : AreValid us := fun l hl => hs.takes.areValid hv l (List.mem_cons_of_mem _ hl)
    have hright := yields_readSide last true hvu
    -- Only an equals sign can follow a side, so the token after it is no fault.
    rw [if_neg (not_not.2 (hs.stops.head u rfl))]
    split
    · next right e hr =>
      rintro _ ⟨⟩
      exact .inl (((locates_readSide true us).of_error (congrArg Prod.snd hr)).of_suffix hus)
    · next right rest hr =>
      obtain ⟨rfl, hr⟩ := Prod.ext_iff.1 hr
      obtain ⟨s', hs'⟩ := hright.of_ok hr
      intro e he
      cases rest with
      | nil => cases he
      | cons v vs =>
        rw [trailingError?, if_pos (hs'.stops.head v rfl)] at he
        cases he
        exact .inr ⟨rfl, .intro hs hs'⟩

end ExactLinear
