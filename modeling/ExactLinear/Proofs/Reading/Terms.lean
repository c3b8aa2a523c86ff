import ExactLinear.Proofs.Fraction.Words
import ExactLinear.Proofs.Reading.Forms
import ExactLinear.Proofs.Reading.Sums

/-! # Terms are read as they are written

Whatever the reader takes off the tokens for a term is a written form of the term that it returns.
Where it returns none, the error ends no run: the numbers of a single term all have words.
-/

namespace ExactLinear

/-- The result has the property, or the text is rejected with an error that ends no run. -/
def Yields {α : Type} (P : α → Prop) : Except ParseError α → Prop
  | .ok a => P a
  | .error e => e.fatal? = none

namespace Yields

variable {α β : Type} {P : α → Prop} {Q : β → Prop}

theorem ok {a : α} (h : P a) : Yields P (.ok a) := h

theorem error {e : ParseError} (h : e.fatal? = none) : Yields P (.error e) := h

theorem of_eq {x : Except ParseError α} {a : α} (h : x = .ok a) : Yields (· = a) x := by
  rw [h]
  exact .ok rfl

theorem bind {x : Except ParseError α} {f : α → Except ParseError β} (hx : Yields P x)
    (hf : ∀ a, P a → Yields Q (f a)) : Yields Q (x >>= f) := by
  cases x with
  | ok a => exact hf a hx
  | error e => exact hx

theorem imp {x : Except ParseError α} {R : α → Prop} (hx : Yields P x) (h : ∀ a, P a → R a) :
    Yields R x := by
  cases x with
  | ok a => exact h a hx
  | error e => exact hx

theorem of_ok {x : Except ParseError α} (h : Yields P x) {a : α} (ha : x = .ok a) : P a := by
  rw [ha] at h
  exact h

theorem of_error {x : Except ParseError α} (h : Yields P x) {e : ParseError} (he : x = .error e) :
    e.fatal? = none := by
  rw [he] at h
  exact h

end Yields

/-- Tokens start with the lexemes, and others are left. -/
def Takes (ts : List Token) (ls : List Lexeme) (us : List Token) : Prop :=
  ts.map Token.lexeme = ls ++ us.map Token.lexeme

def AreValid (ts : List Token) : Prop := ∀ l ∈ ts.map Token.lexeme, l.IsValid

namespace Takes

variable {ts us vs : List Token} {ls ls' : List Lexeme}

theorem trans (h : Takes ts ls us) (h' : Takes us ls' vs) : Takes ts (ls ++ ls') vs := by
  rw [Takes, h, h', List.append_assoc]

theorem isValid (h : Takes ts ls us) (hv : AreValid ts) : ∀ l ∈ ls, l.IsValid := by
  rw [AreValid, h, List.forall_mem_append] at hv
  exact hv.1

theorem areValid (h : Takes ts ls us) (hv : AreValid ts) : AreValid us := by
  rw [AreValid, h, List.forall_mem_append] at hv
  exact hv.2

end Takes

theorem Token.lexeme_eq_slash {t : Token} (hv : t.lexeme.IsValid) (h : t.kind = .slash) :
    t.lexeme = .slash := by
  rw [Lexeme.IsValid, lexeme, h] at hv
  rw [lexeme, h, show t.text = ['/'] from hv, Lexeme.slash]

theorem Token.lexeme_eq_equals {t : Token} (hv : t.lexeme.IsValid) (h : t.kind = .equals) :
    t.lexeme = .equals := by
  rw [Lexeme.IsValid, lexeme, h] at hv
  rw [lexeme, h, show t.text = ['='] from hv, Lexeme.equals]

/-- The text is used up, or a token of one of these kinds is next. -/
structure Stops (allowed : TokenKind → Prop) (last : TokenEnd) (ts : List Token) : Prop where
  last : ts = [] → ∃ stop, last = .ofText stop
  head : ∀ t ∈ ts.head?, allowed t.kind

def TokenKind.EndsTerm (k : TokenKind) : Prop := k = plus ∨ k = minus ∨ k = equals

section

variable (last : TokenEnd)

theorem TokenEnd.fatal?_error : last.error.fatal? = none := by
  cases last <;> rfl

theorem yields_check : Yields (fun _ => ∃ stop, last = .ofText stop) last.check := by
  cases last with
  | ofText stop => exact .ok ⟨stop, rfl⟩
  | stray c index => exact .error rfl

theorem yields_accept? (k : TokenKind) (ts : List Token) :
    Yields (fun r => ∀ t us, r = some (t, us) → ts = t :: us ∧ t.kind = k) (accept? last k ts) := by
  cases ts with
  | nil => exact .bind (yields_check last) fun _ _ => .ok (by simp)
  | cons t ts =>
    refine .ok fun u us h => ?_
    split at h
    · next hk => cases h; exact ⟨rfl, hk⟩
    · cases h

/-- The part has the number and the name of the form. -/
structure Part.Denotes (part : Part) (p : PartForm) : Prop where
  number : part.number = p.digits?.map decimal
  name : part.name = p.name?

theorem Part.Denotes.count {part : Part} {p : PartForm} (h : part.Denotes p) :
    part.number.getD 1 = p.count := by
  rw [h.number, PartForm.count]

theorem PartForm.IsWellFormed.fitsWord {p : PartForm} (h : p.IsWellFormed) :
    FitsWord (p.count : ℕ) := by
  rw [count]
  cases hd : p.digits? with
  | none => decide
  | some ds => exact (h.1 ds hd).2.2

theorem yields_readNumber (t : Token) :
    Yields (fun n => n = decimal t.text ∧ FitsWord (decimal t.text)) (readNumber t) := by
  rw [readNumber]
  split
  · next hw => exact .ok ⟨rfl, hw⟩
  · exact .error rfl

def IsPartOf (ts : List Token) (r : Part × List Token) : Prop :=
  ∃ p : PartForm, p.IsWellFormed ∧ r.1.Denotes p ∧ Takes ts p.lexemes r.2

theorem Takes.isPartOf {ts us : List Token} {part : Part} {p : PartForm}
    (h : Takes ts p.lexemes us) (hv : AreValid ts) (hw : ∀ ds ∈ p.digits?, FitsWord (decimal ds))
    (hp : part.Denotes p) : IsPartOf ts (part, us) :=
  ⟨p, PartForm.isWellFormed_iff.2 ⟨h.isValid hv, hw⟩, hp, h⟩

theorem yields_readPart {ts : List Token} (hv : AreValid ts) :
    Yields (IsPartOf ts) (readPart last ts) := by
  cases ts with
  | nil => exact .error last.fatal?_error
  | cons t ts =>
    rw [readPart]
    split
    · next hk =>
      refine .bind (yields_readNumber t) fun n hn => ?_
      obtain ⟨rfl, hw⟩ := hn
      have hw : ∀ ds ∈ some t.text, FitsWord (decimal ds) := by simpa using hw
      refine .bind (yields_accept? last .name ts) fun a ha => ?_
      split
      · next u us =>
        obtain ⟨rfl, hu⟩ := ha u us rfl
        have h : Takes (t :: u :: us) (PartForm.numberName t.text u.text).lexemes us := by
          simp [Takes, Token.lexeme, PartForm.lexemes, hk, hu]
        exact .ok (h.isPartOf hv hw ⟨rfl, rfl⟩)
      · have h : Takes (t :: ts) (PartForm.number t.text).lexemes ts := by
          simp [Takes, Token.lexeme, PartForm.lexemes, hk]
        exact .ok (h.isPartOf hv hw ⟨rfl, rfl⟩)
    · next hk =>
      refine .bind (yields_accept? last .number ts) fun a ha => ?_
      split
      · next u us =>
        obtain ⟨rfl, hu⟩ := ha u us rfl
        refine .bind (yields_readNumber u) fun n hn => ?_
        obtain ⟨rfl, hw⟩ := hn
        have hw : ∀ ds ∈ some u.text, FitsWord (decimal ds) := by simpa using hw
        have h : Takes (t :: u :: us) (PartForm.nameNumber t.text u.text).lexemes us := by
          simp [Takes, Token.lexeme, PartForm.lexemes, hk, hu]
        exact .ok (h.isPartOf hv hw ⟨rfl, rfl⟩)
      · have h : Takes (t :: ts) (PartForm.name t.text).lexemes ts := by
          simp [Takes, Token.lexeme, PartForm.lexemes, hk]
        exact .ok (h.isPartOf hv (by simp [PartForm.digits?]) ⟨rfl, rfl⟩)
    · exact .error rfl

/-- The run of signs was read off the front of the tokens and leaves the others. -/
structure IsSignsOf (ts : List Token) (r : Signs × List Token) (cs : List Char) : Prop where
  isSigns : IsSigns cs
  takes : Takes ts (cs.map .sign) r.2
  negative : r.1.negative = negates cs
  span : r.1.span = none ↔ cs = []

theorem Token.lexeme_of_isSign {t : Token} (hv : t.lexeme.IsValid) (h : t.isSign) :
    ∃ c, (c = '+' ∨ c = '-') ∧ t.lexeme = .sign c := by
  rw [isSign, Bool.or_eq_true, decide_eq_true_eq, decide_eq_true_eq] at h
  rcases h with h | h <;> rw [Lexeme.IsValid, lexeme, h] at hv
  · exact ⟨'+', .inl rfl, by rw [lexeme, h, show t.text = ['+'] from hv]; rfl⟩
  · exact ⟨'-', .inr rfl, by rw [lexeme, h, show t.text = ['-'] from hv]; rfl⟩

theorem exists_signs {run : List Token} (hv : AreValid run) (h : ∀ t ∈ run, t.isSign) :
    ∃ cs, IsSigns cs ∧ run.map Token.lexeme = cs.map .sign := by
  induction run with
  | nil => exact ⟨[], by simp [IsSigns]⟩
  | cons t run ih =>
    obtain ⟨ht, hrun⟩ := List.forall_mem_cons.1 h
    rw [AreValid, List.map_cons, List.forall_mem_cons] at hv
    obtain ⟨c, hc, htc⟩ := Token.lexeme_of_isSign hv.1 ht
    obtain ⟨cs, hcs, hmap⟩ := ih hv.2 hrun
    exact ⟨c :: cs, List.forall_mem_cons.2 ⟨hc, hcs⟩, by simp [htc, hmap]⟩

/-- A run negates as its characters do. -/
theorem countP_minus {run : List Token} {cs : List Char}
    (h : run.map Token.lexeme = cs.map .sign) :
    run.countP (fun t => t.kind = .minus) = cs.count '-' := by
  have hk : run.countP (fun t => t.kind = .minus) =
      (run.map Token.lexeme).countP fun l => l.kind = .minus := by
    rw [List.countP_map]
    rfl
  rw [hk, h, List.countP_map, List.count]
  congr 1
  ext c
  by_cases hc : c = '-' <;> simp [Lexeme.sign, hc]

theorem span_readSigns (ts : List Token) :
    (readSigns ts).1.span = none ↔ ts.takeWhile Token.isSign = [] := by
  rw [readSigns]
  dsimp only
  generalize ts.takeWhile Token.isSign = run
  cases run with
  | nil => simp
  | cons t run =>
    cases h : (t :: run).getLast? with
    | none => simp at h
    | some u => simp

theorem exists_isSignsOf {ts : List Token} (hv : AreValid ts) :
    ∃ cs, IsSignsOf ts (readSigns ts) cs := by
  have hsplit := List.takeWhile_append_dropWhile (p := Token.isSign) (l := ts)
  have hrun : AreValid (ts.takeWhile Token.isSign) := fun l hl =>
    hv l (List.map_subset _ (List.takeWhile_sublist _).subset hl)
  obtain ⟨cs, hcs, hmap⟩ := exists_signs hrun fun t ht => List.mem_takeWhile_imp ht
  refine ⟨cs, hcs, ?_, ?_, ?_⟩
  · rw [Takes, ← hmap, readSigns, ← List.map_append, hsplit]
  · rw [readSigns, negates, ← countP_minus hmap]
  · rw [span_readSigns, ← List.map_eq_nil_iff (f := Token.lexeme), hmap, List.map_eq_nil_iff]

theorem TermForm.value_part (p : PartForm) : value ⟨[], p, none⟩ = p.count := by
  simp [value, negates]

theorem TermForm.value_quotient (p q : PartForm) (signs : List Char) :
    value ⟨[], p, some (signs, q)⟩ =
      if negates signs then -(p.count / q.count : ℚ) else p.count / q.count := by
  cases h : negates signs <;> simp [value, h, show negates [] = false from rfl, neg_div]

/-- Signs before a term act on its value. -/
theorem TermForm.value_eq (t : TermForm) :
    t.value = if negates t.signs then -value ⟨[], t.upper, t.lower⟩
      else value ⟨[], t.upper, t.lower⟩ := by
  rcases t with ⟨signs, upper, _ | ⟨signs', lower⟩⟩
  · cases h : negates signs <;> simp [value, h, show negates [] = false from rfl]
  · rw [value_quotient]
    cases h : negates signs <;> cases h' : negates signs' <;> simp [value, h, h', neg_div]

/-- The term was read off the front of the tokens without signs, and ends where it may end. -/
structure IsTermOf (last : TokenEnd) (ts : List Token) (f : TermForm) (t : Term)
    (us : List Token) : Prop where
  isWellFormed : f.IsWellFormed
  signs : f.signs = []
  monomial : t.monomial = f.monomial
  hasOpposite : t.coefficient.HasOpposite
  takes : Takes ts f.lexemes us
  stops : Stops TokenKind.EndsTerm last us

theorem yields_checkEndOfTerm (start : ℕ) (ts : List Token) :
    Yields (fun _ => Stops TokenKind.EndsTerm last ts) (checkEndOfTerm last start ts) := by
  cases ts with
  | nil => exact (yields_check last).imp fun _ h => ⟨fun _ => h, by simp⟩
  | cons t ts =>
    rw [checkEndOfTerm]
    split
    · next h => exact .ok ⟨by simp, by simpa [Token.isSign, TokenKind.EndsTerm, or_assoc] using h⟩
    · exact .error rfl

theorem exists_signed (negative : Bool) {t : Term} (h : t.coefficient.HasOpposite) :
    ∃ u, signed negative t = .ok u ∧ u.name = t.name ∧ u.coefficient.HasOpposite ∧
      u.coefficient.value = if negative then -t.coefficient.value else t.coefficient.value := by
  rw [signed]
  split
  · obtain ⟨x, hx, hv, ho⟩ := Fraction.exists_neg h
    rw [Term.neg, hx]
    exact ⟨_, rfl, rfl, ho, hv⟩
  · exact ⟨t, rfl, rfl, h, rfl⟩

/-- The signs before a term, and the side that it stands on, are applied to it as it is read. -/
theorem TermForm.exists_signed (f : TermForm) (negated : Bool) {t : Term}
    (ht : t.monomial = monomial ⟨[], f.upper, f.lower⟩) (ho : t.coefficient.HasOpposite) :
    ∃ u, signed (negates f.signs != negated) t = .ok u ∧
      u.monomial = (f.name, if negated then -f.value else f.value) := by
  obtain ⟨u, hu, hname, _, hval⟩ := ExactLinear.exists_signed (negates f.signs != negated) ho
  have hn : t.name = f.name := congrArg Prod.fst ht
  have hv : t.coefficient.value = value ⟨[], f.upper, f.lower⟩ := congrArg Prod.snd ht
  refine ⟨u, hu, Prod.ext (hname.trans hn) (hval.trans ?_)⟩
  rw [value_eq, ← hv]
  cases negates f.signs <;> cases negated <;> simp

theorem yields_ofParts {n d : ℕ} (hn : FitsWord n) (hd : FitsWord d) :
    Yields (fun x : Fraction => (d = 0 → n = 0) ∧ x.value = (n / d : ℚ) ∧ x.HasOpposite)
      ((Fraction.ofParts n d).mapError .fault) := by
  by_cases h0 : d = 0 → n = 0
  · obtain ⟨x, hx, hval, ho⟩ := Fraction.exists_ofParts hn hd h0
    rw [hx]
    exact .ok ⟨h0, hval, ho⟩
  · obtain ⟨rfl, hn0⟩ := Classical.not_imp.1 h0
    rw [Fraction.ofParts_zero hn0]
    exact .error rfl

/-- The term is the quotient of the parts, whatever signs are set before them. -/
structure IsQuotientOf (p q : PartForm) (t : Term) : Prop where
  isLinear : TermForm.IsLinear p q
  hasOpposite : t.coefficient.HasOpposite
  name : t.name = TermForm.name ⟨[], p, some ([], q)⟩
  value : t.coefficient.value = (p.count / q.count : ℚ)

theorem Part.Denotes.yields_quotient {upper lower : Part} {p q : PartForm}
    (hu : upper.Denotes p) (hl : lower.Denotes q) (hp : p.IsWellFormed) (hq : q.IsWellFormed) :
    Yields (IsQuotientOf p q) (quotient upper lower) := by
  -- Whichever name is chosen, the numbers are divided.
  have hdiv (name : Option (List Char)) (hname : name = (p.name? <|> q.name?))
      (h1 : p.name? = none ∨ q.name? = none) (h2 : q.name? ≠ none → q.digits? ≠ none) :
      Yields (IsQuotientOf p q) (do
        let x ← (Fraction.ofParts p.count q.count).mapError .fault
        return termOf x name) :=
    .bind (yields_ofParts hp.fitsWord hq.fitsWord) fun x hx =>
      .ok ⟨⟨h1, h2, hx.1⟩, hx.2.2, by rw [hname]; rfl, hx.2.1⟩
  have hnum : lower.number.isNone = true ↔ q.digits? = none := by simp [hl.number]
  rw [quotient, hu.name, hl.name, hu.count, hl.count]
  cases hpn : p.name? with
  | none =>
    cases hqn : q.name? with
    | none => exact hdiv none (by simp [hpn, hqn]) (.inl hpn) (by simp [hqn])
    | some n =>
      dsimp only
      split
      · exact .error rfl
      · next h => exact hdiv (some n) (by simp [hpn, hqn]) (.inl hpn) fun _ => mt hnum.2 h
  | some m =>
    cases hqn : q.name? with
    | none => exact hdiv (some m) (by simp [hpn]) (.inr hqn) (by simp [hqn])
    | some n => exact .error rfl

theorem yields_readTerm {ts : List Token} (hv : AreValid ts) :
    Yields (fun r => ∃ f, IsTermOf last ts f r.1 r.2) (readTerm last ts) := by
  refine .bind (yields_readPart last hv) fun r hr => ?_
  obtain ⟨upper, us⟩ := r
  obtain ⟨p, hp, hup, htp⟩ := hr
  refine .bind (yields_accept? last .slash us) fun a ha => ?_
  split
  · next u vs =>
    obtain ⟨rfl, hu⟩ := ha u vs rfl
    have hvu := htp.areValid hv
    rw [AreValid, List.map_cons, List.forall_mem_cons] at hvu
    obtain ⟨cs, hcs, hts, hneg, _⟩ := exists_isSignsOf hvu.2
    refine .bind (yields_readPart last (hts.areValid hvu.2)) fun r hr => ?_
    obtain ⟨lower, ws⟩ := r
    obtain ⟨q, hq, hlow, htq⟩ := hr
    refine .bind (hup.yields_quotient hlow hp hq) fun t ht => ?_
    obtain ⟨t', ht', hname, ho, hval⟩ := exists_signed (readSigns vs).1.negative ht.hasOpposite
    refine .bind (.of_eq ht') fun _ heq => ?_
    subst heq
    refine .bind (yields_checkEndOfTerm last _ ws) fun _ hs => .ok ⟨⟨[], p, some (cs, q)⟩, ?_⟩
    constructor
    · exact ⟨by simp [IsSigns], hp, by simpa using ⟨hcs, hq, ht.isLinear⟩⟩
    · rfl
    · rw [hneg, ht.value] at hval
      exact Prod.ext (hname.trans ht.name) (hval.trans (TermForm.value_quotient p q cs).symm)
    · exact ho
    · have hslash : Takes (u :: vs) [.slash] vs := by
        rw [Takes, List.map_cons, Token.lexeme_eq_slash hvu.1 hu, List.singleton_append]
      simpa [TermForm.lexemes] using htp.trans (hslash.trans (hts.trans htq))
    · exact hs
  · obtain ⟨x, hx, hval, ho⟩ := Fraction.exists_ofInt hp.fitsWord
    rw [hup.count, hx, Except.mapError, ok_bind]
    refine .bind (yields_checkEndOfTerm last _ us) fun _ hs => .ok ⟨⟨[], p, none⟩, ?_⟩
    constructor
    · exact ⟨by simp [IsSigns], hp, by simp⟩
    · rfl
    · have hname : upper.name = p.name? := hup.name
      refine Prod.ext ?_ (hval.trans (TermForm.value_part p).symm)
      simp [termOf, Term.monomial, TermForm.monomial, TermForm.name, hname]
    · exact ho
    · simpa [TermForm.lexemes] using htp
    · exact hs

end
end ExactLinear
