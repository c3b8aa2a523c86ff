import ExactLinear.Proofs.Reading.Equations

/-! # Whatever is written is read

If the tokens of a text are the lexemes of a written equation, the reader accepts them and returns
terms with the names and values of the written ones. What follows a part tells the reader where it
ends.
-/

namespace ExactLinear

/-- The lexemes are used up, or the first has one of these kinds. -/
def StartsWith (allowed : TokenKind → Prop) (ls : List Lexeme) : Prop :=
  ∀ l ∈ ls.head?, allowed l.kind

theorem StartsWith.imp {p q : TokenKind → Prop} {ls : List Lexeme} (h : StartsWith p ls)
    (hpq : ∀ k, p k → q k) : StartsWith q ls := fun l hl => hpq _ (h l hl)

/-- The kinds of the tokens that end a part. -/
def TokenKind.EndsPart (k : TokenKind) : Prop := k ≠ number ∧ k ≠ name

theorem TokenKind.EndsTerm.endsPart {k : TokenKind} (h : k.EndsTerm) : k.EndsPart := by
  rcases h with rfl | rfl | rfl <;> simp [EndsPart]

section

variable (stop : ℕ) {ts : List Token} {ls : List Lexeme}

theorem exists_token {l : Lexeme} (h : ts.map Token.lexeme = l :: ls) :
    ∃ t us, ts = t :: us ∧ t.kind = l.kind ∧ t.text = l.text ∧ us.map Token.lexeme = ls := by
  obtain ⟨t, us, rfl, rfl, hus⟩ := List.map_eq_cons_iff.1 h
  exact ⟨t, us, rfl, rfl, rfl, hus⟩

theorem accept?_of_kind (last : TokenEnd) {k : TokenKind} {t : Token} (h : t.kind = k) :
    accept? last k (t :: ts) = .ok (some (t, ts)) := by
  rw [accept?, if_pos h]
  rfl

theorem accept?_eq_none {k : TokenKind} (h : ts.map Token.lexeme = ls)
    (hls : StartsWith (· ≠ k) ls) : accept? (.ofText stop) k ts = .ok none := by
  subst h
  cases ts with
  | nil => rfl
  | cons t ts =>
    have ht : t.kind ≠ k := hls t.lexeme rfl
    rw [accept?, if_neg ht]
    rfl

theorem readNumber_of_fitsWord {t : Token} (h : FitsWord (decimal t.text)) :
    readNumber t = .ok (decimal t.text) := by
  rw [readNumber, if_pos h]
  rfl

theorem exists_readPart {p : PartForm} (hp : p.IsWellFormed)
    (h : ts.map Token.lexeme = p.lexemes ++ ls) (hls : StartsWith TokenKind.EndsPart ls) :
    ∃ part us, readPart (.ofText stop) ts = .ok (part, us) ∧ part.Denotes p ∧
      us.map Token.lexeme = ls := by
  have hw := (PartForm.isWellFormed_iff.1 hp).2
  cases p with
  | number ds =>
    obtain ⟨t, us, rfl, hk, ht, hus⟩ := exists_token h
    dsimp only at hk ht
    subst ht
    have hnone := accept?_eq_none stop hus (hls.imp fun _ h => h.2)
    refine ⟨⟨some (decimal t.text), none, t.span⟩, us, ?_, ⟨rfl, rfl⟩, hus⟩
    rw [readPart, hk, readNumber_of_fitsWord (hw _ rfl), ok_bind, hnone, ok_bind]
    rfl
  | numberName ds n =>
    obtain ⟨t, us, rfl, hk, ht, hus⟩ := exists_token h
    obtain ⟨u, vs, rfl, hk', hu, hvs⟩ := exists_token hus
    dsimp only at hk ht hk' hu
    subst ht hu
    refine ⟨⟨some (decimal t.text), some u.text, ⟨t.span.start, u.span.stop⟩⟩, vs, ?_,
      ⟨rfl, rfl⟩, hvs⟩
    rw [readPart, hk, readNumber_of_fitsWord (hw _ rfl), ok_bind, accept?_of_kind _ hk', ok_bind]
    rfl
  | name n =>
    obtain ⟨t, us, rfl, hk, ht, hus⟩ := exists_token h
    dsimp only at hk ht
    subst ht
    have hnone := accept?_eq_none stop hus (hls.imp fun _ h => h.1)
    refine ⟨⟨none, some t.text, t.span⟩, us, ?_, ⟨rfl, rfl⟩, hus⟩
    rw [readPart, hk, hnone, ok_bind]
    rfl
  | nameNumber n ds =>
    obtain ⟨t, us, rfl, hk, ht, hus⟩ := exists_token h
    obtain ⟨u, vs, rfl, hk', hu, hvs⟩ := exists_token hus
    dsimp only at hk ht hk' hu
    subst ht hu
    refine ⟨⟨some (decimal u.text), some t.text, ⟨t.span.start, u.span.stop⟩⟩, vs, ?_,
      ⟨rfl, rfl⟩, hvs⟩
    rw [readPart, hk, accept?_of_kind _ hk', ok_bind]
    dsimp only
    rw [readNumber_of_fitsWord (hw _ rfl), ok_bind]
    rfl

theorem readSigns_of_map {cs : List Char} (h : ts.map Token.lexeme = cs.map .sign ++ ls)
    (hls : StartsWith (fun k => k ≠ .plus ∧ k ≠ .minus) ls) :
    (readSigns ts).1.negative = negates cs ∧ ((readSigns ts).1.span = none ↔ cs = []) ∧
      (readSigns ts).2.map Token.lexeme = ls := by
  obtain ⟨run, us, rfl, hrun, rfl⟩ := List.map_eq_append_iff.1 h
  have hsign : ∀ t ∈ run, t.isSign := by
    intro t ht
    have hmem := List.mem_map_of_mem (f := Token.lexeme) ht
    rw [hrun] at hmem
    obtain ⟨c, _, hc⟩ := List.mem_map.1 hmem
    have hk : (Lexeme.sign c).kind = t.kind := congrArg Lexeme.kind hc
    rw [Token.isSign, ← hk, Lexeme.sign]
    split <;> rfl
  have hnil : us.takeWhile Token.isSign = [] ∧ us.dropWhile Token.isSign = us := by
    cases us with
    | nil => exact ⟨rfl, rfl⟩
    | cons u us =>
      obtain ⟨hp, hm⟩ := hls u.lexeme rfl
      have hu : u.isSign = false := by
        simpa [Token.isSign] using ⟨hp, hm⟩
      simp [hu]
  have htake : (run ++ us).takeWhile Token.isSign = run := by
    rw [List.takeWhile_append_of_pos hsign, hnil.1, List.append_nil]
  have hdrop : (run ++ us).dropWhile Token.isSign = us := by
    rw [List.dropWhile_append_of_pos hsign, hnil.2]
  refine ⟨?_, ?_, ?_⟩
  · rw [readSigns, htake, negates, ← countP_minus hrun]
  · rw [span_readSigns, htake, ← List.map_eq_nil_iff (f := Token.lexeme), hrun, List.map_eq_nil_iff]
  · rw [readSigns, hdrop]

theorem Part.Denotes.exists_quotient {upper lower : Part} {p q : PartForm}
    (hu : upper.Denotes p) (hl : lower.Denotes q) (hp : p.IsWellFormed) (hq : q.IsWellFormed)
    (h : TermForm.IsLinear p q) : ∃ t, quotient upper lower = .ok t ∧ IsQuotientOf p q t := by
  obtain ⟨x, hx, hval, ho⟩ := Fraction.exists_ofParts hp.fitsWord hq.fitsWord h.2.2
  refine ⟨termOf x (p.name? <|> q.name?), ?_, h, ho, rfl, hval⟩
  have hnum : lower.number.isNone = true ↔ q.digits? = none := by simp [hl.number]
  rw [quotient, hu.name, hl.name, hu.count, hl.count, hx]
  cases hpn : p.name? with
  | none =>
    cases hqn : q.name? with
    | none => rfl
    | some n =>
      dsimp only
      rw [if_neg (mt hnum.1 (h.2.1 (by simp [hqn])))]
      rfl
  | some m =>
    rw [h.1.resolve_left (by simp [hpn])]
    rfl

theorem checkEndOfTerm_of_startsWith {start : ℕ} (h : ts.map Token.lexeme = ls)
    (hls : StartsWith TokenKind.EndsTerm ls) : checkEndOfTerm (.ofText stop) start ts = .ok () := by
  subst h
  cases ts with
  | nil => rfl
  | cons t ts =>
    have ht : t.kind.EndsTerm := hls t.lexeme rfl
    have hend : (t.isSign || decide (t.kind = .equals)) = true := by
      simpa [Token.isSign, or_assoc, TokenKind.EndsTerm] using ht
    rw [checkEndOfTerm, if_pos hend]
    rfl

/-- A part or a quotient of parts is read as a term, if something follows that ends it. -/
theorem exists_readTerm {f : TermForm} (hf : f.IsWellFormed) (hnil : f.signs = [])
    (h : ts.map Token.lexeme = f.lexemes ++ ls) (hls : StartsWith TokenKind.EndsTerm ls) :
    ∃ t us, readTerm (.ofText stop) ts = .ok (t, us) ∧ t.monomial = f.monomial ∧
      t.coefficient.HasOpposite ∧ us.map Token.lexeme = ls := by
  obtain ⟨signs, p, lower⟩ := f
  obtain ⟨_, hp, hlow⟩ := hf
  dsimp only at hnil hp hlow
  subst hnil
  cases lower with
  | none =>
    obtain ⟨upper, us, hread, hup, hus⟩ := exists_readPart stop hp
      (by simpa [TermForm.lexemes] using h) (hls.imp fun _ h => h.endsPart)
    have hname : upper.name = p.name? := hup.name
    obtain ⟨x, hx, hval, ho⟩ := Fraction.exists_ofInt hp.fitsWord
    have hnone := accept?_eq_none stop (k := .slash) hus
      (hls.imp (by rintro k (rfl | rfl | rfl) <;> simp))
    refine ⟨termOf x upper.name, us, ?_, ?_, ho, hus⟩
    · refine bind_eq_ok.2 ⟨_, hread, bind_eq_ok.2 ⟨_, hnone, ?_⟩⟩
      dsimp only
      rw [hup.count, hx]
      exact bind_eq_ok.2 ⟨x, rfl, bind_eq_ok.2
        ⟨(), checkEndOfTerm_of_startsWith stop hus hls, rfl⟩⟩
    · refine Prod.ext ?_ (hval.trans (TermForm.value_part p).symm)
      simp [termOf, Term.monomial, TermForm.monomial, TermForm.name, hname]
  | some r =>
    obtain ⟨cs, q⟩ := r
    obtain ⟨_, hq, hlin⟩ := hlow _ rfl
    have hupper : ts.map Token.lexeme =
        p.lexemes ++ .slash :: (cs.map .sign ++ (q.lexemes ++ ls)) := by
      simpa [TermForm.lexemes] using h
    obtain ⟨upper, us, hread, hup, hus⟩ := exists_readPart stop hp hupper
      (by simp [StartsWith, Lexeme.slash, TokenKind.EndsPart])
    obtain ⟨u, vs, rfl, hk, _, hvs⟩ := exists_token hus
    obtain ⟨hneg, _, hws⟩ := readSigns_of_map hvs
      (by cases q <;> simp [StartsWith, PartForm.lexemes])
    obtain ⟨lower, ws, hread', hlo, hws'⟩ := exists_readPart stop hq hws
      (hls.imp fun _ h => h.endsPart)
    obtain ⟨t, ht, hquot⟩ := hup.exists_quotient hlo hp hq hlin
    obtain ⟨t', ht', hname, ho, hval⟩ := exists_signed (readSigns vs).1.negative hquot.hasOpposite
    refine ⟨t', ws, ?_, ?_, ho, hws'⟩
    · exact bind_eq_ok.2 ⟨_, hread, bind_eq_ok.2 ⟨_, accept?_of_kind _ hk,
        bind_eq_ok.2 ⟨_, hread', bind_eq_ok.2 ⟨_, ht, bind_eq_ok.2 ⟨_, ht',
          bind_eq_ok.2 ⟨(), checkEndOfTerm_of_startsWith stop hws' hls, rfl⟩⟩⟩⟩⟩⟩
    · rw [hneg, hquot.value] at hval
      exact Prod.ext (hname.trans hquot.name) (hval.trans (TermForm.value_quotient p q cs).symm)

theorem endsSide_of_startsWith (h : ts.map Token.lexeme = ls) (hls : StartsWith (· = .equals) ls) :
    endsSide (.ofText stop) ts = .ok true := by
  subst h
  cases ts with
  | nil => rfl
  | cons t ts =>
    have ht : t.kind = .equals := hls t.lexeme rfl
    rw [endsSide, decide_eq_true ht]
    rfl

theorem endsSide_eq_false (last : TokenEnd) {l : Lexeme} (h : ts.map Token.lexeme = l :: ls)
    (hl : l.kind ≠ .equals) : endsSide last ts = .ok false := by
  obtain ⟨t, us, rfl, ht, _⟩ := exists_token h
  rw [endsSide, decide_eq_false (ht ▸ hl)]
  rfl

theorem TermForm.exists_lexemes_eq (f : TermForm) :
    f.lexemes = f.signs.map .sign ++ lexemes ⟨[], f.upper, f.lower⟩ ∧
      ∃ l ls, lexemes ⟨[], f.upper, f.lower⟩ = l :: ls ∧ (l.kind = .number ∨ l.kind = .name) := by
  constructor
  · simp [lexemes]
  · cases h : f.upper <;> simp [lexemes, PartForm.lexemes]

variable (negated : Bool)

/-- The side ends where nothing or an equals sign is left. -/
theorem readSide_of_startsWith (h : ts.map Token.lexeme = ls)
    (hls : StartsWith (· = .equals) ls) :
    ∃ us, readSide (.ofText stop) negated ts = ([], .ok us) ∧ us.map Token.lexeme = ls := by
  have hnil : ts.map Token.lexeme = [].map .sign ++ ls := h
  obtain ⟨_, hspan, hus⟩ := readSigns_of_map hnil (hls.imp (by rintro k rfl; simp))
  have hend := endsSide_of_startsWith stop hus hls
  refine ⟨(readSigns ts).2, ?_, hus⟩
  rw [readSide]
  split
  · next he => cases hend.symm.trans he
  · rw [hspan.2 rfl]
  · next he => cases hend.symm.trans he

theorem readSide_of_lexemes {f : TermForm} (hf : f.IsWellFormed)
    (h : ts.map Token.lexeme = f.lexemes ++ ls) (hls : StartsWith TokenKind.EndsTerm ls) :
    ∃ t us, readSide (.ofText stop) negated ts = (t :: (readSide (.ofText stop) negated us).1,
        (readSide (.ofText stop) negated us).2) ∧
      t.monomial = (f.name, if negated then -f.value else f.value) ∧ us.map Token.lexeme = ls := by
  obtain ⟨hsplit, l, ls', hl, hkind⟩ := f.exists_lexemes_eq
  rw [hsplit, List.append_assoc] at h
  obtain ⟨hneg, _, hus⟩ := readSigns_of_map h (by
    rw [hl]
    rcases hkind with hk | hk <;> simp [StartsWith, hk])
  have hend := endsSide_eq_false (.ofText stop) (by rw [hus, hl]; rfl)
    (by rcases hkind with hk | hk <;> simp [hk])
  obtain ⟨t, us, hread, hmono, ho, hus'⟩ := exists_readTerm stop
    (f := ⟨[], f.upper, f.lower⟩) ⟨by simp [IsSigns], hf.2⟩ rfl hus hls
  obtain ⟨t', ht', hmono'⟩ := f.exists_signed negated hmono ho
  rw [← hneg] at ht'
  refine ⟨t', us, ?_, hmono', hus'⟩
  rw [readSide]
  split
  · next he => cases hend.symm.trans he
  · next he => cases hend.symm.trans he
  · split
    · next he => cases hread.symm.trans he
    · next he =>
      cases hread.symm.trans he
      rw [ht']

theorem startsWith_sideLexemes {s : SideForm} (hs : ∀ f ∈ s, f.signs ≠ [])
    (hls : StartsWith TokenKind.EndsTerm ls) : StartsWith TokenKind.EndsTerm (s.lexemes ++ ls) := by
  cases s with
  | nil => exact hls
  | cons f s =>
    obtain ⟨signs, p, lower⟩ := f
    cases signs with
    | nil => simp at hs
    | cons c cs =>
      by_cases hc : c = '-' <;>
        simp [StartsWith, SideForm.lexemes, TermForm.lexemes, Lexeme.sign, TokenKind.EndsTerm, hc]

theorem exists_readSide {s : SideForm} (hs : s.IsWellFormed)
    (h : ts.map Token.lexeme = s.lexemes ++ ls) (hls : StartsWith (· = .equals) ls) :
    ∃ terms us, readSide (.ofText stop) negated ts = (terms, .ok us) ∧
      terms.map Term.monomial = s.monomials negated ∧ us.map Token.lexeme = ls := by
  induction s generalizing ts with
  | nil =>
    obtain ⟨us, hread, hus⟩ := readSide_of_startsWith stop negated
      (by simpa [SideForm.lexemes] using h) hls
    exact ⟨[], us, hread, rfl, hus⟩
  | cons f s ih =>
    obtain ⟨hwf, htail⟩ := hs
    obtain ⟨hf, hs⟩ := List.forall_mem_cons.1 hwf
    have hfollow := startsWith_sideLexemes htail (hls.imp endsTerm_of_eq_equals)
    obtain ⟨t, us, hread, hmono, hus⟩ := readSide_of_lexemes stop negated hf
      (by simpa [SideForm.lexemes] using h) hfollow
    have hrest : SideForm.IsWellFormed s := ⟨hs, fun g hg => htail g (List.mem_of_mem_tail hg)⟩
    obtain ⟨terms, vs, hread', hmono', hvs⟩ := ih hrest hus
    refine ⟨t :: terms, vs, ?_, ?_, hvs⟩
    · rw [hread, hread']
    · rw [List.map_cons, hmono, hmono', SideForm.monomials, SideForm.monomials, List.map_cons]

end

/-- Every written equation is read without error, as terms with its names and values. -/
theorem readEquation_of_splits {cs : List Char} {f : EquationForm} (hf : f.IsWellFormed)
    (h : Splits cs f.lexemes []) :
    ∃ terms, readEquation cs = (terms, none) ∧ terms.map Term.monomial = f.monomials := by
  obtain ⟨next, hmap, hlast⟩ := tokenize_of_splits h 0
  obtain ⟨left, right⟩ := f
  obtain ⟨hl, hr⟩ := hf
  rw [tokenize, List.map_nil, List.append_nil] at hmap
  rw [tokenize] at hlast
  generalize htok : tokenize 0 cs = tokens at hmap hlast
  obtain ⟨ts, last⟩ := tokens
  dsimp only at hmap hlast hl hr
  subst hlast
  cases right with
  | none =>
    have hts : ts.map Token.lexeme = left.lexemes ++ [] := by
      simpa [EquationForm.lexemes] using hmap
    obtain ⟨terms, us, hread, hmono, hus⟩ :=
      exists_readSide next false hl hts (by simp [StartsWith])
    rw [List.map_eq_nil_iff] at hus
    subst hus
    refine ⟨terms, ?_, by simpa [EquationForm.monomials, SideForm.monomials] using hmono⟩
    rw [readEquation, htok]
    dsimp only
    rw [hread]
  | some s =>
    obtain ⟨terms, us, hread, hmono, hus⟩ :=
      exists_readSide next false hl hmap (by simp [StartsWith, Lexeme.equals])
    obtain ⟨u, vs, rfl, hk, _, hvs⟩ := exists_token hus
    have hk : u.kind = .equals := hk
    have hts : vs.map Token.lexeme = s.lexemes ++ [] := by simpa using hvs
    obtain ⟨terms', ws, hread', hmono', hws⟩ :=
      exists_readSide next true (hr s rfl) hts (by simp [StartsWith])
    rw [List.map_eq_nil_iff] at hws
    subst hws
    refine ⟨terms ++ terms', ?_, by rw [List.map_append, hmono, hmono']; rfl⟩
    rw [readEquation, htok]
    dsimp only
    rw [hread]
    dsimp only
    rw [if_neg (not_not.2 hk), hread']
    rfl

end ExactLinear
