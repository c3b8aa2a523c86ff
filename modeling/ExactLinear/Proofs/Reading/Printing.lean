import ExactLinear.Proofs.Reading.Language

/-! # The text of an equation is one of its forms

Without its blanks the text of an equation is a well formed equation with one written term for each
term. The name of a fraction moves to its denominator, and the signs of later terms stand apart.
-/

namespace ExactLinear

abbrev digits (n : ℕ) : List Char := Nat.toDigits 10 n

theorem decimal_digits (n : ℕ) : decimal (digits n) = n :=
  Nat.ofDigitChars_toDigits (by norm_num) (by norm_num)

theorem isDigit_of_mem_digits {n : ℕ} {c : Char} (h : c ∈ digits n) : c.isDigit :=
  Nat.isDigit_of_mem_toDigits (by norm_num) (by norm_num) h

theorem toList_toString_int (n : ℤ) :
    (toString n).toList = (if n < 0 then ['-'] else []) ++ digits n.natAbs := by
  cases n with
  | ofNat m =>
    change (toString m).toList = _
    simp
  | negSucc m =>
    change ("-" ++ toString (m + 1)).toList = _
    simp [Int.negSucc_lt_zero]

theorem Fraction.toList_text (a : Fraction) : a.text.toList =
    (if a.isNegative then ['-'] else []) ++ digits a.numerator.natAbs ++
      if a.isInteger then [] else '/' :: digits a.denominator := by
  rw [text]
  split
  · next hz =>
    rw [eq_zero_of_isZero hz]
    decide
  split
  · next hd => simpa [isNegative, isInteger, hd] using toList_toString_int a.numerator
  · next hz hd =>
    have hint : a.isInteger = false := by
      simp only [isZero, decide_eq_true_eq] at hz
      simp only [isInteger, decide_eq_false_iff_not]
      omega
    change (toString a.numerator ++ "/" ++ toString a.denominator).toList = _
    rw [String.toList_append, String.toList_append, toList_toString_int, Nat.toString_eq_repr,
      Nat.toList_repr, hint]
    simp [isNegative]

namespace Text

theorem removeBlanks_append (cs ds : List Char) :
    removeBlanks (cs ++ ds) = removeBlanks cs ++ removeBlanks ds := List.filter_append ..

theorem removeBlanks_eq_self {cs : List Char} (h : ∀ c ∈ cs, isBlank c = false) :
    removeBlanks cs = cs := by
  refine List.filter_eq_self.2 fun c hc => ?_
  rw [h c hc]
  rfl

theorem removeBlanks_digits (n : ℕ) : removeBlanks (digits n) = digits n :=
  removeBlanks_eq_self fun _ hc => isBlank_of_isMark (isMark_of_isDigit (isDigit_of_mem_digits hc))

end Text

open Text

def Name.IsAlphabetic (n : Name) : Prop := ∀ c ∈ n.text.toList, isAlphabetic c

theorem Name.IsAlphabetic.removeBlanks {n : Name} (h : n.IsAlphabetic) :
    Text.removeBlanks n.text.toList = n.text.toList :=
  removeBlanks_eq_self fun c hc => isBlank_of_isAlphabetic (h c hc)

theorem Name.toList_eq_nil_iff {n : Name} : n.text.toList = [] ↔ n.isBlank := by
  rw [isBlank, decide_eq_true_iff]
  constructor
  · intro h
    rw [← String.ofList_toList (s := n.text), h]
  · intro h
    rw [h]
    rfl

theorem Fraction.removeBlanks_text (a : Fraction) : removeBlanks a.text.toList = a.text.toList := by
  have hsign : removeBlanks (if a.isNegative then ['-'] else []) =
      if a.isNegative then ['-'] else [] := by
    split <;> rfl
  have hlower : removeBlanks (if a.isInteger then [] else '/' :: digits a.denominator) =
      if a.isInteger then [] else '/' :: digits a.denominator := by
    split
    · rfl
    · exact congrArg ('/' :: ·) (removeBlanks_digits _)
  rw [a.toList_text, removeBlanks_append, removeBlanks_append, hsign, removeBlanks_digits, hlower]

def PartForm.ofNumber (n : ℕ) (name : Name) : PartForm :=
  if name.isBlank then .number (digits n) else .numberName (digits n) name.text.toList

@[simp] theorem PartForm.chars_number (ds : List Char) : (number ds).chars = ds := rfl

@[simp] theorem PartForm.chars_name (n : List Char) : (name n).chars = n := rfl

@[simp] theorem PartForm.chars_ofNumber (n : ℕ) (name : Name) :
    (ofNumber n name).chars = digits n ++ name.text.toList := by
  rw [ofNumber]
  split
  · next h => rw [Name.toList_eq_nil_iff.2 h, List.append_nil, chars_number]
  · rfl

namespace Term

/-- The term is written as its name alone, apart from signs. -/
def isBare (t : Term) : Bool :=
  !t.isConstant && t.coefficient.isInteger && t.coefficient.numerator.natAbs = 1

/-- The term as it is written after the signs, with its name after the last of its numbers. -/
def form (signs : List Char) (t : Term) : TermForm :=
  if t.isBare then ⟨signs, .name t.name.text.toList, none⟩
  else if t.coefficient.isInteger then
    ⟨signs, .ofNumber t.coefficient.numerator.natAbs t.name, none⟩
  else ⟨signs, .number (digits t.coefficient.numerator.natAbs),
    some ([], .ofNumber t.coefficient.denominator t.name)⟩

theorem chars_form (signs : List Char) (t : Term) : (t.form signs).chars = signs ++
    (if t.isBare then [] else digits t.coefficient.numerator.natAbs ++
      if t.coefficient.isInteger then [] else '/' :: digits t.coefficient.denominator) ++
        t.name.text.toList := by
  rw [form]
  split
  · simp [TermForm.chars]
  split <;> simp [TermForm.chars]

/-- The sign of a term that stands first or alone. -/
def leadingSigns (t : Term) : List Char := if t.coefficient.isNegative then ['-'] else []

/-- The sign of a term that follows another. -/
def joiningSigns (t : Term) : List Char := if t.isPositive then ['+'] else ['-']

variable {t : Term}

theorem isBare_iff (hc : t.isConstant = false) : t.isBare ↔ t.coefficient.denominator = 1 ∧
    (t.coefficient.numerator = 1 ∨ t.coefficient.numerator = -1) := by
  simp only [isBare, hc, Fraction.isInteger, Bool.not_false, Bool.true_and, Bool.and_eq_true,
    decide_eq_true_eq]
  rcases t.coefficient.isStored with ⟨hn, hd⟩ | ⟨_, hd, _⟩ <;> omega

theorem removeBlanks_text (ht : t.name.IsAlphabetic) :
    removeBlanks t.text.toList = (t.form t.leadingSigns).chars := by
  rw [chars_form, text]
  split
  · next hc =>
    have hname : t.name.text.toList = [] := Name.toList_eq_nil_iff.2 hc
    have hbare : t.isBare = false := by simp [isBare, hc]
    rw [Fraction.removeBlanks_text, Fraction.toList_text]
    simp [hname, hbare, leadingSigns]
  · next hc =>
    have hbare := isBare_iff (Bool.eq_false_iff.2 hc)
    split
    · next h =>
      have hneg : t.coefficient.isNegative = false := by simp [Fraction.isNegative, h.2]
      simp [hbare.2 ⟨h.1, .inl h.2⟩, leadingSigns, hneg, ht.removeBlanks]
    split
    · next h =>
      have hneg : t.coefficient.isNegative = true := by simp [Fraction.isNegative, h.2]
      rw [String.toList_append, removeBlanks_append, ht.removeBlanks]
      simp [hbare.2 ⟨h.1, .inr h.2⟩, leadingSigns, hneg]
      rfl
    · next h1 h2 =>
      have hnot : t.isBare = false := by
        rw [Bool.eq_false_iff, Ne, hbare]
        rintro ⟨hd, hn | hn⟩
        · exact h1 ⟨hd, hn⟩
        · exact h2 ⟨hd, hn⟩
      change removeBlanks (t.coefficient.text ++ " " ++ t.name.text).toList = _
      rw [String.toList_append, String.toList_append, removeBlanks_append, removeBlanks_append,
        Fraction.removeBlanks_text, Fraction.toList_text, ht.removeBlanks, hnot,
        show removeBlanks " ".toList = [] from rfl]
      simp [leadingSigns]

theorem form_congr {u : Term} (signs : List Char)
    (hn : u.coefficient.numerator.natAbs = t.coefficient.numerator.natAbs)
    (hd : u.coefficient.denominator = t.coefficient.denominator) (hname : u.name = t.name) :
    u.form signs = t.form signs := by
  have hint : u.coefficient.isInteger = t.coefficient.isInteger := by
    rw [Fraction.isInteger, Fraction.isInteger, hd]
  have hbare : u.isBare = t.isBare := by
    rw [isBare, isBare, isConstant, isConstant, hint, hn, hname]
  rw [form, form, hbare, hint, hn, hd, hname]

/-- A later term is written with its sign set apart. -/
theorem exists_tailText (ht : t.name.IsAlphabetic) (ho : t.coefficient.HasOpposite) :
    ∃ s, t.tailText = .ok s ∧ removeBlanks s.toList = (t.form t.joiningSigns).chars := by
  rw [tailText]
  split
  · next hpos =>
    have hneg : t.coefficient.isNegative = false := by
      simp only [isPositive, Fraction.isPositive, Fraction.isNegative, decide_eq_true_eq,
        decide_eq_false_iff_not] at hpos ⊢
      omega
    refine ⟨_, rfl, ?_⟩
    rw [String.toList_append, removeBlanks_append, removeBlanks_text ht, chars_form, chars_form,
      show removeBlanks " + ".toList = ['+'] from rfl]
    simp [leadingSigns, joiningSigns, hneg, hpos]
  · next hpos =>
    obtain ⟨x, hx, _, _⟩ := Fraction.exists_neg ho
    obtain ⟨hn, hd⟩ := Fraction.parts_of_neg hx
    have hneg : x.isNegative = false := by
      simp only [isPositive, Fraction.isPositive, Fraction.isNegative, decide_eq_true_eq,
        decide_eq_false_iff_not] at hpos ⊢
      omega
    have hform : (t.withCoefficient x).form [] = t.form [] :=
      form_congr [] (by simp [withCoefficient, hn]) hd rfl
    refine ⟨" - " ++ (t.withCoefficient x).text, by rw [neg, hx]; rfl, ?_⟩
    rw [String.toList_append, removeBlanks_append, removeBlanks_text (by exact ht),
      show removeBlanks " - ".toList = ['-'] from rfl]
    have hsigns : (t.withCoefficient x).leadingSigns = [] := by
      simp [leadingSigns, withCoefficient, hneg]
    rw [hsigns, hform, chars_form, chars_form]
    simp [joiningSigns, hpos]

/-- The terms of a sum, each after its sign. -/
def sumForm : List Term → SideForm
  | [] => []
  | t :: ts => t.form t.leadingSigns :: ts.map fun u => u.form u.joiningSigns

theorem exists_join {ts : List Term} (hn : ∀ t ∈ ts, t.name.IsAlphabetic)
    (ho : ∀ t ∈ ts, t.coefficient.HasOpposite) :
    ∃ ss, ts.mapM tailText = .ok ss ∧ removeBlanks (String.join ss).toList =
      SideForm.chars (ts.map fun u => u.form u.joiningSigns) := by
  induction ts with
  | nil => exact ⟨[], rfl, rfl⟩
  | cons t ts ih =>
    obtain ⟨ht, hts⟩ := List.forall_mem_cons.1 hn
    obtain ⟨ht', hts'⟩ := List.forall_mem_cons.1 ho
    obtain ⟨s, hs, hchars⟩ := exists_tailText ht ht'
    obtain ⟨ss, hss, hrest⟩ := ih hts hts'
    refine ⟨s :: ss, by rw [List.mapM_cons, hs, ok_bind, hss]; rfl, ?_⟩
    rw [String.toList_join] at hrest ⊢
    rw [List.flatMap_cons, removeBlanks_append, hchars, hrest]
    rfl

theorem exists_sumText {ts : List Term} (hn : ∀ t ∈ ts, t.name.IsAlphabetic)
    (ho : ∀ t ∈ ts, t.coefficient.HasOpposite) :
    ∃ s, sumText ts = .ok s ∧ removeBlanks s.toList = (sumForm ts).chars := by
  cases ts with
  | nil => exact ⟨"", rfl, rfl⟩
  | cons t ts =>
    obtain ⟨ht, hts⟩ := List.forall_mem_cons.1 hn
    obtain ⟨ss, hss, hrest⟩ := exists_join hts (List.forall_mem_cons.1 ho).2
    refine ⟨t.text ++ String.join ss, by rw [sumText, hss]; rfl, ?_⟩
    rw [String.toList_append, removeBlanks_append, removeBlanks_text ht, hrest]
    rfl

theorem isSigns_leadingSigns (t : Term) : IsSigns t.leadingSigns := by
  rw [leadingSigns]
  split <;> simp [IsSigns]

theorem isSigns_joiningSigns (t : Term) : IsSigns t.joiningSigns := by
  rw [joiningSigns]
  split <;> simp [IsSigns]

end Term

theorem PartForm.isWellFormed_number {n : ℕ} (h : FitsWord n) :
    (number (digits n)).IsWellFormed := by
  refine ⟨?_, by simp [name?]⟩
  rintro _ ⟨⟩
  exact ⟨Nat.toDigits_ne_nil, fun _ => isDigit_of_mem_digits, by rwa [decimal_digits]⟩

theorem PartForm.isWellFormed_ofNumber {n : ℕ} {name : Name} (h : FitsWord n)
    (hn : name.IsAlphabetic) : (ofNumber n name).IsWellFormed := by
  rw [ofNumber]
  split
  · exact isWellFormed_number h
  · next hb =>
    refine ⟨(isWellFormed_number h).1, ?_⟩
    rintro _ ⟨⟩
    exact ⟨mt Name.toList_eq_nil_iff.1 hb, hn⟩

theorem PartForm.count_number (n : ℕ) : (number (digits n)).count = n := by
  simp [count, digits?, decimal_digits]

theorem PartForm.count_ofNumber (n : ℕ) (name : Name) : (ofNumber n name).count = n := by
  rw [ofNumber]
  split <;> simp [count, digits?, decimal_digits]

theorem PartForm.name?_ofNumber (n : ℕ) (name : Name) :
    ((ofNumber n name).name?).getD [] = name.text.toList := by
  rw [ofNumber]
  split
  · next h => exact (Name.toList_eq_nil_iff.2 h).symm
  · rfl

namespace Term

variable {t : Term} {signs : List Char}

theorem isWellFormed_form (hs : IsSigns signs) (ht : t.name.IsAlphabetic)
    (ho : t.coefficient.HasOpposite) : (t.form signs).IsWellFormed := by
  have hnum := t.coefficient.fitsWord_numerator
  have hupper : FitsWord (t.coefficient.numerator.natAbs : ℕ) := by
    unfold FitsWord Fraction.HasOpposite at *
    omega
  rw [form]
  split
  · next hb =>
    have hc : t.name.isBlank = false := by
      rw [isBare, Bool.and_eq_true, Bool.and_eq_true, Bool.not_eq_true'] at hb
      exact hb.1.1
    refine ⟨hs, ⟨by simp [PartForm.digits?], ?_⟩, by simp⟩
    rintro _ ⟨⟩
    exact ⟨fun h => by simp [Name.toList_eq_nil_iff.1 h] at hc, ht⟩
  split
  · exact ⟨hs, PartForm.isWellFormed_ofNumber hupper ht, by simp⟩
  · next hint =>
    have hden : t.coefficient.denominator ≠ 0 := by
      intro h0
      simp [Fraction.isInteger, h0] at hint
    refine ⟨hs, PartForm.isWellFormed_number hupper, ?_⟩
    rintro _ ⟨⟩
    refine ⟨by simp [IsSigns], PartForm.isWellFormed_ofNumber t.coefficient.fitsWord_denominator ht,
      .inl rfl, ?_, ?_⟩
    · intro _
      rw [PartForm.ofNumber]
      split <;> simp [PartForm.digits?]
    · rw [PartForm.count_ofNumber]
      exact fun h0 => absurd h0 hden

theorem signs_form (signs : List Char) (t : Term) : (t.form signs).signs = signs := by
  rw [form]
  split
  · rfl
  split <;> rfl

theorem name_form (signs : List Char) (t : Term) : (t.form signs).name = t.name := by
  rw [form]
  split
  · simp [TermForm.name, PartForm.name?]
  split
  · simp [TermForm.name, PartForm.name?_ofNumber]
  · simp [TermForm.name, show ∀ ds, (PartForm.number ds).name? = none from fun _ => rfl,
      PartForm.name?_ofNumber]

/-- A whole number is its numerator, and zero is stored as none. -/
theorem natAbs_div_of_isInteger {a : Fraction} (h : a.isInteger) :
    (a.numerator.natAbs / a.denominator : ℚ) = a.numerator.natAbs := by
  rw [Fraction.isInteger, decide_eq_true_iff] at h
  rcases a.isStored with ⟨hn, hd⟩ | ⟨_, hd, _⟩
  · simp [hn]
  · rw [show a.denominator = 1 by omega]
    simp

theorem value_form (signs : List Char) (t : Term) : (t.form signs).value =
    if negates signs then -|t.coefficient.value| else |t.coefficient.value| := by
  have habs : |t.coefficient.value| =
      (t.coefficient.numerator.natAbs / t.coefficient.denominator : ℚ) := by
    rw [Fraction.value_eq_div, abs_div, Nat.abs_cast, Nat.cast_natAbs, Int.cast_abs]
  rw [TermForm.value_eq, habs, form]
  split
  · next hb =>
    rw [isBare, Bool.and_eq_true, Bool.and_eq_true, decide_eq_true_iff] at hb
    rw [natAbs_div_of_isInteger hb.1.2, hb.2, TermForm.value_part]
    simp [PartForm.count, PartForm.digits?]
  split
  · next hint =>
    rw [natAbs_div_of_isInteger hint, TermForm.value_part, PartForm.count_ofNumber]
  · rw [TermForm.value_quotient, PartForm.count_number, PartForm.count_ofNumber]
    rfl

/-- Signs that agree with the coefficient's give the term back. -/
theorem monomial_form {signs : List Char} {t : Term} (h : if negates signs then
    t.coefficient.numerator ≤ 0 else 0 ≤ t.coefficient.numerator) :
    (t.form signs).monomial = t.monomial := by
  refine Prod.ext (name_form signs t) ((value_form signs t).trans ?_)
  split at h
  · next hs =>
    rw [if_pos hs, abs_of_nonpos (Fraction.value_nonpos h), neg_neg]
    rfl
  · next hs =>
    rw [if_neg hs, abs_of_nonneg (Fraction.value_nonneg h)]
    rfl

theorem monomial_leading (t : Term) : (t.form t.leadingSigns).monomial = t.monomial := by
  refine monomial_form ?_
  rw [leadingSigns, Fraction.isNegative]
  by_cases h : t.coefficient.numerator < 0
  · simpa [h, show negates ['-'] = true from rfl] using h.le
  · simpa [h, show negates [] = false from rfl] using not_lt.1 h

theorem monomial_joining (t : Term) : (t.form t.joiningSigns).monomial = t.monomial := by
  refine monomial_form ?_
  rw [joiningSigns, isPositive, Fraction.isPositive]
  by_cases h : 0 < t.coefficient.numerator
  · simpa [h, show negates ['+'] = false from rfl] using h.le
  · simpa [h, show negates ['-'] = true from rfl] using not_lt.1 h

theorem isWellFormed_sumForm {ts : List Term} (hn : ∀ t ∈ ts, t.name.IsAlphabetic)
    (ho : ∀ t ∈ ts, t.coefficient.HasOpposite) : (sumForm ts).IsWellFormed := by
  cases ts with
  | nil => simp [sumForm, SideForm.IsWellFormed]
  | cons t ts =>
    obtain ⟨ht, hts⟩ := List.forall_mem_cons.1 hn
    obtain ⟨ht', hts'⟩ := List.forall_mem_cons.1 ho
    refine ⟨List.forall_mem_cons.2 ⟨isWellFormed_form (isSigns_leadingSigns t) ht ht', ?_⟩, ?_⟩
    · rw [List.forall_mem_map]
      exact fun u hu => isWellFormed_form (isSigns_joiningSigns u) (hts u hu) (hts' u hu)
    · rw [sumForm, List.tail_cons, List.forall_mem_map]
      intro u _
      rw [signs_form, joiningSigns]
      split <;> simp

theorem monomials_sumForm (ts : List Term) :
    (sumForm ts).monomials false = ts.map Term.monomial := by
  cases ts with
  | nil => rfl
  | cons t ts =>
    have hrest : (ts.map fun u => u.form u.joiningSigns).map TermForm.monomial =
        ts.map Term.monomial := by
      rw [List.map_map]
      exact List.map_congr_left fun u _ => monomial_joining u
    change (sumForm (t :: ts)).map TermForm.monomial = _
    rw [sumForm, List.map_cons, monomial_leading, hrest, List.map_cons]

/-- The text without its blanks is that of the sum, and what stands in it can be read. -/
structure IsSumText (s : String) (ts : List Term) : Prop where
  isAlphabetic : ∀ t ∈ ts, t.name.IsAlphabetic
  hasOpposite : ∀ t ∈ ts, t.coefficient.HasOpposite
  removeBlanks : Text.removeBlanks s.toList = (sumForm ts).chars

theorem isSumText_text (ht : t.name.IsAlphabetic) (ho : t.coefficient.HasOpposite) :
    IsSumText t.text [t] := by
  refine ⟨by simpa using ht, by simpa using ho, ?_⟩
  simpa [sumForm, SideForm.chars] using removeBlanks_text ht

theorem isSumText_constant {x : Fraction} (h : x.HasOpposite) :
    IsSumText x.text [.constant x] := by
  have htext : (constant x).text = x.text := by
    rw [text, if_pos (show (constant x).isConstant by rfl)]
    rfl
  rw [← htext]
  exact isSumText_text (by simp [constant, Name.IsAlphabetic, Name.blank]) h

theorem isSumText_name {n : Name} (hb : n.isBlank = false) (hn : n.IsAlphabetic) :
    IsSumText n.text [⟨.one, n⟩] := by
  have htext : (Term.mk .one n).text = n.text := by
    rw [text, if_neg (by simp [isConstant, hb]), if_pos ⟨rfl, rfl⟩]
  rw [← htext]
  exact isSumText_text hn (show Fraction.one.HasOpposite by decide)

end Term
end ExactLinear
