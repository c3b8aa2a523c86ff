import ExactLinear.Proofs.Reading.Lexemes
import Mathlib.Data.List.Chain

/-! # Written forms split into their lexemes

Two runs of one kind never stand side by side in a well formed equation, so its characters split by
longest match into the lexemes that it consists of.
-/

namespace ExactLinear

/-- The second lexeme does not go on with the first. -/
def Lexeme.IsApart (l m : Lexeme) : Prop := l.kind.isRun → m.kind ≠ l.kind

/-- Lexemes that are valid and apart from their neighbours are the longest ones. -/
theorem splits_of_isChain {ls : List Lexeme} (hv : ∀ l ∈ ls, l.IsValid)
    (h : ls.IsChain Lexeme.IsApart) : Splits (ls.flatMap Lexeme.text) ls [] := by
  induction ls with
  | nil => exact .done
  | cons l ls ih =>
    obtain ⟨hl, hls⟩ := List.forall_mem_cons.1 hv
    rw [List.isChain_cons] at h
    rw [List.flatMap_cons]
    refine .next hl (fun m hm hp => ?_) (ih hls h.2)
    obtain ⟨c, ds, ht, hc, hds⟩ := TokenKind.matches_iff.1 hl
    have hstop : (ls.flatMap Lexeme.text).takeWhile l.kind.extendedBy = [] := by
      cases ls with
      | nil => rfl
      | cons k ls =>
        obtain ⟨d, es, hk, hd, _⟩ := TokenKind.matches_iff.1 (hls k (by simp))
        have hapart : l.kind.isRun → k.kind ≠ l.kind := h.1 k rfl
        have hnot : l.kind.extendedBy d = false := by
          cases hrun : l.kind.isRun with
          | false => exact TokenKind.extendedBy_eq_false hrun d
          | true => simpa [TokenKind.extendedBy, hrun, hd] using hapart hrun
        simp [hk, hnot]
    have hpre := (Lexeme.isPrefix_takeWhile hc hm (by simpa [ht] using hp)).2
    rw [List.takeWhile_append_of_pos hds, hstop, List.append_nil, ← ht] at hpre
    exact hpre.length_le

/-- A lexeme that is no run keeps its neighbours apart. -/
theorem isChain_append_cons {ls ls' : List Lexeme} {l : Lexeme} (h : ls.IsChain Lexeme.IsApart)
    (hl : l.kind.isRun = false) (h' : ls'.IsChain Lexeme.IsApart) :
    (ls ++ l :: ls').IsChain Lexeme.IsApart := by
  refine h.append (List.isChain_cons.2 ⟨fun m _ => ?_, h'⟩) fun k _ m hm => ?_
  · intro hrun
    simp [hl] at hrun
  · intro hrun heq
    cases hm
    rw [heq, hrun] at hl
    cases hl

theorem isRun_sign (c : Char) : (Lexeme.sign c).kind.isRun = false := by
  rw [Lexeme.sign]
  split <;> rfl

theorem isChain_signs (cs : List Char) {ls : List Lexeme} (h : ls.IsChain Lexeme.IsApart) :
    (cs.map Lexeme.sign ++ ls).IsChain Lexeme.IsApart := by
  induction cs with
  | nil => exact h
  | cons c cs ih => exact isChain_append_cons .nil (isRun_sign c) ih

theorem PartForm.isChain_lexemes (p : PartForm) : p.lexemes.IsChain Lexeme.IsApart := by
  cases p <;> simp [lexemes, Lexeme.IsApart]

theorem TermForm.isChain_lexemes (t : TermForm) : t.lexemes.IsChain Lexeme.IsApart := by
  rw [lexemes, List.append_assoc]
  refine isChain_signs _ ?_
  cases t.lower with
  | none => simpa using t.upper.isChain_lexemes
  | some q =>
    exact isChain_append_cons t.upper.isChain_lexemes rfl (isChain_signs _ q.2.isChain_lexemes)

theorem SideForm.isChain_lexemes {s : SideForm} (h : ∀ t ∈ s.tail, t.signs ≠ []) :
    s.lexemes.IsChain Lexeme.IsApart := by
  induction s with
  | nil => exact .nil
  | cons t s ih =>
    rw [lexemes, List.flatMap_cons, ← lexemes]
    cases s with
    | nil => simpa [lexemes] using t.isChain_lexemes
    | cons u s =>
      obtain ⟨hu, hs⟩ := List.forall_mem_cons.1 h
      have hchain := ih hs
      obtain ⟨_ | ⟨c, cs⟩, p, lower⟩ := u
      · exact absurd rfl hu
      · exact isChain_append_cons t.isChain_lexemes (isRun_sign c) hchain.tail

theorem EquationForm.isChain_lexemes {e : EquationForm} (h : e.IsWellFormed) :
    e.lexemes.IsChain Lexeme.IsApart := by
  have hleft := SideForm.isChain_lexemes h.1.2
  rw [lexemes]
  cases hr : e.right with
  | none => simpa using hleft
  | some s => exact isChain_append_cons hleft rfl (SideForm.isChain_lexemes (h.2 s hr).2)

theorem isValid_sign {c : Char} (h : c = '+' ∨ c = '-') : (Lexeme.sign c).IsValid := by
  rcases h with rfl | rfl <;> rfl

/-- The digits and the name are lexemes, and the number has a word. -/
theorem PartForm.isWellFormed_iff {p : PartForm} :
    p.IsWellFormed ↔ (∀ l ∈ p.lexemes, l.IsValid) ∧ ∀ ds ∈ p.digits?, FitsWord (decimal ds) := by
  cases p <;>
    simp [IsWellFormed, lexemes, digits?, name?, Lexeme.IsValid, TokenKind.Matches] <;> tauto

theorem isValid_signs {cs : List Char} (h : IsSigns cs) :
    ∀ l ∈ cs.map Lexeme.sign, l.IsValid := by
  simpa [List.forall_mem_map] using fun c hc => isValid_sign (h c hc)

theorem TermForm.IsWellFormed.isValid {t : TermForm} (h : t.IsWellFormed) :
    ∀ l ∈ t.lexemes, l.IsValid := by
  obtain ⟨hs, hu, hl⟩ := h
  rw [lexemes, List.forall_mem_append, List.forall_mem_append]
  refine ⟨⟨isValid_signs hs, (PartForm.isWellFormed_iff.1 hu).1⟩, ?_⟩
  cases hr : t.lower with
  | none => simp
  | some q =>
    obtain ⟨hsigns, hq, _⟩ := hl q hr
    refine List.forall_mem_cons.2 ⟨rfl, ?_⟩
    exact List.forall_mem_append.2 ⟨isValid_signs hsigns, (PartForm.isWellFormed_iff.1 hq).1⟩

theorem SideForm.IsWellFormed.isValid {s : SideForm} (h : s.IsWellFormed) :
    ∀ l ∈ s.lexemes, l.IsValid := by
  intro l hl
  obtain ⟨t, ht, hl⟩ := List.mem_flatMap.1 hl
  exact (h.1 t ht).isValid l hl

theorem EquationForm.IsWellFormed.isValid {e : EquationForm} (h : e.IsWellFormed) :
    ∀ l ∈ e.lexemes, l.IsValid := by
  rw [lexemes, List.forall_mem_append]
  refine ⟨h.1.isValid, ?_⟩
  cases hr : e.right with
  | none => simp
  | some s => exact List.forall_mem_cons.2 ⟨rfl, (h.2 s hr).isValid⟩

theorem flatMap_signs (cs : List Char) : (cs.map Lexeme.sign).flatMap Lexeme.text = cs := by
  induction cs with
  | nil => rfl
  | cons c cs ih => simpa [Lexeme.sign] using ih

theorem PartForm.flatMap_lexemes (p : PartForm) : p.lexemes.flatMap Lexeme.text = p.chars := by
  cases p <;> simp [lexemes, chars]

theorem TermForm.flatMap_lexemes (t : TermForm) : t.lexemes.flatMap Lexeme.text = t.chars := by
  rw [lexemes, chars, List.flatMap_append, List.flatMap_append, flatMap_signs,
    PartForm.flatMap_lexemes]
  cases t.lower with
  | none => rfl
  | some q =>
    simp only [List.cons_append, List.flatMap_cons, List.flatMap_append, flatMap_signs,
      PartForm.flatMap_lexemes]
    rfl

theorem SideForm.flatMap_lexemes (s : SideForm) : s.lexemes.flatMap Lexeme.text = s.chars := by
  rw [lexemes, chars, List.flatMap_assoc]
  exact List.flatMap_congr fun t _ => t.flatMap_lexemes

theorem EquationForm.flatMap_lexemes (e : EquationForm) :
    e.lexemes.flatMap Lexeme.text = e.chars := by
  rw [lexemes, chars, List.flatMap_append, SideForm.flatMap_lexemes]
  cases e.right with
  | none => rfl
  | some s =>
    rw [List.flatMap_cons, SideForm.flatMap_lexemes]
    rfl

/-- The characters of an equation split into its lexemes. -/
theorem EquationForm.IsWellFormed.splits {e : EquationForm} (h : e.IsWellFormed) :
    Splits e.chars e.lexemes [] := by
  rw [← flatMap_lexemes]
  exact splits_of_isChain h.isValid (isChain_lexemes h)

end ExactLinear
