import ExactLinear.Equation.Lexemes
import ExactLinear.Proofs.Text.Classes
import Mathlib.Data.List.TakeWhile

/-! # Tokens are longest matches

The tokens of a text are the only way to split it by longest match, up to the first character that
starts none.
-/

namespace ExactLinear

namespace TokenKind

theorem extendedBy_eq_false {k : TokenKind} (hk : k.isRun = false) (c : Char) :
    k.extendedBy c = false := by
  rw [extendedBy, hk, Bool.false_and]

/-- A text of a kind starts with a character of the kind, and the other characters go on with it. -/
theorem matches_iff {k : TokenKind} {cs : List Char} :
    k.Matches cs ↔ ∃ c ds, cs = c :: ds ∧ ofChar? c = some k ∧ ∀ d ∈ ds, k.extendedBy d := by
  have hsingle {m : Char} (hm : ∀ c, ofChar? c = some k ↔ c = m) (hk : k.isRun = false) :
      cs = [m] ↔ ∃ c ds, cs = c :: ds ∧ ofChar? c = some k ∧ ∀ d ∈ ds, k.extendedBy d := by
    simp only [hm, extendedBy_eq_false hk]
    constructor
    · rintro rfl
      exact ⟨m, [], by simp⟩
    · rintro ⟨c, ds, rfl, rfl, h⟩
      rw [List.eq_nil_iff_forall_not_mem.2 fun d hd => Bool.false_ne_true (h d hd)]
  cases k with
  | number => cases cs <;> simp [Matches, extendedBy, isRun, ofChar?_eq_number]
  | name => cases cs <;> simp [Matches, extendedBy, isRun, ofChar?_eq_name]
  | plus => exact hsingle (by grind [ofChar?]) rfl
  | minus => exact hsingle (by grind [ofChar?]) rfl
  | slash => exact hsingle (by grind [ofChar?]) rfl
  | equals => exact hsingle (by grind [ofChar?]) rfl

end TokenKind

section

variable {c : Char} {k : TokenKind}

theorem Lexeme.isValid_takeWhile (h : TokenKind.ofChar? c = some k) (cs : List Char) :
    IsValid ⟨k, c :: cs.takeWhile k.extendedBy⟩ :=
  TokenKind.matches_iff.2 ⟨c, _, rfl, h, fun _ hd => List.mem_takeWhile_imp hd⟩

theorem Lexeme.isPrefix_takeWhile (h : TokenKind.ofChar? c = some k) {cs : List Char} {l : Lexeme}
    (hl : l.IsValid)
    (hp : l.text <+: c :: cs) : l.kind = k ∧ l.text <+: c :: cs.takeWhile k.extendedBy := by
  obtain ⟨d, ds, ht, hd, hds⟩ := TokenKind.matches_iff.1 hl
  rw [ht, List.cons_prefix_cons] at hp
  obtain ⟨rfl, es, rfl⟩ := hp
  have hk : l.kind = k := Option.some.inj (hd.symm.trans h)
  refine ⟨hk, ?_⟩
  rw [ht, ← hk, List.takeWhile_append_of_pos hds, List.cons_prefix_cons]
  exact ⟨rfl, List.prefix_append _ _⟩

theorem tokenize_of_none (h : TokenKind.ofChar? c = none) (start : ℕ) (cs : List Char) :
    tokenize start (c :: cs) = ([], .stray c start) := by
  rw [tokenize, h]

theorem tokenize_of_some (h : TokenKind.ofChar? c = some k) (start : ℕ) (cs : List Char) :
    ∃ stop, tokenize start (c :: cs) =
      (⟨k, c :: cs.takeWhile k.extendedBy, ⟨start, stop⟩⟩ ::
        (tokenize stop (cs.dropWhile k.extendedBy)).1,
        (tokenize stop (cs.dropWhile k.extendedBy)).2) := by
  rw [tokenize, h]
  exact ⟨_, rfl⟩

end

/-- The tokens split the text, which is used up unless a character starts no token. -/
theorem splits_tokenize (start : ℕ) (cs : List Char) :
    ∃ rest, Splits cs ((tokenize start cs).1.map Token.lexeme) rest ∧
      ((∃ stop, (tokenize start cs).2 = .ofText stop) → rest = []) := by
  induction hk : cs.length using Nat.strong_induction_on generalizing cs start with
  | _ n ih =>
    cases cs with
    | nil => exact ⟨[], by rw [tokenize]; exact .done, fun _ => rfl⟩
    | cons c cs =>
      cases hc : TokenKind.ofChar? c with
      | none =>
        rw [tokenize_of_none hc]
        exact ⟨c :: cs, .done, by simp⟩
      | some k =>
        obtain ⟨stop, ht⟩ := tokenize_of_some hc start cs
        have hlt := length_dropWhile_le k.extendedBy cs
        rw [List.length_cons] at hk
        obtain ⟨rest, hs, hrest⟩ := ih _ (by omega) stop (cs.dropWhile k.extendedBy) rfl
        refine ⟨rest, ?_, by rwa [ht]⟩
        rw [ht, List.map_cons]
        have hsplit : c :: cs = c :: cs.takeWhile k.extendedBy ++ cs.dropWhile k.extendedBy := by
          rw [List.cons_append, List.takeWhile_append_dropWhile]
        rw [hsplit]
        refine .next (Lexeme.isValid_takeWhile hc cs) (fun m hm hp => ?_) hs
        exact (Lexeme.isPrefix_takeWhile hc hm (hsplit ▸ hp)).2.length_le

/-- Any split by longest match starts with the same tokens. -/
theorem tokenize_of_splits {cs rest : List Char} {ls : List Lexeme} (h : Splits cs ls rest)
    (start : ℕ) : ∃ next, (tokenize start cs).1.map Token.lexeme =
      ls ++ (tokenize next rest).1.map Token.lexeme ∧
        (tokenize start cs).2 = (tokenize next rest).2 := by
  induction h generalizing start with
  | done => exact ⟨start, rfl, rfl⟩
  | @next l cs rest ls valid longest _ ih =>
    obtain ⟨c, ds, ht, hc, hds⟩ := TokenKind.matches_iff.1 valid
    have htext : l.text ++ cs = c :: (ds ++ cs) := by rw [ht, List.cons_append]
    have htake : (ds ++ cs).takeWhile l.kind.extendedBy = ds ++ cs.takeWhile l.kind.extendedBy :=
      List.takeWhile_append_of_pos hds
    -- A character that went on with the lexeme would make a longer one.
    have hnil : cs.takeWhile l.kind.extendedBy = [] := by
      have hle := longest _ (Lexeme.isValid_takeWhile hc (ds ++ cs)) (by
        rw [htext]
        exact (List.prefix_cons_inj c).2 (List.takeWhile_prefix _))
      rw [htake, ht, List.length_cons, List.length_cons, List.length_append] at hle
      exact List.length_eq_zero_iff.1 (by omega)
    have hdrop : (ds ++ cs).dropWhile l.kind.extendedBy = cs := by
      have hsplit := List.takeWhile_append_dropWhile (p := l.kind.extendedBy) (l := ds ++ cs)
      rw [htake, hnil, List.append_nil] at hsplit
      exact List.append_cancel_left hsplit
    obtain ⟨stop, htok⟩ := tokenize_of_some hc start (ds ++ cs)
    rw [hdrop, htake, hnil, List.append_nil, ← ht] at htok
    obtain ⟨next, hmap, hlast⟩ := ih stop
    rw [htext, htok]
    exact ⟨next, by simp [hmap, Token.lexeme], hlast⟩

namespace Splits

variable {cs rest : List Char} {ls ls' : List Lexeme}

theorem of_append (h : Splits cs (ls ++ ls') rest) :
    ∃ middle, Splits cs ls middle ∧ Splits middle ls' rest := by
  induction ls generalizing cs with
  | nil => exact ⟨cs, .done, h⟩
  | cons l ls ih =>
    cases h with
    | next valid longest h =>
      obtain ⟨middle, h, h'⟩ := ih h
      exact ⟨middle, .next valid longest h, h'⟩

theorem isValid (h : Splits cs ls rest) : ∀ l ∈ ls, l.IsValid := by
  induction h with
  | done => simp
  | next valid _ _ ih => simpa using ⟨valid, ih⟩

end Splits
end ExactLinear
