import ExactLinear.Elimination.Replay
import ExactLinear.Elimination.Trace
import ExactLinear.Proofs.Policy.Listing
import ExactLinear.Proofs.Reading.Printing

/-! # Entries of a trace as instructions

The texts in an entry can be read back: digits, fractions, names and steps have different texts
unless they are the same. Events with the same entry are therefore the same instruction, whatever
they show.
-/

namespace ExactLinear

theorem append_inj_of_stops {p : Char → Bool} {cs ds xs ys : List Char} (hc : ∀ c ∈ cs, p c)
    (hd : ∀ c ∈ ds, p c) (hx : ∀ c ∈ xs.head?, p c = false) (hy : ∀ c ∈ ys.head?, p c = false)
    (h : cs ++ xs = ds ++ ys) : cs = ds ∧ xs = ys := by
  have hstop {zs : List Char} (hz : ∀ c ∈ zs.head?, p c = false) : zs.takeWhile p = [] := by
    cases zs with
    | nil => rfl
    | cons z zs => simp [hz z rfl]
  have htake := congrArg (List.takeWhile p) h
  rw [List.takeWhile_append_of_pos hc, List.takeWhile_append_of_pos hd, hstop hx, hstop hy,
    List.append_nil, List.append_nil] at htake
  subst htake
  exact ⟨rfl, List.append_cancel_left h⟩

theorem digits_injective : Function.Injective digits := by
  intro m n h
  rw [← decimal_digits m, h, decimal_digits]

theorem toString_nat_injective : Function.Injective (toString : ℕ → String) := by
  intro m n h
  apply digits_injective
  simpa using congrArg String.toList h

namespace Fraction

theorem isNegative_iff_head? (a : Fraction) : a.isNegative ↔ a.text.toList.head? = some '-' := by
  rw [toList_text]
  cases hs : a.isNegative with
  | true => simp
  | false =>
    cases hd : digits a.numerator.natAbs with
    | nil => simp [digits] at hd
    | cons c cs =>
      have hc : c.isDigit := isDigit_of_mem_digits (n := a.numerator.natAbs) (by simp [hd])
      have hne : c ≠ '-' := by
        rintro rfl
        exact absurd hc (by decide)
      simp [hne]

theorem text_injective : Function.Injective text := by
  intro a b h
  have hl := congrArg String.toList h
  have hs : a.isNegative = b.isNegative := by
    rw [Bool.eq_iff_iff, isNegative_iff_head?, isNegative_iff_head?, hl]
  rw [toList_text, toList_text, hs, List.append_assoc, List.append_assoc] at hl
  have hslash (x : Fraction) :
      ∀ c ∈ (if x.isInteger then [] else '/' :: digits x.denominator).head?, c.isDigit = false := by
    split <;> simp
  obtain ⟨hn, hd⟩ := append_inj_of_stops (p := Char.isDigit) (fun _ => isDigit_of_mem_digits)
    (fun _ => isDigit_of_mem_digits) (hslash a) (hslash b) (List.append_cancel_left hl)
  have hnum : a.numerator = b.numerator := by
    have habs := digits_injective hn
    simp only [isNegative, decide_eq_decide] at hs
    omega
  have hden : a.denominator = b.denominator := by
    have ha := a.isStored
    have hb := b.isStored
    unfold IsStored at ha hb
    split at hd <;> split at hd
    · simp only [isInteger, decide_eq_true_eq] at *
      omega
    · cases hd
    · cases hd
    · exact digits_injective (List.cons.inj hd).2
  cases a
  cases b
  simp_all

theorem ne_blank_of_mem_text {a : Fraction} {c : Char} (h : c ∈ a.text.toList) : c ≠ ' ' := by
  rintro rfl
  rw [← removeBlanks_text] at h
  exact absurd (List.mem_filter.1 h).2 (by decide)

end Fraction

namespace Reduction

theorem toList_text (r : Reduction) : r.text.toList = r.coefficient.text.toList ++
    (" * p_\x7b".toList ++ (digits r.source ++ ("\x7d + p_\x7b".toList ++
      (digits r.destination ++ ['\x7d'])))) := by
  change (toString r.coefficient ++ " * p_\x7b" ++ toString r.source ++ "\x7d + p_\x7b" ++
    toString r.destination ++ "\x7d").toList = _
  simp [String.toList_append]
  rfl

theorem text_injective : Function.Injective text := by
  intro r s h
  have hl := congrArg String.toList h
  rw [toList_text, toList_text] at hl
  obtain ⟨hc, hl⟩ := append_inj_of_stops (p := (· ≠ ' '))
    (fun _ hc => by simpa using Fraction.ne_blank_of_mem_text hc)
    (fun _ hc => by simpa using Fraction.ne_blank_of_mem_text hc) (by simp) (by simp) hl
  obtain ⟨hs, hl⟩ := append_inj_of_stops (p := Char.isDigit) (fun _ => isDigit_of_mem_digits)
    (fun _ => isDigit_of_mem_digits) (by simp) (by simp) (List.append_cancel_left hl)
  obtain ⟨hd, _⟩ := append_inj_of_stops (p := Char.isDigit) (fun _ => isDigit_of_mem_digits)
    (fun _ => isDigit_of_mem_digits) (by simp) (by simp) (List.append_cancel_left hl)
  have hcoefficient := Fraction.text_injective (String.ext hc)
  have hsource := digits_injective hs
  have hdestination := digits_injective hd
  cases r
  cases s
  simp_all

end Reduction

namespace Event

variable {event event' : Event} {t : TraceEntry} {log log' : List Event} {trace : List TraceEntry}

theorem exists_of_entry_substituted (h : event.entry = .ok t) (hm : t.message = "substituted") :
    ∃ n x j e s, event = .substituted n x j e ∧ e.text = .ok s ∧ t.fields =
      [("variable", n.text), ("value", x.text), ("row", toString j), ("equation", s)] := by
  cases event with
  | substituted n x j e =>
    obtain ⟨s, hs, h⟩ := bind_eq_ok.1 h
    cases h
    exact ⟨n, x, j, e, s, rfl, hs, rfl⟩
  | conflict n x y => cases h; simp at hm
  | settled rounds => cases h; simp at hm
  | reduced step n e =>
    obtain ⟨s, hs, h⟩ := bind_eq_ok.1 h
    cases h
    simp at hm

theorem exists_of_entry_reduced (h : event.entry = .ok t) (hm : t.message = "reduced") :
    ∃ step n e s, event = .reduced step n e ∧ e.text = .ok s ∧ t.fields =
      [("step", step.text), ("variable", n.text), ("result", s)] := by
  cases event with
  | reduced step n e =>
    obtain ⟨s, hs, h⟩ := bind_eq_ok.1 h
    cases h
    exact ⟨step, n, e, s, rfl, hs, rfl⟩
  | conflict n x y => cases h; simp at hm
  | settled rounds => cases h; simp at hm
  | substituted n x j e =>
    obtain ⟨s, hs, h⟩ := bind_eq_ok.1 h
    cases h
    simp at hm

theorem replay_of_message_ne (h : event.entry = .ok t) (hs : t.message ≠ "substituted")
    (hr : t.message ≠ "reduced") (rows : List Equation) : event.replay rows = .ok rows := by
  cases event with
  | conflict n x y => rfl
  | settled rounds => rfl
  | substituted n x j e =>
    obtain ⟨s, _, h⟩ := bind_eq_ok.1 h
    cases h
    exact absurd rfl hs
  | reduced step n e =>
    obtain ⟨s, _, h⟩ := bind_eq_ok.1 h
    cases h
    exact absurd rfl hr

/-- Events with the same entry are the same instruction. -/
theorem replay_eq_of_entry (h : event.entry = .ok t) (h' : event'.entry = .ok t)
    (rows : List Equation) : event.replay rows = event'.replay rows := by
  by_cases hs : t.message = "substituted"
  · obtain ⟨n, x, j, e, s, rfl, _, hf⟩ := exists_of_entry_substituted h hs
    obtain ⟨n', x', j', e', s', rfl, _, hf'⟩ := exists_of_entry_substituted h' hs
    simp only [hf, List.cons.injEq, Prod.mk.injEq, true_and] at hf'
    obtain ⟨hn, hx, hj, _⟩ := hf'
    rw [replay, replay, Name.text_injective hn, Fraction.text_injective hx,
      toString_nat_injective hj]
  by_cases hr : t.message = "reduced"
  · obtain ⟨step, n, e, s, rfl, _, hf⟩ := exists_of_entry_reduced h hr
    obtain ⟨step', n', e', s', rfl, _, hf'⟩ := exists_of_entry_reduced h' hr
    simp only [hf, List.cons.injEq, Prod.mk.injEq, true_and] at hf'
    rw [replay, replay, Reduction.text_injective hf'.1]
  · rw [replay_of_message_ne h hs hr, replay_of_message_ne h' hs hr]

/-- Logs with the same trace rebuild the same rows. -/
theorem replayAll_eq_of_trace (h : log.mapM Event.entry = .ok trace)
    (h' : log'.mapM Event.entry = .ok trace) (rows : List Equation) :
    replayAll log rows = replayAll log' rows := by
  have hlog := forall₂_of_mapM h
  have hlog' := forall₂_of_mapM h'
  clear h h'
  induction hlog generalizing log' rows with
  | nil => cases hlog'; rfl
  | cons he _ ih =>
    cases hlog' with
    | cons he' hrest' =>
      rw [replayAll, replayAll, List.foldlM_cons, List.foldlM_cons, replay_eq_of_entry he he']
      congr 1
      ext rows
      exact ih rows hrest'

end Event
end ExactLinear
