import ExactLinear.Proofs.Equation.Solution
import ExactLinear.Proofs.Fraction.Quotients

/-! # Failures of the arithmetic

On canonical equations the operations fail by overflow only. A coefficient other than zero stays so
under every multiplication, and no divisor is zero.
-/

namespace ExactLinear

/-- Every error of the computation has the property. -/
def FailsOnly {ε α : Type} (P : ε → Prop) (x : Except ε α) : Prop := ∀ e, x = .error e → P e

namespace FailsOnly

variable {ε α β : Type} {P : ε → Prop}

theorem ok (a : α) : FailsOnly P (.ok a : Except ε α) := by
  intro e h
  cases h

theorem error {e : ε} (h : P e) : FailsOnly P (.error e : Except ε α) := by
  intro e' he
  cases he
  exact h

theorem bind {x : Except ε α} {f : α → Except ε β} (hx : FailsOnly P x)
    (hf : ∀ a, x = .ok a → FailsOnly P (f a)) : FailsOnly P (x >>= f) := by
  intro e h
  rcases bind_eq_error.1 h with h | ⟨a, ha, h⟩
  · exact hx e h
  · exact hf a ha e h

theorem map {x : Except ε α} {f : α → β} (hx : FailsOnly P x) : FailsOnly P (f <$> x) := by
  intro e h
  exact hx e (map_eq_error.1 h)

theorem mapM {f : α → Except ε β} {xs : List α} (h : ∀ x ∈ xs, FailsOnly P (f x)) :
    FailsOnly P (xs.mapM f) := by
  induction xs with
  | nil => exact ok []
  | cons x xs ih =>
    obtain ⟨hx, hs⟩ := List.forall_mem_cons.1 h
    rw [List.mapM_cons]
    exact bind hx fun y _ => bind (ih hs) fun ys _ => ok (y :: ys)

theorem foldlM {I : β → Prop} {f : β → α → Except ε β} {xs : List α} {b : β} (hb : I b)
    (h : ∀ b, I b → ∀ x ∈ xs, FailsOnly P (f b x) ∧ ∀ c, f b x = .ok c → I c) :
    FailsOnly P (xs.foldlM f b) := by
  induction xs generalizing b with
  | nil => exact ok b
  | cons x xs ih =>
    rw [List.foldlM_cons]
    obtain ⟨hx, hinv⟩ := h b hb x (by simp)
    exact bind hx fun c hc => ih (hinv c hc) fun d hd y hy => h d hd y (by simp [hy])

end FailsOnly

/-- Where a division by zero is what would be reported, a fatal fault is an overflow. -/
theorem Fault.isOverflow_of_isFatal {f : Fault} {p : Prop} (hf : p → f.isFatal)
    (hz : p → f = .divisionByZero) (h : ¬p → f.IsOverflow) : f.IsOverflow := by
  by_cases hp : p
  · have hfatal := hf hp
    rw [hz hp] at hfatal
    cases hfatal
  · exact h hp

/-- A quotient by zero is zero or a division by zero. -/
theorem Fraction.eq_of_div_zero {a : Fraction} {f : Fault} (h : a.div zero = .error f) :
    f = .divisionByZero := by
  rw [div_zero] at h
  split at h
  · cases h
  · cases h; rfl

/-- An operation on fractions fails with the fault. The division by zero that is reported for the
divisor zero does not count. -/
inductive Fraction.FailsWith : Fault → Prop
  | add {a b : Fraction} {f : Fault} (h : a.add b = .error f) : FailsWith f
  | sub {a b : Fraction} {f : Fault} (h : a.sub b = .error f) : FailsWith f
  | mul {a b : Fraction} {f : Fault} (h : a.mul b = .error f) : FailsWith f
  | neg {a : Fraction} {f : Fault} (h : a.neg = .error f) : FailsWith f
  | abs {a : Fraction} {f : Fault} (h : a.abs = .error f) : FailsWith f
  | recip {a : Fraction} {f : Fault} (h : a.recip? = .error f) : FailsWith f
  | div {a b : Fraction} {f : Fault} (hb : b = zero → f.isFatal) (h : a.div b = .error f) :
    FailsWith f
  | ofParts {n d : ℤ} {f : Fault} (hn : FitsWord n) (hd : FitsWord d) (h0 : d = 0 → f.isFatal)
      (h : ofParts n d = .error f) : FailsWith f

theorem Fraction.FailsWith.isOverflow {f : Fault} (h : FailsWith f) : f.IsOverflow := by
  cases h with
  | add h => exact isOverflow_add h
  | sub h =>
    rcases bind_eq_error.1 h with h | ⟨_, _, h⟩
    · exact isOverflow_neg h
    · exact isOverflow_add h
  | mul h => exact isOverflow_mul h
  | neg h => exact isOverflow_neg h
  | abs h =>
    rw [Fraction.abs] at h
    split at h
    · exact isOverflow_neg h
    · cases h
  | recip h => exact isOverflow_recip? h
  | div hb h =>
    refine Fault.isOverflow_of_isFatal hb (fun h0 => ?_) fun h0 => isOverflow_div h0 h
    subst h0
    exact eq_of_div_zero h
  | ofParts hn hd h0 h =>
    have hcases := isOverflow_ofParts hn hd h
    refine hcases.elim id fun hz => ?_
    exact Fault.isOverflow_of_isFatal h0 (fun _ => hz.2) fun hne => absurd hz.1 hne

namespace Equation

abbrev Overflows {α : Type} (x : Except Fault α) : Prop := FailsOnly Fault.IsOverflow x

theorem overflows_merge? (t : Term) (ts : List Term) : Overflows (merge? t ts) := by
  induction ts with
  | nil => exact .ok none
  | cons u us ih =>
    rw [merge?]
    split
    · exact .bind (fun _ => Fraction.isOverflow_add) fun _ _ => .ok _
    · exact .bind ih fun _ _ => .ok _

theorem overflows_addTerm (e : Equation) (t : Term) : Overflows (e.addTerm t) := by
  rw [addTerm]
  split
  · exact .ok e
  · refine .bind (overflows_merge? t e.terms) fun m _ => ?_
    split <;> exact .ok _

theorem overflows_addTerms (e : Equation) (ts : List Term) : Overflows (e.addTerms ts) :=
  .foldlM (I := fun _ => True) trivial fun d _ t _ => ⟨overflows_addTerm d t, fun _ _ => trivial⟩

theorem overflows_scaleTerm (t : Term) (x : Fraction) : Overflows (t.scale x) :=
  .map fun _ => Fraction.isOverflow_mul

/-- The product of coefficients other than zero is not zero. -/
theorem overflows_multiply {e : Equation} (he : ∀ t ∈ e.terms, t.coefficient ≠ .zero) {x : Fraction}
    (hx : x ≠ .zero) : Overflows (e.multiply x) := by
  refine .bind (.mapM fun t ht => .bind (overflows_scaleTerm t x) fun u hu => ?_) fun _ _ => .ok _
  split
  · next hz =>
    obtain ⟨y, hy, rfl⟩ := map_eq_ok.1 hu
    have hv := Fraction.value_mul hy
    have hz' : y = .zero := Fraction.isZero_iff.1 hz
    rw [hz', Fraction.value_zero] at hv
    have h0 := mul_ne_zero (Fraction.value_ne_zero (he t ht)) (Fraction.value_ne_zero hx)
    exact absurd hv.symm h0
  · exact .ok u

theorem scale_zero (e : Equation) : e.scale .zero = .error .divisionByZero := rfl

theorem unscale_zero (e : Equation) : e.unscale .zero = .error .divisionByZero := rfl

theorem overflows_scale {e : Equation} (he : e.IsCanonical) {x : Fraction} (hx : x ≠ .zero) :
    Overflows (e.scale x) := by
  rw [scale, if_neg (mt Fraction.isZero_iff.1 hx)]
  exact overflows_multiply he.nonzero hx

theorem overflows_unscale {e : Equation} (he : e.IsCanonical) {x : Fraction} (hx : x ≠ .zero) :
    Overflows (e.unscale x) := by
  refine .bind (fun _ => Fraction.isOverflow_recip?) fun r? hr => ?_
  cases r? with
  | none => exact absurd (Fraction.recip?_eq_none_iff.1 hr) hx
  | some r =>
    apply overflows_multiply he.nonzero
    rintro rfl
    have hv := (Fraction.value_recip? hr).2
    rw [Fraction.value_zero] at hv
    exact inv_ne_zero (Fraction.value_ne_zero hx) hv.symm

/-- Only the common divisor of numerators `-2^63` leaves the words. -/
theorem overflows_word_gcd {g n : ℤ} (hg : FitsWord g) (hn : FitsWord n) :
    Overflows (word (Int.gcd g n)) := by
  rw [word]
  split
  · exact .ok _
  · next hw =>
    have hle : Int.gcd g n ≤ 2 ^ 63 := by
      by_cases h0 : g = 0
      · rw [h0, Int.zero_gcd]
        exact hn.natAbs_le
      · exact (Nat.gcd_le_left _ (Int.natAbs_pos.2 h0)).trans hg.natAbs_le
    have heq : Int.gcd g n = 9223372036854775808 := by
      unfold FitsWord at hw
      omega
    rw [heq]
    exact .error .divisor

theorem overflows_gcdOf {ns : List ℤ} (h : ∀ n ∈ ns, FitsWord n) : Overflows (gcdOf ns) := by
  refine .foldlM (I := FitsWord) (by decide) fun g hg n hn => ⟨overflows_word_gcd hg (h n hn), ?_⟩
  intro c hc
  rw [word] at hc
  split at hc
  · next hw => cases hc; exact hw
  · cases hc

/-- There is a coefficient to divide by if there are terms, and the factor is not zero. -/
theorem overflows_simplify {e : Equation} (he : ∀ t ∈ e.terms, t.coefficient ≠ .zero) :
    Overflows e.simplify := by
  rw [simplify]
  split
  · exact .ok e
  · next hne =>
    obtain ⟨t, ts, hts⟩ := List.exists_cons_of_ne_nil (mt List.isEmpty_iff.2 hne)
    have ht : t ∈ e.terms := by simp [hts]
    obtain ⟨hn0, hd0, _⟩ := Fraction.stored_of_ne_zero (he t ht)
    refine .bind (overflows_gcdOf ?_) fun n hn => .bind (overflows_gcdOf ?_) fun d hd => ?_
    · exact List.forall_mem_map.2 fun u _ => u.coefficient.fitsWord_numerator
    · exact List.forall_mem_map.2 fun u _ => u.coefficient.fitsWord_denominator
    have hn' : n ≠ 0 := gcdOf_ne_zero hn (List.mem_map_of_mem ht) hn0
    have hd' : d ≠ 0 := gcdOf_ne_zero hd (List.mem_map_of_mem ht) (Int.natCast_ne_zero.2 hd0)
    have hfd := fitsWord_of_gcdOf hd
    have hfn := fitsWord_of_gcdOf hn
    have hparts : Overflows (Fraction.ofParts d n) := fun f hf =>
      (Fraction.isOverflow_ofParts hfd hfn hf).resolve_right fun hz => hn' hz.1
    split
    · next x hx =>
      split
      · exact .ok e
      · apply overflows_multiply he
        rintro rfl
        rw [Fraction.ofParts_eq_ofRat hfd hfn hn', Fraction.ofRat_eq_ok_iff,
          Fraction.value_zero] at hx
        have hq := div_ne_zero (Int.cast_ne_zero.2 hd') (Int.cast_ne_zero.2 hn' : (n : ℚ) ≠ 0)
        exact hq hx.symm
    · next hx => cases hparts _ hx
    · next f _ hx => exact .error (hparts f hx)

theorem overflows_substitute? {e : Equation} (he : ∀ t ∈ e.terms, t.coefficient ≠ .zero) (n : Name)
    (x : Fraction) : Overflows (e.substitute? n x) := by
  rw [substitute?]
  split
  · exact .ok none
  · next t ts ht =>
    obtain ⟨left, right, hts, rfl, _⟩ := takeOut?_eq_some ht
    have hrest : ∀ u ∈ left ++ right, u.coefficient ≠ .zero := by
      intro u hu
      apply he u
      rw [hts]
      exact ((List.Sublist.refl left).append (List.sublist_cons_self t right)).subset hu
    refine .bind (fun _ => Fraction.isOverflow_mul) fun y _ => ?_
    refine .bind (overflows_addTerm _ _) fun s hs => ?_
    exact .bind (overflows_simplify ((addition_of_addTerm hs).2.nonzero hrest)) fun r _ => .ok _

/-- Asked only when there is no contradiction, the direct solution does not meet one. -/
theorem overflows_solution? {e : Equation} (he : e.IsCanonical) (hc : e.isContradiction = false) :
    Overflows e.solution? := by
  obtain ⟨_, hs⟩ | ⟨t, _, h0, hs⟩ | ⟨_, hs⟩ := solution?_cases he hc <;> rw [hs]
  · exact .ok _
  · exact .map fun _ => Fraction.isOverflow_root h0
  · exact .ok none

theorem overflows_hasSolution {e : Equation} (he : e.IsCanonical) : Overflows e.hasSolution := by
  rw [hasSolution]
  split
  · exact .ok false
  · next hc => exact .bind (overflows_solution? he (by simpa using hc)) fun _ _ => .ok _

theorem overflows_leader? {e : Equation} (he : e.IsCanonical) : Overflows e.leader? := by
  rw [leader?]
  split
  · exact .ok none
  · next hc =>
    refine .bind (overflows_solution? he (by simpa using hc)) fun s _ => ?_
    split <;> exact .ok _

theorem overflows_express? (e : Equation) (n : Name) : Overflows (e.express? n) := by
  rw [express?]
  split
  · exact .ok none
  · refine .bind (fun _ => Fraction.isOverflow_recip?) fun r? _ => ?_
    split
    · exact .ok none
    · exact .bind (fun _ => Fraction.isOverflow_neg) fun x _ =>
        .bind (.mapM fun t _ => overflows_scaleTerm t x) fun _ _ => .ok _

end Equation
end ExactLinear
