import ExactLinear.Equation.InPlace
import ExactLinear.Proofs.Elimination.Evaluation
import ExactLinear.Proofs.Equation.Meaning
import ExactLinear.Proofs.Failures.Arithmetic
import ExactLinear.Proofs.Fraction.Quotients

/-! # Scaling there and back

A factor of zero is refused before any coefficient has changed. Any other factor keeps the solutions
and the variables, and dividing by it again gives back every coefficient, because the stored form of
a number is unique and the original one is known to fit.
-/

namespace ExactLinear

/-- A product that has a word already as a coefficient is that coefficient. -/
theorem Term.multiply_eq_self {t u : Term} {c : Fraction} (ht : t.coefficient ≠ .zero)
    (hn : u.name = t.name) (hv : u.coefficient.value * c.value = t.coefficient.value) :
    u.multiply c = .ok t := by
  have hmul : u.coefficient.mul c = .ok t.coefficient := by
    rw [Fraction.mul_eq_ofRat, hv, Fraction.ofRat_value]
  have hself : t = u.withCoefficient t.coefficient := by rw [Term.withCoefficient, hn]
  exact multiply_eq_ok.2 ⟨_, hmul, Fraction.isZero_eq_false_iff.2 ht, hself⟩

namespace Equation

variable {e r : Equation} {x c : Fraction}

/-- A change in place comes to the equation or to the fault that is computed. -/
def ComesTo (p : Equation × Except Fault Unit) : Except Fault Equation → Prop
  | .ok r => p = (r, .ok ())
  | .error f => p.2 = .error f

theorem ComesTo.ok_iff {p : Equation × Except Fault Unit} {y : Except Fault Equation}
    (h : ComesTo p y) : p = (r, .ok ()) ↔ y = .ok r := by
  cases y with
  | ok e => simp [show p = (e, .ok ()) from h]
  | error f =>
    have hf : p.2 = .error f := h
    constructor
    · rintro rfl
      cases hf
    · simp

theorem ComesTo.error_iff {p : Equation × Except Fault Unit} {y : Except Fault Equation} {f : Fault}
    (h : ComesTo p y) : p.2 = .error f ↔ y = .error f := by
  cases y with
  | ok e => simp [show p = (e, .ok ()) from h]
  | error f' => simp [show p.2 = .error f' from h]

theorem multiplyTerms_eq (x : Fraction) (ts : List Term) :
    (∀ us, ts.mapM (·.multiply x) = .ok us → multiplyTerms x ts = (us, .ok ())) ∧
      ∀ f, ts.mapM (·.multiply x) = .error f → (multiplyTerms x ts).2 = .error f := by
  induction ts with
  | nil => simp [multiplyTerms, pure, Except.pure]
  | cons t ts ih =>
    rw [List.mapM_cons, multiplyTerms]
    cases ht : t.multiply x with
    | error f => simp [bind, Except.bind]
    | ok u =>
      rw [ok_bind]
      cases hts : ts.mapM (·.multiply x) with
      | error f => simp [bind, Except.bind, ih.2 f hts]
      | ok us => simp [ih.1 us hts, pure, Except.pure]

theorem comesTo_multiply (e : Equation) (x : Fraction) :
    ComesTo (e.multiplyInPlace x) (e.multiply x) := by
  obtain ⟨hok, herror⟩ := multiplyTerms_eq x e.terms
  rw [multiply]
  cases h : e.terms.mapM (·.multiply x) with
  | error f => exact herror f h
  | ok us => simp [ComesTo, multiplyInPlace, hok us h]

theorem comesTo_scale (e : Equation) (x : Fraction) :
    ComesTo (e.scaleInPlace x) (e.scale x) := by
  rw [scaleInPlace, scale]
  split
  · rfl
  · apply comesTo_multiply

theorem comesTo_unscale (e : Equation) (x : Fraction) :
    ComesTo (e.unscaleInPlace x) (e.unscale x) := by
  rw [unscaleInPlace, unscale]
  cases x.recip? with
  | error f => rfl
  | ok c? =>
    cases c? with
    | none => rfl
    | some c => exact comesTo_multiply e c

theorem unscale_of_scale (he : ∀ t ∈ e.terms, t.coefficient ≠ .zero) (hx : x.HasOpposite)
    (h : e.scale x = .ok r) : r.unscale x = .ok e := by
  obtain ⟨hx0, hp, hts⟩ := isMultiple_of_scale h
  obtain ⟨c, hc, hv⟩ := Fraction.exists_recip? hx hx0
  have hback : List.Forall₂ (fun u t : Term => u.multiply c = .ok t) r.terms e.terms := by
    apply ((List.forall₂_and_left _ _).2 ⟨he, hts⟩).flip.imp
    rintro u t ⟨ht, hn, hval⟩
    apply Term.multiply_eq_self ht hn
    have hx' := Fraction.value_ne_zero hx0
    rw [hval, hv]
    field_simp
  rw [unscale, hc, ok_bind]
  dsimp only
  rw [multiply, mapM_of_forall₂ hback, ok_bind, hp]
  rfl

/-- Scaling in place does what is computed, and so does unscaling. By zero both are refused, and the
equation stays as it was. By any other factor scaling fails by overflow only. Where it does not, the
satisfying valuations and the names in their order stay, and no coefficient becomes zero. If the
factor has an opposite besides, unscaling by it then succeeds and restores the equation. -/
theorem unscaleInPlace_of_scaleInPlace (he : e.IsCanonical) (x : Fraction) :
    ComesTo (e.scaleInPlace x) (e.scale x) ∧ ComesTo (e.unscaleInPlace x) (e.unscale x) ∧
      (x = .zero → e.scaleInPlace x = (e, .error .divisionByZero) ∧
        e.unscaleInPlace x = (e, .error .divisionByZero)) ∧
      (x ≠ .zero → (∀ f, (e.scaleInPlace x).2 = .error f → f.IsOverflow) ∧
        ∀ r, e.scaleInPlace x = (r, .ok ()) →
          (∀ v, r.Satisfied v ↔ e.Satisfied v) ∧
          r.terms.map Term.name = e.terms.map Term.name ∧
          (∀ t ∈ r.terms, t.coefficient ≠ .zero) ∧
          (x.HasOpposite → r.unscaleInPlace x = (e, .ok ()))) := by
  refine ⟨comesTo_scale e x, comesTo_unscale e x, ?_, ?_⟩
  · rintro rfl
    exact ⟨rfl, rfl⟩
  intro hx0
  refine ⟨?_, ?_⟩
  · intro f hf
    exact overflows_scale he hx0 f ((comesTo_scale e x).error_iff.1 hf)
  · intro r hr
    have h := (comesTo_scale e x).ok_iff.1 hr
    obtain ⟨_, hm⟩ := isMultiple_of_scale h
    have hq := Fraction.value_ne_zero hx0
    refine ⟨hm.satisfied_iff hq, hm.names, hm.nonzero hq he.nonzero, ?_⟩
    intro hx
    exact (comesTo_unscale r x).ok_iff.2 (unscale_of_scale he.nonzero hx h)

def threeShares : Equation :=
  ⟨.descending, [⟨⟨-1, 6, .inr (by decide)⟩, .ofText "z"⟩, ⟨⟨5, 6, .inr (by decide)⟩, .ofText "y"⟩,
    ⟨⟨1, 3, .inr (by decide)⟩, .ofText "x"⟩]⟩

/-- The shares can be multiplied by six and divided by it again. With nothing in its place they
stay. -/
theorem unscaleInPlace_of_scaleInPlace_threeShares :
    let six := Fraction.whole 6
    let parts := ofPairs .descending [(-1, "z"), (5, "y"), (2, "x")]
    threeShares.IsCanonical ∧ six ≠ .zero ∧ six.HasOpposite ∧
      threeShares.scaleInPlace .zero = (threeShares, .error .divisionByZero) ∧
      threeShares.scaleInPlace six = (parts, .ok ()) ∧
      (∀ v, parts.Satisfied v ↔ threeShares.Satisfied v) ∧
      parts.unscaleInPlace six = (threeShares, .ok ()) := by
  intro six parts
  have hcanonical : threeShares.IsCanonical := by
    constructor <;> decide +kernel
  have hne : six ≠ .zero := by decide
  have hopposite : six.HasOpposite := by decide
  have hscale : threeShares.scaleInPlace six = (parts, .ok ()) := by cbv
  obtain ⟨_, _, _, hother⟩ := unscaleInPlace_of_scaleInPlace hcanonical six
  obtain ⟨hsatisfied, _, _, hback⟩ := (hother hne).2 _ hscale
  obtain ⟨_, _, hzero, _⟩ := unscaleInPlace_of_scaleInPlace hcanonical .zero
  exact ⟨hcanonical, hne, hopposite, (hzero rfl).1, hscale, hsatisfied, hback hopposite⟩

end Equation
end ExactLinear
