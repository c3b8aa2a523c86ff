import ExactLinear.Equation.Canonical
import ExactLinear.Equation.Reading
import ExactLinear.Outcome

/-! # Reachable equations and systems

What the operations can produce, from nothing and under policies of a given kind. Properties of
everything that a user can hold are stated for these and proved operation by operation.
-/

namespace ExactLinear

variable (allowed : Policy → Prop)

inductive Equation.Reachable : Equation → Prop
  | empty : Reachable {}
  | parse {s : String} {e : Equation} : Equation.parse s = .ok e → Reachable e
  | ofTerms {ts : List Term} {e : Equation} : Equation.ofTerms ts = .ok e → Reachable e
  | addTerm {e r : Equation} {t : Term} : Reachable e → e.addTerm t = .ok r → Reachable r
  | addTerms {e r : Equation} {ts : List Term} : Reachable e → e.addTerms ts = .ok r → Reachable r
  | scale {e r : Equation} {x : Fraction} : Reachable e → e.scale x = .ok r → Reachable r
  | unscale {e r : Equation} {x : Fraction} : Reachable e → e.unscale x = .ok r → Reachable r
  | simplify {e r : Equation} : Reachable e → e.simplify = .ok r → Reachable r
  | substitute {e r : Equation} {n : Name} {x : Fraction} :
    Reachable e → e.substitute? n x = .ok (some r) → Reachable r
  | withPolicy {e : Equation} {p : Policy} : allowed p → Reachable e → Reachable (e.withPolicy p)

/-- The systems that can be put together from such equations and worked on. -/
inductive LinearSystem.Reachable : LinearSystem → Prop
  | empty : Reachable {}
  | push {s : LinearSystem} {e : Equation} :
    Reachable s → e.Reachable allowed → Reachable (s.push e)
  | withPolicy {s : LinearSystem} {p : Policy} :
    allowed p → Reachable s → Reachable (s.withPolicy p)
  | sorted {s : LinearSystem} : Reachable s → Reachable s.sorted
  | substitute {s r : LinearSystem} {v : Verdict} :
    Reachable s → s.substitute.result = .ok (r, v) → Reachable r
  | reduce {s r : LinearSystem} {step : Option Reduction} :
    Reachable s → s.reduce.result = .ok (r, step) → Reachable r
  | eliminate {s r : LinearSystem} {passes : Nat} {ending : Ending} :
    Reachable s → (s.eliminate passes).result = .ok (r, ending) → Reachable r

end ExactLinear
