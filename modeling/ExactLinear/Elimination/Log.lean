import ExactLinear.Equation.Solution

/-! # Log of an elimination

Elimination works on rows, the equations of a system by index. Each change of a row is an event. A
logged computation keeps the events that came before a fault, so what was already reported stays
reported.
-/

namespace ExactLinear

/-- Adding a multiple of the source row to the destination row. -/
structure Reduction where
  source : Nat
  destination : Nat
  coefficient : Fraction
deriving DecidableEq

def Reduction.text (r : Reduction) : String :=
  s!"{r.coefficient.text} * p_\x7b{r.source}\x7d + p_\x7b{r.destination}\x7d"

inductive Event
  /-- Two rows give different values to one variable. -/
  | conflict (name : Name) (first second : Fraction)
  /-- A value took the place of a variable in a row, which is then as shown. -/
  | substituted (name : Name) (value : Fraction) (row : Nat) (equation : Equation)
  /-- A reduction of rows led by the same variable left its destination as shown. -/
  | reduced (step : Reduction) (name : Name) (equation : Equation)
  /-- Substitution came to rest after some rounds. -/
  | settled (rounds : Nat)

def Event.reductions (log : List Event) : List Reduction :=
  log.filterMap fun
    | .reduced step _ _ => some step
    | _ => none

/-- A result or a fault, with the events that came before it. -/
structure Logged (α : Type) where
  log : List Event
  result : Except Fault α

namespace Logged

variable {α β : Type}

protected def pure (a : α) : Logged α := ⟨[], .ok a⟩

/-- Goes on with the result, and logs nothing more after a fault. -/
protected def bind (x : Logged α) (f : α → Logged β) : Logged β :=
  match x.result with
  | .ok a =>
    let y := f a
    ⟨x.log ++ y.log, y.result⟩
  | .error e => ⟨x.log, .error e⟩

instance : Monad Logged where
  pure := Logged.pure
  bind := Logged.bind

instance : MonadLift (Except Fault) Logged := ⟨fun x => ⟨[], x⟩⟩

def emit (e : Event) : Logged Unit := ⟨[e], .ok ()⟩

theorem bind_result (x : Logged α) (f : α → Logged β) :
    (x >>= f).result = x.result >>= fun a => (f a).result := by
  change (Logged.bind x f).result = _
  rw [Logged.bind]
  split <;> simp_all [bind, Except.bind]

theorem bind_result_eq_ok {x : Logged α} {f : α → Logged β} {b : β} :
    (x >>= f).result = .ok b ↔ ∃ a, x.result = .ok a ∧ (f a).result = .ok b := by
  rw [bind_result, bind_eq_ok]

@[simp] theorem pure_result (a : α) : (pure a : Logged α).result = .ok a := rfl

@[simp] theorem emit_result (e : Event) : (emit e).result = .ok () := rfl

@[simp] theorem monadLift_result (x : Except Fault α) :
    (MonadLift.monadLift x : Logged α).result = x := rfl

end Logged
end ExactLinear
