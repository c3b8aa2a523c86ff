import ExactLinear.Observer
import ExactLinear.Proofs.Elimination.Reports

/-! # What observers are shown

An observed elimination comes to the same rows, ending or fault as one without an observer, and the
observer is shown the reported reductions in their order, those before a fault included.
-/

namespace ExactLinear

variable {σ α β : Type}

/-- The state of an observer after it was shown reductions, one after the other. -/
def Observer.watch (observer : Observer σ) (steps : List Reduction) (a : σ) : σ :=
  steps.foldl (fun a step => ((observer step).run a).2) a

theorem Observer.watch_append (observer : Observer σ) (l r : List Reduction) (a : σ) :
    observer.watch (l ++ r) a = observer.watch r (observer.watch l a) := List.foldl_append

/-- The observed computation comes to the same result, and its observer is shown the reductions
that the logged one reports. -/
def Mirrors (observer : Observer σ) (x : Observed σ α) (y : Logged α) : Prop :=
  ∀ a, x.run.run a = (y.result, observer.watch y.reductions a)

namespace Mirrors

variable {observer : Observer σ} {x : Observed σ α} {y : Logged α} {f : α → Observed σ β}
  {g : α → Logged β}

theorem pure (r : α) : Mirrors observer (Pure.pure r) (Pure.pure r) := fun _ => rfl

theorem ofExcept (r : Except Fault α) : Mirrors observer (liftM r) (liftM r) := fun _ => rfl

theorem ofResult (h : y.reductions = []) : Mirrors observer (liftM y.result) y := by
  intro a
  rw [h]
  rfl

theorem bind (hx : Mirrors observer x y)
    (hf : ∀ r, y.result = .ok r → Mirrors observer (f r) (g r)) :
    Mirrors observer (x >>= f) (y >>= g) := by
  intro a
  rw [ExceptT.run_bind, StateT.run_bind, hx a]
  cases h : y.result with
  | error e =>
    rw [Logged.reductions_bind_of_error h, Logged.bind_of_error h]
    rfl
  | ok r =>
    rw [Logged.reductions_bind_of_ok h, Logged.bind_of_ok h, Observer.watch_append]
    exact hf r h _

theorem settled (h : Mirrors observer x y) (rounds : ℕ) :
    Mirrors observer x (Logged.emit (.settled rounds) >>= fun _ => y) := h

end Mirrors

/-- A reduction is shown if and only if it is reported. -/
theorem mirrors_reduceWith (observer : Observer σ) (rows : List Equation) :
    Mirrors observer (reduceWith observer rows) (reduce rows) := by
  intro a
  rw [reduceWith, ExceptT.run_bind, StateT.run_bind]
  cases h : (reduce rows).result with
  | error f =>
    rw [reductions_reduce_of_error h]
    rfl
  | ok r =>
    obtain ⟨mid, step⟩ := r
    rw [reductions_reduce_of_ok h]
    cases step with
    | none => rfl
    | some step => rfl

theorem mirrors_eliminateWith (observer : Observer σ) (passes : ℕ) (rows : List Equation) :
    Mirrors observer (eliminateWith observer passes rows) (eliminate passes rows) := by
  induction passes generalizing rows with
  | zero => exact .pure _
  | succ passes ih =>
    rw [eliminateWith, eliminate]
    apply Mirrors.bind (mirrors_reduceWith observer rows)
    intro r _
    apply Mirrors.bind (.ofResult (reductions_settle r.1))
    intro t _
    have goOn : Mirrors observer
        (if t.2.2 = .contradiction then pure (t.1, .contradiction)
          else if r.2.isNone ∧ t.2.1 = 0 then pure (t.1, .finished)
          else eliminateWith observer passes t.1)
        (if t.2.2 = .contradiction then pure (t.1, .contradiction)
          else if r.2.isNone ∧ t.2.1 = 0 then pure (t.1, .finished)
          else eliminate passes t.1) := by
      split
      · exact .pure _
      split
      · exact .pure _
      · exact ih t.1
    by_cases hrounds : 0 < t.2.1
    · simpa only [hrounds, if_true] using goOn.settled t.2.1
    · simpa only [hrounds, if_false] using goOn

theorem Logged.bind_pure_bind {γ : Type} (x : Logged α) (f : α → β) (g : β → Logged γ) :
    ((x >>= fun r => pure (f r)) >>= g) = x >>= fun r => g (f r) := by
  cases h : x.result with
  | error e => rw [bind_of_error h, bind_of_error h, bind_of_error rfl]
  | ok r =>
    rw [bind_of_ok h, bind_of_ok h, bind_of_ok (a := f r) rfl]
    simp [show (pure (f r) : Logged β).log = [] from rfl]

namespace LinearSystem

theorem mirrors_solveWith (observer : Observer σ) (passes : ℕ) (s : LinearSystem) :
    Mirrors observer (s.solveWith observer passes) (s.solve passes) := by
  rw [solveWith, solve, eliminate, Logged.bind_pure_bind]
  apply Mirrors.bind (mirrors_eliminateWith observer passes s.equations)
  intro r _
  obtain ⟨rows, ending⟩ := r
  cases ending with
  | unfinished => exact .pure _
  | contradiction => exact .pure _
  | finished => exact .bind (.ofExcept _) fun o _ => .pure _

end LinearSystem
end ExactLinear
