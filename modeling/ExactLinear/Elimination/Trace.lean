import ExactLinear.Elimination.Log

/-! # Trace of an elimination

Events are reported as entries of a trace: a level, a message, and fields by name. Substitutions are
reported at the finer level.
-/

namespace ExactLinear

inductive Level
  | debug
  | trace
deriving DecidableEq, Repr

structure TraceEntry where
  level : Level
  message : String
  fields : List (String × String)
deriving DecidableEq

/-- The entry for an event. An equation that has no text makes it fail. -/
def Event.entry : Event → Except Fault TraceEntry
  | conflict n x y =>
    return ⟨.debug, "conflicting solutions",
      [("variable", n.text), ("first", x.text), ("second", y.text)]⟩
  | substituted n x row e =>
    return ⟨.trace, "substituted",
      [("variable", n.text), ("value", x.text), ("row", toString row), ("equation", ← e.text)]⟩
  | reduced step n e =>
    return ⟨.debug, "reduced", [("step", step.text), ("variable", n.text), ("result", ← e.text)]⟩
  | settled rounds => return ⟨.debug, "substitution finished", [("rounds", toString rounds)]⟩

end ExactLinear
