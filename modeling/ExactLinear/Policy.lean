import ExactLinear.Sorting
import ExactLinear.Term
import ExactLinear.Text.Quoted

/-! # Orders of terms

A policy decides in which order an equation keeps its terms. The built-in policies compare variables
by name or by a table of priorities, and any other comparison can be supplied. Under every policy
the constant comes after the variables.
-/

namespace ExactLinear

/-- Priorities of variables, at most one for each text. -/
structure Priorities where
  entries : List (String × Int)
deriving DecidableEq, Inhabited

namespace Priorities

def set (text : String) (priority : Int) : List (String × Int) → List (String × Int)
  | [] => [(text, priority)]
  | e :: es => if e.1 = text then (text, priority) :: es else e :: set text priority es

/-- The table of a list of priorities, where the last one given for a text counts. -/
def ofList (es : List (String × Int)) : Priorities := ⟨es.foldl (fun t e => set e.1 e.2 t) []⟩

/-- Priorities that place the texts as they are listed: the first of `n` has priority `n`. -/
def ofOrder (texts : List String) : Priorities :=
  ofList (texts.zipIdx.map fun e => (e.1, (texts.length : Int) - e.2))

def get? (p : Priorities) (text : String) : Option Int := p.entries.lookup text

def text (p : Priorities) : String :=
  let entry (e : String × Int) := Text.quoted e.1 ++ ": " ++ toString e.2
  "\x7b" ++ ", ".intercalate (p.entries.map entry) ++ "\x7d"

end Priorities

inductive Policy
  /-- The natural order reversed. -/
  | descending
  /-- The natural order. -/
  | alphabetical
  /-- Higher priorities first, and the variables without one last, descending. -/
  | byPriority (priorities : Priorities)
  /-- Any other comparison of variable terms. -/
  | custom (label : String) (compare : Term → Term → Ordering)

namespace Policy

instance : Inhabited Policy := ⟨descending⟩

def byOrder (texts : List String) : Policy := byPriority (.ofOrder texts)

def isBuiltIn : Policy → Bool
  | custom _ _ => false
  | _ => true

def compareVariables : Policy → Term → Term → Ordering
  | descending, a, b => b.compare a
  | alphabetical, a, b => a.compare b
  | byPriority p, a, b =>
    match p.get? a.name.text, p.get? b.name.text with
    | some x, some y => (Ord.compare y x).then (b.compare a)
    | some _, none => .lt
    | none, some _ => .gt
    | none, none => b.compare a
  | custom _ compare, a, b => compare a b

/-- The comparison of terms: variables come before constants, which go by value. -/
def compare (p : Policy) (a b : Term) : Ordering :=
  match a.isConstant, b.isConstant with
  | false, true => .lt
  | true, false => .gt
  | true, true => a.coefficient.compare b.coefficient
  | false, false => p.compareVariables a b

def sort (p : Policy) (ts : List Term) : List Term := sortBy p.compare ts

def label : Policy → String
  | descending => "Descending"
  | alphabetical => "Alphabetical"
  | byPriority p => s!"VariablePriority \x7b priorities: {p.text} \x7d"
  | custom label _ => label

def text (p : Policy) : String := s!"OrderingPolicy({p.label})"

end Policy
end ExactLinear
