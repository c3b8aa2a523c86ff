import ExactLinear.Name

/-! # Tables by name

A table has at most one entry for a name and keeps its entries in ascending order of names, so equal
tables are the same list. The set of the unknowns of a system is kept in the same order.
-/

namespace ExactLinear

/-- Adds a name to an ascending list, unless it is there. -/
def Name.insertInto (n : Name) : List Name → List Name
  | [] => [n]
  | m :: ms =>
    match n.compare m with
    | .lt => n :: m :: ms
    | .eq => m :: ms
    | .gt => m :: insertInto n ms

/-- A table of values by name. -/
structure Bindings (α : Type) where
  entries : List (Name × α) := []
deriving DecidableEq, Inhabited

namespace Bindings

variable {α : Type}

/-- Puts an entry in its place, or in the place of the one of the same name. -/
def place (n : Name) (x : α) : List (Name × α) → List (Name × α)
  | [] => [(n, x)]
  | e :: es =>
    match n.compare e.1 with
    | .lt => (n, x) :: e :: es
    | .eq => (n, x) :: es
    | .gt => e :: place n x es

def insert (b : Bindings α) (n : Name) (x : α) : Bindings α := ⟨place n x b.entries⟩

def get? (b : Bindings α) (n : Name) : Option α := b.entries.lookup n

def contains (b : Bindings α) (n : Name) : Bool := (b.get? n).isSome

def keys (b : Bindings α) : List Name := b.entries.map Prod.fst

end Bindings
end ExactLinear
