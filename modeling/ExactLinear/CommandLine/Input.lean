import ExactLinear.Equation.Reading

/-! # Input of the command line

The input has one equation on each line. Blank lines are skipped. One line that cannot be read
rejects the whole input, and every such line is reported with its number; a line that is no text
ends the reading at once.
-/

namespace ExactLinear.CommandLine

/-- A line without the carriage return that precedes its line feed. -/
def withoutReturn (line : List UInt8) : List UInt8 :=
  if line.getLast? = some 13 then line.dropLast else line

theorem length_of_dropWhile {p : UInt8 → Bool} {bs rest : List UInt8} {c : UInt8}
    (h : bs.dropWhile p = c :: rest) : rest.length < bs.length := by
  have hle : (bs.dropWhile p).length ≤ bs.length := (List.dropWhile_suffix p).sublist.length_le
  rw [h] at hle
  exact hle

/-- The lines of the input. The last one need not end with a line feed. -/
def lines : List UInt8 → List (List UInt8)
  | [] => []
  | b :: bs =>
    match _h : (b :: bs).dropWhile fun c => c ≠ 10 with
    | [] => [b :: bs]
    | _ :: rest => withoutReturn ((b :: bs).takeWhile fun c => c ≠ 10) :: lines rest
termination_by bs => bs.length
decreasing_by exact length_of_dropWhile ‹_›

/-- The text of a line, if its bytes are UTF-8. -/
def decode? (line : List UInt8) : Option String := String.fromUTF8? ⟨line.toArray⟩

structure BadLine where
  number : Nat
  text : String
  error : ParseError
deriving DecidableEq

def BadLine.message (b : BadLine) : String :=
  s!"Line {b.number}: unable to parse \"{b.text}\": {b.error.message}"

inductive InputError
  /-- A line is not UTF-8. -/
  | undecodable
  /-- These lines are no equations. -/
  | unparseable (lines : List BadLine)
  /-- All lines are blank. -/
  | empty
  /-- Reading a line met a fault. -/
  | fault (fault : Fault)
deriving DecidableEq

def InputError.message : InputError → String
  | undecodable =>
    "Error: Error \x7b kind: InvalidData, message: \"stream did not contain valid UTF-8\" \x7d"
  | unparseable lines => "\n".intercalate (lines.map BadLine.message)
  | empty => "No equations were given"
  | fault f => f.message

def sortLines : Nat → List (Option String) → Except InputError (List Equation × List BadLine)
  | _, [] => return ([], [])
  | _, none :: _ => throw .undecodable
  | k, some line :: rest =>
    if line.toList.all Text.isBlank then sortLines (k + 1) rest
    else
      match Equation.parse line with
      | .ok e => do
        let (es, bad) ← sortLines (k + 1) rest
        return (e :: es, bad)
      | .error error =>
        match error.fatal? with
        | some f => throw (.fault f)
        | none => do
          let (es, bad) ← sortLines (k + 1) rest
          return (es, ⟨k, line, error⟩ :: bad)

/-- The equations on the lines, which are numbered from one. -/
def readEquations (ls : List (Option String)) : Except InputError (List Equation) := do
  let (es, bad) ← sortLines 1 ls
  if !bad.isEmpty then throw (.unparseable bad)
  if es.isEmpty then throw .empty
  return es

end ExactLinear.CommandLine
