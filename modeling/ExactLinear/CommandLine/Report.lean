import ExactLinear.CommandLine.Input
import ExactLinear.CommandLine.Options
import ExactLinear.Elimination.Trace
import ExactLinear.Outcome

/-! # Report of the command line

The report on a system is a list of lines in the order in which they become known. A line that
cannot be written stops the report, and the lines before it stay.
-/

namespace ExactLinear.CommandLine

inductive Line
  | report (text : String)
  | trace (text : String)
deriving DecidableEq

/-- Lines one after the other, each of which may fail. -/
abbrev Lines := List (Except Fault Line)

def indented (text : String) : Line := .report ("  " ++ text)

/-- The lines for an event: its entry if the trace is reported, and its step if those are. -/
def eventLines (o : Options) (e : Event) : Lines :=
  let entry : Lines := match e.entry with
    | .error f => if o.verbose && e matches .reduced _ _ _ then [.error f] else []
    | .ok entry =>
      if o.verbose && entry.level = .debug then
        let fields := entry.fields.map fun (name, value) => s!" {name}={value}"
        [.ok (.trace (entry.message ++ String.join fields))]
      else []
  let step : Lines := match e with
    | .reduced step _ _ => if o.steps then [.ok (indented step.text)] else []
    | _ => []
  entry ++ step

def knownLines (s : Solution) : Lines :=
  s.known.entries.map fun (n, x) => .ok (indented s!"{n.text} = {x.text}")

/-- A sum with no terms is written as zero. -/
def expressionText (ts : List Term) : Except Fault String :=
  if ts.isEmpty then return "0" else Term.sumText ts

def expressedLines (s : Solution) : Lines :=
  s.expressed.entries.map fun (n, ts) => do
    return indented s!"{n.text} = {← expressionText ts}"

def freeNames (unknowns : List Name) (s : Solution) : List Name :=
  unknowns.filter fun n => !s.known.contains n && !s.expressed.contains n

def listed (names : List Name) : String := ", ".intercalate (names.map Name.text)

def outcomeLines (unknowns : List Name) : Outcome → Lines
  | .inconsistent => [.ok (.report "No solution")]
  | .solved s => .ok (.report "Found:") :: knownLines s
  | .underdetermined s =>
    let free := freeNames unknowns s
    let last : Lines :=
      if free.isEmpty then [] else [.ok (.report s!"Free variables: {listed free}")]
    .ok (.report "Infinitely many solutions:") :: knownLines s ++ expressedLines s ++ last

def solutionLines (o : Options) (s : LinearSystem) : Lines :=
  let run := s.solve s.passBound
  let answer : Lines := match run.result with
    | .error f => [.error f]
    | .ok (_, none) => []
    | .ok (_, some outcome) => outcomeLines s.unknowns outcome
  .ok (.report s!"Solving for {listed s.unknowns}") :: run.log.flatMap (eventLines o) ++ answer

end ExactLinear.CommandLine
