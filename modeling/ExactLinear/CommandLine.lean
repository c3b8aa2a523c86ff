import ExactLinear.CommandLine.Report

/-! # The command line

Arguments and input in, a status and two texts out. The status is zero for any outcome, one for an
input that is rejected, two for arguments that are, and 101 for a fault.
-/

namespace ExactLinear.CommandLine

structure Answer where
  status : Nat
  output : String
  errors : String
deriving DecidableEq

/-- Each line ends with a line feed. -/
def joinLines (ls : List String) : String := String.join (ls.map (· ++ "\n"))

def faultStatus (f : Fault) : Nat := if f.isFatal then 101 else 1

/-- Writes lines up to the first that fails. -/
def writeLines : Lines → Answer
  | [] => ⟨0, "", ""⟩
  | .error f :: _ => ⟨faultStatus f, "", joinLines [f.message]⟩
  | .ok line :: rest =>
    let answer := writeLines rest
    match line with
    | .report text => { answer with output := text ++ "\n" ++ answer.output }
    | .trace text => { answer with errors := text ++ "\n" ++ answer.errors }

def inputStatus : InputError → Nat
  | .fault f => faultStatus f
  | _ => 1

def solveInput (o : Options) (input : List UInt8) : Answer :=
  match readEquations ((lines input).map decode?) with
  | .error e => ⟨inputStatus e, "", joinLines [e.message]⟩
  | .ok es => writeLines (solutionLines o ((LinearSystem.ofEquations es).withPolicy o.policy))

def run (arguments : List String) (input : List UInt8) : Answer :=
  match Options.ofArguments arguments with
  | .ok o => solveInput o input
  | .error .help => ⟨0, helpText, ""⟩
  | .error r => ⟨2, "", joinLines [r.message]⟩

end ExactLinear.CommandLine
