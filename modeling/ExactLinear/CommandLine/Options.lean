import ExactLinear.Policy

/-! # Options of the command line

Options are read from left to right and the first that cannot be read decides. A value follows its
option or an equals sign. Priorities are separated by commas and can be given more than once; the
other options are given at most once.
-/

namespace ExactLinear.CommandLine

structure Options where
  /-- The policy by name, if one is given. -/
  order : Option Policy := none
  /-- The variables to place first. -/
  priority : List String := []
  /-- Show the reductions. -/
  steps : Bool := false
  /-- Report the trace. -/
  verbose : Bool := false

/-- The policy for the system: priorities count more than a named order. -/
def Options.policy (o : Options) : Policy :=
  if o.priority.isEmpty then o.order.getD .descending else .byOrder o.priority

inductive Refusal
  | unexpected (argument : String)
  | missingValue (option : String)
  | invalidValue (option value : String)
  | unwantedValue (option value : String)
  | repeated (option : String)
  /-- The arguments ask for the description of the options. -/
  | help
deriving DecidableEq, Repr

def Refusal.message : Refusal → String
  | unexpected argument => s!"error: unexpected argument '{argument}' found"
  | missingValue option => s!"error: a value is required for '{option}' but none was supplied"
  | invalidValue option value => s!"error: invalid value '{value}' for '{option}'"
  | unwantedValue option value => s!"error: unexpected value '{value}' for '{option}' found"
  | repeated option => s!"error: the argument '{option}' cannot be used multiple times"
  | help => ""

def helpText : String := "\n".intercalate [
  "Solve a system of linear equations exactly",
  "",
  "Usage: cli [OPTIONS]",
  "",
  "Options:",
  "      --order <ORDER>        The order terms are kept in [default: descending] " ++
    "[possible values: descending, alphabetical]",
  "      --priority <PRIORITY>  Variables to place first, highest priority first " ++
    "(e.g. \"x,y,z\")",
  "      --steps                Print each row reduction as it happens",
  "      --verbose              Enable debug logging",
  "  -h, --help                 Print help",
  ""]

def setValue (o : Options) (option value : String) : Except Refusal Options :=
  if option = "--priority" then return { o with priority := o.priority ++ value.splitOn "," }
  else if o.order.isSome then throw (.repeated option)
  else if value = "descending" then return { o with order := some .descending }
  else if value = "alphabetical" then return { o with order := some .alphabetical }
  else throw (.invalidValue option value)

def setFlag (o : Options) (option : String) : Except Refusal Options :=
  if option = "--help" then throw .help
  else if option = "--steps" then
    if o.steps then throw (.repeated option) else return { o with steps := true }
  else if o.verbose then throw (.repeated option)
  else return { o with verbose := true }

def takesValue (option : String) : Bool := option = "--order" || option = "--priority"

def isFlag (option : String) : Bool :=
  option = "--steps" || option = "--verbose" || option = "--help"

/-- The short option for the description, which is obeyed before what is glued to it. -/
def isHelp : List Char → Bool
  | '-' :: 'h' :: _ => true
  | _ => false

/-- An argument that stands for an option, or for the end of the options. A lone dash does not. -/
def isOption : List Char → Bool
  | '-' :: _ :: _ => true
  | _ => false

/-- The option and the value that an equals sign attaches to it. -/
def splitValue (argument : String) : String × Option String :=
  let cs := argument.toList
  let option := String.ofList (cs.takeWhile fun c => c ≠ '=')
  match cs.dropWhile fun c => c ≠ '=' with
  | [] => (option, none)
  | _ :: value => (option, some (.ofList value))

def readOptions (o : Options) : List String → Except Refusal Options
  | [] => return o
  | argument :: rest =>
    if argument = "--" then
      match rest with
      | [] => return o
      | extra :: _ => throw (.unexpected extra)
    else if isHelp argument.toList then throw .help
    else
      let (option, value?) := splitValue argument
      if takesValue option then
        match value? with
        | some value => do readOptions (← setValue o option value) rest
        | none =>
          match rest with
          | [] => throw (.missingValue option)
          | value :: rest =>
            if isOption value.toList then throw (.missingValue option)
            else do readOptions (← setValue o option value) rest
      else if isFlag option then
        match value? with
        | some value => throw (.unwantedValue option value)
        | none => do readOptions (← setFlag o option) rest
      else throw (.unexpected argument)

def Options.ofArguments (arguments : List String) : Except Refusal Options :=
  readOptions {} arguments

end ExactLinear.CommandLine
