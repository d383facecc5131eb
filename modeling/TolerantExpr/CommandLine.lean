import TolerantExpr.Engine.Basic

/-!
# The command line

The program evaluates the expression given as an argument, or otherwise one expression for each
line of its input. Parameters are bound by name, and a tolerance is put together from options.
-/

namespace TolerantExpr.CommandLine

/-- What the arguments ask for. -/
structure Invocation where
  /-- The bindings of parameters, the latest first. -/
  bindings : List (String × Value) := []
  tolerance : Tolerance := .exact
  /-- Whether to list the parameters of each expression. -/
  listParameters : Bool := false
  /-- The expression; without one, lines of input are evaluated. -/
  expression : Option String := none

inductive Request where
  | evaluate (i : Invocation)
  | help

/-- What the program leaves behind. -/
structure Outcome where
  exitCode : Nat
  output : String
  /-- What is said about failures. -/
  report : String := ""
deriving DecidableEq, Repr

/-! ### Arguments -/

/-- Split at the first `=`. -/
def splitAssignment (cs : List Char) : Option (List Char × List Char) :=
  match cs.dropWhile (· ≠ '=') with
  | _ :: value => some (cs.takeWhile (· ≠ '='), value)
  | [] => none

/-- A value as it is written on the command line: an integer, a double or a Boolean if it reads
as one, and otherwise a string. -/
def readValue (s : String) : Value :=
  match readInt? s, readFloat? s with
  | some n, _ => .int n
  | none, some x => .float x
  | none, none =>
    if s = "true" then .boolean true else if s = "false" then .boolean false else .string s

/-- Read `name=value`. The name must not be blank, and blanks around it do not count. -/
def readBinding? (s : String) : Option (String × Value) :=
  match splitAssignment s.toList with
  | none => none
  | some (name, value) =>
    let name := Text.trim (String.ofList name)
    if name = "" then none else some (name, readValue (String.ofList value))

/-- An option that takes a value. -/
inductive Setting where
  | binding
  | bound (b : Bound)

/-- The option of a long name. -/
def Setting.ofName? (name : String) : Option Setting :=
  [("arg", binding), ("lower", bound .lower), ("upper", bound .upper),
    ("int-lower", bound .intLower), ("int-upper", bound .intUpper),
    ("proportional", bound .proportional)].lookup name

/-- Take the value of an option into account. A bound is set at most once. -/
def Invocation.apply (i : Invocation) (setting : Setting) (value : String) : Option Invocation :=
  match setting with
  | .binding => (readBinding? value).map fun b => { i with bindings := b :: i.bindings }
  | .bound b =>
    if (i.tolerance.get? b).isSome then none
    else (readFloat? value).map fun x => { i with tolerance := i.tolerance.set b x }

/-- Take the expression into account. There is at most one. -/
def Invocation.positional (i : Invocation) (word : String) : Option Invocation :=
  if i.expression.isSome then none else some { i with expression := some word }

/-- An argument by its form. -/
inductive Word where
  /-- `--`: only the expression can follow. -/
  | terminator
  /-- A long option, with the value behind `=` if there is one. -/
  | long (name : String) (value : Option String)
  /-- A short option, with what follows its letter. -/
  | short (letter : Char) (rest : List Char)
  | plain (text : String)

def Word.ofText (s : String) : Word :=
  match s.toList with
  | ['-', '-'] => terminator
  | '-' :: '-' :: cs =>
    match splitAssignment cs with
    | some (name, value) => long (String.ofList name) (some (String.ofList value))
    | none => long (String.ofList cs) none
  | '-' :: c :: cs => short c cs
  | _ => plain s

/-- The value attached to a short option, with or without `=`. -/
def attached? : List Char → Option String
  | [] => none
  | '=' :: cs => some (String.ofList cs)
  | cs => some (String.ofList cs)

/-- Read the arguments from left to right; `none` if one of them is refused. Help wins over
whatever comes after it. A value that is no part of its option is the next argument, unless that
looks like an option itself. -/
def readFrom (i : Invocation) (words : List String) : Option Request :=
  match words with
  | [] => some (.evaluate i)
  | w :: rest =>
    let withValue := fun (setting : Setting) (value : Option String) =>
      match value with
      | some v => (i.apply setting v).bind fun i => readFrom i rest
      | none =>
        match rest with
        | [] => none
        | v :: rest =>
          match Word.ofText v with
          | .plain v => (i.apply setting v).bind fun i => readFrom i rest
          | _ => none
    match Word.ofText w with
    | .terminator => (rest.foldlM Invocation.positional i).map .evaluate
    | .plain text => (i.positional text).bind fun i => readFrom i rest
    | .short 'a' value => withValue .binding (attached? value)
    | .short 'h' _ => some .help
    | .short _ _ => none
    | .long "help" none => some .help
    | .long "debug-params" none =>
      if i.listParameters then none else readFrom { i with listParameters := true } rest
    | .long name value =>
      match Setting.ofName? name with
      | some setting => withValue setting value
      | none => none

/-- Read the arguments of the program. -/
def read (words : List String) : Option Request := readFrom {} words

/-! ### Evaluation -/

/-- The name of a preference in a list of parameters. -/
def preferenceName : Preference → String
  | .unset => "Unset"
  | .float => "Float"
  | .integer => "Integer"

/-- The list of the parameters of an expression. -/
def parameterList (table : ParameterTable) : String :=
  let line := fun (p : FixedParameter) =>
    p.name ++ ": " ++ p.type.name ++ " (" ++ preferenceName p.preference
      ++ (if p.producer then ", producer" else "") ++ ")\n"
  "=== Parameters ===\n" ++ String.join (table.map line) ++ "\n"

/-- What became of one expression. -/
structure Evaluated where
  succeeded : Bool
  output : String
  report : String

/-- Evaluate one expression. -/
def evaluate (i : Invocation) (engine : Engine) (input : String) : Evaluated × Engine :=
  match engine.fetch input with
  | (.error f, engine) => (⟨false, "", f.line⟩, engine)
  | (.ok e, engine) =>
    let head := if i.listParameters then parameterList e.parameters else ""
    let find := fun name => (i.bindings.lookup name).map Argument.value
    match ((e.callByName i.tolerance find).run []).1 with
    | .ok v => (⟨true, head ++ v.text ++ "\n", ""⟩, engine)
    | .error err => (⟨false, head, (Failure.ofCall err).line⟩, engine)

/-- Evaluate inputs one after the other with one engine. -/
def evaluateAll (i : Invocation) (engine : Engine) : List String → List Evaluated
  | [] => []
  | input :: inputs =>
    let (result, engine) := evaluate i engine input
    result :: evaluateAll i engine inputs

/-- The expressions among the lines of a text: those that are not blank, without the blanks at
their ends. -/
def inputLines (text : String) : List String :=
  ((text.toList.splitOn '\n').map fun line => Text.trim (String.ofList line)).filter (· ≠ "")

/-- What the program prints when it is asked for help. -/
def helpText : String :=
  "Evaluate fuzzex expressions

Usage: fuzzex [OPTIONS] [EXPRESSION]

Arguments:
  [EXPRESSION]  Expression to evaluate (if not provided, reads one per line from stdin)

Options:
  -a, --arg <NAME=VALUE>             Bind a parameter, e.g. `-a x=1.5` (repeatable)
      --lower <LOWER>                Absolute slack below the reference value
      --upper <UPPER>                Absolute slack above the reference value
      --int-lower <INT_LOWER>        Slack below, applied to integer-truncated values
      --int-upper <INT_UPPER>        Slack above, applied to integer-truncated values
      --proportional <PROPORTIONAL>  Relative slack as a fraction of either operand
      --debug-params                 Print the parameters of each expression (for debugging)
  -h, --help                         Print help
"

/-- The outcome of several evaluations: what they print, one after the other, and whether all of
them succeeded. -/
def Outcome.ofResults (results : List Evaluated) : Outcome where
  exitCode := if results.all Evaluated.succeeded then 0 else 1
  output := String.join (results.map Evaluated.output)
  report := String.join (results.map Evaluated.report)

/-- Run the program. Refused arguments end it with exit code 2. -/
def run (arguments : List String) (stdin : String) : Outcome :=
  match read arguments with
  | none => ⟨2, "", "error: the arguments are not understood\n"⟩
  | some .help => ⟨0, helpText, ""⟩
  | some (.evaluate i) =>
    let engine : Engine := { options := {} }
    match i.expression with
    | some input => .ofResults (evaluateAll i engine [input])
    | none => .ofResults (evaluateAll i engine (inputLines stdin))

end TolerantExpr.CommandLine
