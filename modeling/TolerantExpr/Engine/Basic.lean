import TolerantExpr.Analysis
import TolerantExpr.Engine.Options
import TolerantExpr.Program.Code

/-!
# The engine

An engine compiles texts into expressions and remembers, for each text it was asked to fetch,
the expression it became. Failures are not remembered. An expression never changes once it is
compiled: it holds both of its programs, its parameters, and the formatters it was compiled with.
-/

namespace TolerantExpr

/-- A compiled expression. -/
structure Compiled where
  /-- The number of the compilation that made it. No two expressions of one engine share it. -/
  serial : Nat
  source : String
  exact : Code
  tolerant : Code
  parameters : ParameterTable
  type : ValueType
  formatters : Formatters
  /-- The tolerance of calls that do not bring their own. -/
  tolerance : Tolerance

namespace Compiled

/-- Run the program that fits the tolerance. -/
def runCode (e : Compiled) (t : Tolerance) (slots : List Slot) : Run CallError Value :=
  let code := if t.isExact then e.exact else e.tolerant
  ExceptT.adapt CallError.evaluation (code.run ⟨slots, t, e.formatters⟩)

/-- Call with one argument for each parameter, in order. -/
def call (e : Compiled) (t : Tolerance) (arguments : List Argument) : Run CallError Value := do
  let slots ← e.parameters.bindInOrder arguments
  e.runCode t slots

/-- Call with arguments looked up by name. -/
def callByName (e : Compiled) (t : Tolerance) (find : String → Option Argument) :
    Run CallError Value := do
  let slots ← e.parameters.bindByName find
  e.runCode t slots

/-- Call without a tolerance. -/
def callExact (e : Compiled) (arguments : List Argument) : Run CallError Value :=
  e.call .exact arguments

/-- Call with the tolerance of the engine. -/
def callDefault (e : Compiled) (arguments : List Argument) : Run CallError Value :=
  e.call e.tolerance arguments

end Compiled

structure Engine where
  options : Options
  formatters : Formatters := []
  /-- The slots of the texts fetched so far. A slot is empty while its text is compiled. -/
  cache : List (String × Option Compiled) := []
  /-- How many compilations have succeeded. -/
  compiledCount : Nat := 0

namespace Engine

/-- An engine, unless its options are refused. -/
def new (options : Options) : Except Failure Engine :=
  match options.refusal? with
  | some refusal => .error (.setup refusal.message)
  | none => .ok { options := options }

/-- Add a formatter at the end of the chain. Expressions compiled before captured the old chain,
so they are forgotten. -/
def addFormatter (engine : Engine) (f : Formatter) : Engine :=
  { engine with formatters := engine.formatters ++ [f], cache := [] }

/-- Compile a text with the parameters of a registry already known. -/
def compileText (engine : Engine) (source : String) (registry : Registry) :
    Except Failure Compiled := do
  let extraction := Extraction.ofText engine.options.delimiters source
  let e ← (Expr.parse extraction.skeleton engine.options.maxDepth).mapError fun f =>
    .ofParse (f.relocate source extraction.sourceSpan)
  let analysis ← (Analysis.ofExpr e extraction source registry engine.formatters).mapError .ofType
  let code := fun mode =>
    (Code.ofNode mode analysis.parameters analysis.root).mapError fun e =>
      Failure.compilation [e.diagnostic] source
  let exact ← code .exact
  let tolerant ← code .tolerant
  match analysis.root.type? with
  | none => throw (.compilation [(CodeError.unresolved analysis.root.span).diagnostic] source)
  | some type =>
    return {
      serial := engine.compiledCount
      source := source
      exact := exact
      tolerant := tolerant
      parameters := analysis.parameters
      type := type
      formatters := engine.formatters
      tolerance := engine.options.tolerance }

/-- Count a compilation that succeeded. -/
def count (engine : Engine) (result : Except Failure Compiled) : Except Failure Compiled × Engine :=
  match result with
  | .ok e => (.ok e, { engine with compiledCount := engine.compiledCount + 1 })
  | .error f => (.error f, engine)

/-- Compile a text without looking at what is remembered, and without remembering it. -/
def compile (engine : Engine) (source : String) : Except Failure Compiled × Engine :=
  engine.count (engine.compileText source {})

/-- Compile a text with the parameters of an earlier expression: they keep their order and types,
and new ones follow. -/
def compileWith (engine : Engine) (source : String) (table : ParameterTable) :
    Except Failure Compiled × Engine :=
  engine.count (engine.compileText source (.ofTable table))

/-- The expression remembered for a text. -/
def cached? (engine : Engine) (source : String) : Option Compiled :=
  (engine.cache.lookup source).join

def contains (engine : Engine) (source : String) : Bool := (engine.cached? source).isSome

/-- How many expressions are remembered. -/
def size (engine : Engine) : Nat := engine.cache.countP fun slot => slot.2.isSome

def isEmpty (engine : Engine) : Bool := engine.size = 0

/-- Forget every expression. -/
def clear (engine : Engine) : Engine := { engine with cache := [] }

/-- Make sure that a text has a slot. -/
def reserve (engine : Engine) (source : String) : Engine :=
  match engine.cache.lookup source with
  | some _ => engine
  | none => { engine with cache := (source, none) :: engine.cache }

/-- Put an expression into the slot of its text. -/
def fill (engine : Engine) (source : String) (e : Compiled) : Engine :=
  { engine with
    cache := engine.cache.map fun slot => if slot.1 = source then (source, some e) else slot }

/-- Take the slot of a text away if it is empty. -/
def release (engine : Engine) (source : String) : Engine :=
  { engine with cache := engine.cache.filter fun slot => !(slot.1 = source && slot.2.isNone) }

/-- The expression remembered for a text, or else the one it compiles to, which is remembered
from then on. -/
def fetch (engine : Engine) (source : String) : Except Failure Compiled × Engine :=
  match engine.cached? source with
  | some e => (.ok e, engine)
  | none =>
    match (engine.reserve source).compile source with
    | (.ok e, engine) => (.ok e, engine.fill source e)
    | (.error f, engine) => (.error f, engine.release source)

end Engine
end TolerantExpr
