import TolerantExpr.Expr.Basic
import TolerantExpr.Node.Folding
import TolerantExpr.Node.Narrowing
import TolerantExpr.Quotation.Extraction

/-!
# Analysis

From an expression to a typed tree and a table of parameters. The tree is built from the leaves
up: each operation is stabilized against its operands and folded before the one above it is built.
Then types are propagated through the whole tree, and as long as a parameter is left with several
types, the first such parameter gets its default and types are propagated again. At last the uses
of numeric parameters decide whether they want integers or doubles.
-/

namespace TolerantExpr

structure Analysis where
  root : Node
  parameters : ParameterTable

namespace Analysis

/-- What building the tree leaves behind beside it. -/
structure State where
  registry : Registry
  /-- Where each parameter was used first. -/
  introduced : List (String × Span) := []

/-- A part of the build. What it has recorded stays recorded when it fails. -/
abbrev Build := ExceptT TypeFault (StateM State)

/-- Run a step on the registry. -/
def withRegistry (f : Registry → Changed Registry) (span : Span) : Build Unit := do
  let state ← get
  match f state.registry with
  | .ok registry => set { state with registry := registry }
  | .error e registry =>
    set { state with registry := registry }
    throw (.ofParameter e span)

/-- A reference to a parameter. The types of the node are those the parameter had before. -/
def reference (name : String) (producer : Bool) (span : Span) : Build Node := do
  modify fun state => { state with registry := state.registry.mention name }
  let types := (← get).registry.typesOf name
  withRegistry (·.recordUse name producer) span
  modify fun state =>
    if (state.introduced.lookup name).isSome then state
    else { state with introduced := state.introduced ++ [(name, span)] }
  return .parameter name producer span types

/-- Stabilize and fold a new operation. -/
def complete (formatters : Formatters) (n : Node) : Build Node := do
  let state ← get
  let stable := n.stabilize state.registry
  set { state with registry := stable.registry }
  match stable.fault with
  | some fault => throw fault
  | none =>
    match stable.subject.foldRoot formatters with
    | .ok n => return n
    | .error fault => throw fault

/-- The value of a literal. -/
def valueOf : Literal → Value
  | .int n => .int n
  | .float x => .float x
  | .boolean b => .boolean b

mutual

/-- Build the typed tree of an expression. Spans are carried over to the source. A name at
a placeholder is the constant that was taken out there; a name with arguments is a builtin
function, or, without arguments, a parameter that is read from a producer. -/
def build (extraction : Extraction) (formatters : Formatters) : Expr → Build Node
  | .literal l span => return .constant (valueOf l) (extraction.sourceSpan span)
  | .name n span =>
    match extraction.excerptAt? span with
    | some x => return .constant x.value (extraction.sourceSpan span)
    | none => reference n false (extraction.sourceSpan span)
  | .negate e span => do
    let x ← build extraction formatters e
    complete formatters (.ofOperation .negate [x] (extraction.sourceSpan span))
  | .binary op l r span => do
    let x ← build extraction formatters l
    let y ← build extraction formatters r
    complete formatters (.ofOperation (.binary op) [x, y] (extraction.sourceSpan span))
  | .call f es span =>
    match Builtin.ofName? f with
    | some b => do
      if b.acceptsArity es.length then
        let xs ← buildAll extraction formatters es
        complete formatters (.ofOperation (.call b) xs (extraction.sourceSpan span))
      else
        throw ⟨.arityMismatch f b.arityText es.length, extraction.sourceSpan span⟩
    | none =>
      if es.isEmpty then reference f true (extraction.sourceSpan span)
      else throw ⟨.unknownFunction f, extraction.sourceSpan span⟩

def buildAll (extraction : Extraction) (formatters : Formatters) : List Expr → Build (List Node)
  | [] => return []
  | e :: es => do
    let x ← build extraction formatters e
    let xs ← buildAll extraction formatters es
    return x :: xs

end

/-! ### Defaults -/

mutual

/-- Whether the first reference to a parameter below a node is a direct operand of `&` or `|`;
`none` if there is no reference. -/
def logicalAtFirst? (name : String) : Node → Option Bool
  | .operation op operands _ _ =>
    logicalAtFirstAmong? name (match op with
      | .binary (.logical _) => true
      | _ => false) operands
  | _ => none

def logicalAtFirstAmong? (name : String) (logical : Bool) : List Node → Option Bool
  | [] => none
  | x :: xs =>
    if x.parameterName? = some name then some logical
    else match logicalAtFirst? name x with
      | some b => some b
      | none => logicalAtFirstAmong? name logical xs

end

/-- The type of a parameter that nothing decides: Boolean for an operand of `&` or `|` that may
be one, and otherwise the first that is possible, numbers before strings before Booleans before
byte sequences. -/
def presumedType (types : TypeSet) (logical : Bool) : ValueType :=
  if logical && types.has .boolean then .boolean else types.toList.head?.getD .numeric

/-- Give an unresolved parameter its default, at its first reference if there is one. -/
def assume (p : OpenParameter) (t : ValueType) (root : Node) (r : Registry) : Narrowed Node :=
  match root.pinFirst? p.name t r with
  | some narrowed => narrowed
  | none =>
    match r.pin p.name t with
    | .ok r => ⟨root, r, none⟩
    | .error e r => ⟨root, r, some (.ofParameter e default)⟩

/-- A fault met while types were determined, with the default that brought it about, if one
did. -/
structure Dispute where
  fault : TypeFault
  assumed : Option (String × ValueType) := none

/-- Propagate types and settle open choices in turn. Each default leaves fewer types in the
registry. -/
def determine (root : Node) (r : Registry) : Except Dispute (Node × Registry) :=
  let spread := root.propagate r
  match spread.fault with
  | some fault => .error ⟨fault, none⟩
  | none =>
    match spread.registry.firstUndecided? with
    | none => .ok (spread.subject, spread.registry)
    | some p =>
      let logical := (logicalAtFirst? p.name spread.subject).getD false
      let t := presumedType p.types logical
      let next := assume p t spread.subject spread.registry
      match next.fault with
      | some fault => .error ⟨fault, some (p.name, t)⟩
      | none =>
        if next.registry.weight < r.weight then determine next.subject next.registry
        else .ok (next.subject, next.registry)
termination_by r.weight

/-! ### Preferences -/

/-- Record a preference of a node that is itself a numeric parameter. -/
def preferAt (wanted : Preference) (n : Node) (r : Registry) : Except TypeFault Registry :=
  match n with
  | .parameter name _ span types =>
    if types.single? = some .numeric then
      (r.prefer name wanted).toExcept.mapError fun e => .ofParameter e span
    else .ok r
  | _ => .ok r

/-- The preference that an operation has for its operands: builtin functions have their own, and
shifts and `&` and `|` between numbers want integers. -/
def operandPreference (op : Operation) (type : Option ValueType) : Preference :=
  match op with
  | .call f => f.preference
  | .binary (.shift _) => .integer
  | .binary (.logical _) => if type = some .numeric then .integer else .unset
  | _ => .unset

mutual

/-- Record the preferences of a tree, those of an operation before those below it. -/
def preferences (n : Node) (r : Registry) : Except TypeFault Registry :=
  match n with
  | .operation op operands _ types => do
    let wanted := operandPreference op types.single?
    let r ← operands.foldlM (fun r x => preferAt wanted x r) r
    preferencesAll operands r
  | _ => .ok r

def preferencesAll (operands : List Node) (r : Registry) : Except TypeFault Registry :=
  match operands with
  | [] => .ok r
  | x :: xs => do
    let r ← preferences x r
    preferencesAll xs r

end

/-! ### The whole -/

/-- A fault as it is reported. If it concerns a parameter that was used before, it says where. -/
def report (source : String) (state : State) (fault : TypeFault) : TypeFailure :=
  let context := match fault.cause with
    | .invalid _ (some name) =>
      match state.introduced.lookup name with
      | some first =>
        if first = fault.span then [] else [.introducedAt ("parameter '" ++ name ++ "'") first]
      | none => []
    | _ => []
  { fault := fault, source := source, context := context }

/-- A fault met while types were determined, as it is reported. -/
def Dispute.report (source : String) (state : State) (d : Dispute) : TypeFailure :=
  let failure := Analysis.report source state d.fault
  match d.assumed with
  | none => failure
  | some (name, t) =>
    match state.introduced.lookup name with
    | some first => { failure with context := failure.context ++ [.presumedAt t.name first] }
    | none => failure

/-- Analyze an expression that was read from the skeleton of `extraction`. Spans and faults refer
to `source`, the text before literals were taken out. -/
def ofExpr (e : Expr) (extraction : Extraction) (source : String) (registry : Registry)
    (formatters : Formatters) : Except TypeFailure Analysis := do
  let (built, state) := (build extraction formatters e).run { registry := registry }
  let root ← built.mapError (report source state)
  let (root, registry) ← (determine root state.registry).mapError (Dispute.report source state)
  if root.type?.isNone then
    throw (report source state
      (.invalid ("the expression could be any of " ++ root.types.text) root.span))
  let registry ← (preferences root registry).mapError (report source state)
  match registry.fix with
  | .ok parameters => return ⟨root, parameters⟩
  | .error e =>
    throw ⟨.ofParameter e ((state.introduced.lookup e.name).getD default), source, []⟩

end Analysis
end TolerantExpr
