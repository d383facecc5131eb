import TolerantExpr.Expr.Failure
import TolerantExpr.Expr.Token

/-!
# Parsing

The grammar in terms of tokens, loosest first:

* `|`, then `&`, then `=` and `!=`, then the orderings, then the shifts, then `+` and `-`, then
  `*` and `/`; all of them group to the left;
* unary minus, which may stand before any operand;
* `^`, which groups to the right and takes a unary minus as its right operand;
* numbers, Booleans, names, calls, and expressions in parentheses.

The parser looks at one token at a time and never goes back, so it fails at the first token that
no expression can have there. Each function returns what it read and the tokens that are left,
which are fewer than it was given.
-/

namespace TolerantExpr

/-- What would have been right where a text went wrong. -/
inductive Expectation where
  /-- At the start of an expression. -/
  | expression
  /-- After an operator. -/
  | operand
  /-- After an operand that no parenthesis encloses. -/
  | endOrOperator
  /-- After an operand in parentheses. -/
  | operator
deriving DecidableEq, Repr

def Expectation.describe : Expectation → String
  | expression => "expression"
  | operand => "expression, literal or identifier"
  | endOrOperator => "end of input or operator"
  | operator => "operator"

namespace Expr

/-- The parser stopped: what it expected, and the tokens from there on. -/
structure Stuck where
  expected : Expectation
  rest : List Lexeme

/-- Something read from the front of `ts`, with the tokens that are left. -/
abbrev Read (α : Type) (ts : List Lexeme) :=
  Except Stuck { r : α × List Lexeme // r.2.length < ts.length }

/-- As `Read`, where nothing need be taken from the front of `ts`. -/
abbrev ReadSome (α : Type) (ts : List Lexeme) :=
  Except Stuck { r : α × List Lexeme // r.2.length ≤ ts.length }

mutual

/-- A number, a Boolean, a name, a call or an expression in parentheses. -/
def primary (expected : Expectation) (ts : List Lexeme) : Read Expr ts :=
  match ts with
  | ⟨.int n, text, start⟩ :: rest =>
    .ok ⟨(literal (.int (Int64.ofNat n)) (.ofText start text), rest), by simp⟩
  | ⟨.float x, text, start⟩ :: rest =>
    .ok ⟨(literal (.float x) (.ofText start text), rest), by simp⟩
  | ⟨.boolean b, text, start⟩ :: rest =>
    .ok ⟨(literal (.boolean b) (.ofText start text), rest), by simp⟩
  | ⟨.name f, _, start⟩ :: ⟨.leftParen, _, _⟩ :: inner => do
    let ⟨((as, stop), rest), h⟩ ← arguments inner
    return ⟨(call f as ⟨start, stop⟩, rest), by simp at h ⊢; omega⟩
  | ⟨.name n, text, start⟩ :: rest => .ok ⟨(name n (.ofText start text), rest), by simp⟩
  | ⟨.leftParen, _, _⟩ :: inner => do
    let ⟨(e, after), h⟩ ← expression 0 .expression inner
    match after, h with
    | ⟨.rightParen, _, _⟩ :: rest, h => return ⟨(e, rest), by simp at h ⊢; omega⟩
    | after, _ => throw ⟨.operator, after⟩
  | ts => .error ⟨expected, ts⟩
termination_by (ts.length, 0)

/-- An operand of the binary operators: a unary minus before an operand, or a primary with the
power it is raised to. -/
def operand (expected : Expectation) (ts : List Lexeme) : Read Expr ts :=
  match ts with
  | ⟨.operator (.arithmetic .sub), text, start⟩ :: rest => do
    let ⟨(e, after), h⟩ ← operand .operand rest
    return ⟨(negate e ((Span.ofText start text).join e.span), after), by simp at h ⊢; omega⟩
  | ts => do
    let ⟨(base, after), h⟩ ← primary expected ts
    match after, h with
    | ⟨.operator (.arithmetic .pow), _, _⟩ :: rest, h => do
      have h : rest.length < ts.length := Nat.lt_of_succ_lt h
      let ⟨(e, after), h'⟩ ← operand .operand rest
      return ⟨(binary (.arithmetic .pow) base e (base.span.join e.span), after), by
        simp at h' ⊢; omega⟩
    | after, h => return ⟨(base, after), h⟩
termination_by (ts.length, 1)

/-- An expression whose operators outside parentheses bind at least as tightly as `least`. -/
def expression (least : Nat) (expected : Expectation) (ts : List Lexeme) : Read Expr ts := do
  let ⟨(e, after), h⟩ ← operand expected ts
  let ⟨r, h'⟩ ← operators least e after
  return ⟨r, by simp at h; omega⟩
termination_by (ts.length, 2)

/-- The operators that follow an expression, with their right operands. -/
def operators (least : Nat) (left : Expr) (ts : List Lexeme) : ReadSome Expr ts :=
  match ts with
  | ⟨.operator op, text, start⟩ :: rest =>
    if least ≤ op.precedence then do
      let ⟨(right, after), h⟩ ← expression (op.precedence + 1) .operand rest
      have h : after.length < rest.length := h
      let ⟨r, h'⟩ ← operators least (binary op left right (left.span.join right.span)) after
      return ⟨r, by simp at h ⊢; omega⟩
    else .ok ⟨(left, ⟨.operator op, text, start⟩ :: rest), by simp⟩
  | ts => .ok ⟨(left, ts), by simp⟩
termination_by (ts.length, 0)

/-- The arguments of a call, from behind its left parenthesis on, with the place where the right
one ends. -/
def arguments (ts : List Lexeme) : Read (List Expr × Nat) ts :=
  match ts with
  | ⟨.rightParen, text, start⟩ :: rest =>
    .ok ⟨(([], (Span.ofText start text).stop), rest), by simp⟩
  | ts => do
    let ⟨(e, after), h⟩ ← expression 0 .expression ts
    have h : after.length < ts.length := h
    let ⟨((es, stop), rest), h'⟩ ← moreArguments after
    return ⟨((e :: es, stop), rest), by simp at h h' ⊢; omega⟩
termination_by (ts.length, 3)

/-- The arguments that follow the first one. -/
def moreArguments (ts : List Lexeme) : Read (List Expr × Nat) ts :=
  match ts with
  | ⟨.rightParen, text, start⟩ :: rest =>
    .ok ⟨(([], (Span.ofText start text).stop), rest), by simp⟩
  | ⟨.comma, _, _⟩ :: rest => do
    let ⟨(e, after), h⟩ ← expression 0 .expression rest
    have h : after.length < rest.length := h
    let ⟨((es, stop), rest), h'⟩ ← moreArguments after
    return ⟨((e :: es, stop), rest), by simp at h h' ⊢; omega⟩
  | ts => .error ⟨.operator, ts⟩
termination_by (ts.length, 0)

end

/-- Read tokens as one expression. -/
def ofLexemes (ts : List Lexeme) : Except Stuck Expr := do
  let ⟨(e, rest), _⟩ ← expression 0 .expression ts
  match rest with
  | [] => return e
  | rest => throw ⟨.endOrOperator, rest⟩

end Expr

/-! ### From text -/

/-- The nesting of parentheses that is allowed unless an option says otherwise. -/
def defaultMaxDepth : Nat := 256

/-- Where the parentheses of a text that begins at a byte offset go deeper than the limit for the
first time, if they do. A right parenthesis without its partner does not count. -/
def tooDeepAt? (limit : Nat) : (depth offset : Nat) → List Char → Option Nat
  | _, _, [] => none
  | depth, offset, c :: cs =>
    if c = '(' then
      if limit < depth + 1 then some offset else tooDeepAt? limit (depth + 1) (offset + c.utf8Size) cs
    else if c = ')' then tooDeepAt? limit (depth - 1) (offset + c.utf8Size) cs
    else tooDeepAt? limit depth (offset + c.utf8Size) cs

/-- An integer that 64 bits cannot hold. -/
def Lexeme.isOversized (l : Lexeme) : Bool :=
  match l.token with
  | .int n => Int64.maxValue.toInt < n
  | _ => false

/-- A character as it reads where something else was expected. -/
def foundText : List Lexeme → String
  | ⟨_, c :: _, _⟩ :: _ => "'" ++ c.toString ++ "'"
  | _ => "end of input"

/-- Read a text as an expression. The nesting of its parentheses is checked before anything else,
and the range of its integers after everything else, from left to right. -/
def Expr.parse (source : String) (maxDepth : Nat) : Except ParseFailure Expr :=
  let fail := fun (cause : ParseCause) (span : Span) =>
    Except.error { cause := cause, source := source, span := span }
  match tooDeepAt? maxDepth 0 0 source.toList with
  | some offset => fail (.tooDeep (maxDepth + 1) maxDepth) ⟨offset, offset + 1⟩
  | none =>
    let ts := Token.scan 0 source.toList
    match Expr.ofLexemes ts with
    | .error stuck =>
      let offset := match stuck.rest with
        | l :: _ => l.start
        | [] => byteLength source.toList
      fail (.unexpected stuck.expected.describe (foundText stuck.rest)) (.point offset)
    | .ok e =>
      match ts.find? Lexeme.isOversized with
      | some l => fail (.invalidNumber (String.ofList l.text)) l.span
      | none => .ok e

end TolerantExpr
