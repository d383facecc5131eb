import TolerantExpr.Analysis
import TolerantExpr.Builtin
import TolerantExpr.CommandLine
import TolerantExpr.Diagnostic
import TolerantExpr.Engine.Basic
import TolerantExpr.Engine.Failure
import TolerantExpr.Engine.Options
import TolerantExpr.Evaluation.Error
import TolerantExpr.Evaluation.Operation
import TolerantExpr.Expr.Basic
import TolerantExpr.Expr.Failure
import TolerantExpr.Expr.Parse
import TolerantExpr.Expr.Token
import TolerantExpr.Main
import TolerantExpr.Node.Basic
import TolerantExpr.Node.Fault
import TolerantExpr.Node.Folding
import TolerantExpr.Node.Narrowing
import TolerantExpr.Number.Basic
import TolerantExpr.Number.Binary64
import TolerantExpr.Number.Reading
import TolerantExpr.Number.Shortest
import TolerantExpr.Operator.Basic
import TolerantExpr.Operator.Overload
import TolerantExpr.Parameter.Basic
import TolerantExpr.Parameter.Registry
import TolerantExpr.Program.Call
import TolerantExpr.Program.Code
import TolerantExpr.Proofs.CommandLine
import TolerantExpr.Proofs.Computations
import TolerantExpr.Proofs.Engine.Bindings
import TolerantExpr.Proofs.Engine.Cache
import TolerantExpr.Proofs.Engine.Numerals
import TolerantExpr.Proofs.Engine.Polynomials
import TolerantExpr.Proofs.Engine.Positions
import TolerantExpr.Proofs.Engine.Producers
import TolerantExpr.Proofs.Engine.Seeding
import TolerantExpr.Proofs.Engine.Sessions
import TolerantExpr.Proofs.Engine.Slots
import TolerantExpr.Proofs.Evaluation.Casts
import TolerantExpr.Proofs.Evaluation.Comparisons
import TolerantExpr.Proofs.Evaluation.Folding
import TolerantExpr.Proofs.Evaluation.Handover
import TolerantExpr.Proofs.Evaluation.Meaning
import TolerantExpr.Proofs.Evaluation.Modes
import TolerantExpr.Proofs.Evaluation.Programs
import TolerantExpr.Proofs.Evaluation.Signatures
import TolerantExpr.Proofs.Evaluation.Soundness
import TolerantExpr.Proofs.Evaluation.Tolerances
import TolerantExpr.Proofs.Lists
import TolerantExpr.Proofs.Numbers.BitStrings
import TolerantExpr.Proofs.Numbers.Doubles
import TolerantExpr.Proofs.Numbers.Integers
import TolerantExpr.Proofs.Numbers.Values
import TolerantExpr.Proofs.Parsing.Breaks
import TolerantExpr.Proofs.Parsing.Completeness
import TolerantExpr.Proofs.Parsing.Correctness
import TolerantExpr.Proofs.Parsing.Depths
import TolerantExpr.Proofs.Parsing.Equations
import TolerantExpr.Proofs.Parsing.Grammar
import TolerantExpr.Proofs.Parsing.Layouts
import TolerantExpr.Proofs.Parsing.Nesting
import TolerantExpr.Proofs.Parsing.Numerals
import TolerantExpr.Proofs.Parsing.Positions
import TolerantExpr.Proofs.Parsing.Soundness
import TolerantExpr.Proofs.Parsing.Spellings
import TolerantExpr.Proofs.Parsing.Written
import TolerantExpr.Proofs.Quotation.Lookup
import TolerantExpr.Proofs.Quotation.Lossless
import TolerantExpr.Proofs.Quotation.Offsets
import TolerantExpr.Proofs.Quotation.Origins
import TolerantExpr.Proofs.Quotation.Placeholders
import TolerantExpr.Proofs.Quotation.Readings
import TolerantExpr.Proofs.Quotation.Renderings
import TolerantExpr.Proofs.Quotation.RoundTrip
import TolerantExpr.Proofs.Quotation.Skeletons
import TolerantExpr.Proofs.Quotation.Splitting
import TolerantExpr.Proofs.Text.Boundaries
import TolerantExpr.Proofs.Typing.Analyses
import TolerantExpr.Proofs.Typing.Building
import TolerantExpr.Proofs.Typing.Completeness
import TolerantExpr.Proofs.Typing.Determination
import TolerantExpr.Proofs.Typing.Executions
import TolerantExpr.Proofs.Typing.Faults
import TolerantExpr.Proofs.Typing.Folding
import TolerantExpr.Proofs.Typing.Growth
import TolerantExpr.Proofs.Typing.Names
import TolerantExpr.Proofs.Typing.Narrowing
import TolerantExpr.Proofs.Typing.NormalForms
import TolerantExpr.Proofs.Typing.Orders
import TolerantExpr.Proofs.Typing.Outlines
import TolerantExpr.Proofs.Typing.Overloads
import TolerantExpr.Proofs.Typing.Polynomials
import TolerantExpr.Proofs.Typing.Positions
import TolerantExpr.Proofs.Typing.Preferences
import TolerantExpr.Proofs.Typing.Presumptions
import TolerantExpr.Proofs.Typing.Propagation
import TolerantExpr.Proofs.Typing.Reanalysis
import TolerantExpr.Proofs.Typing.Records
import TolerantExpr.Proofs.Typing.Registries
import TolerantExpr.Proofs.Typing.Representations
import TolerantExpr.Proofs.Typing.Sets
import TolerantExpr.Proofs.Typing.Tables
import TolerantExpr.Proofs.Typing.Termination
import TolerantExpr.Proofs.Typing.Trees
import TolerantExpr.Quotation.Escape
import TolerantExpr.Quotation.Extraction
import TolerantExpr.Text.Alphanumeric
import TolerantExpr.Text.Blank
import TolerantExpr.Text.CharSet
import TolerantExpr.Text.Quoted
import TolerantExpr.Text.Span
import TolerantExpr.Tolerance
import TolerantExpr.Value.Basic
import TolerantExpr.Value.Bytes
import TolerantExpr.Value.Kind
import TolerantExpr.Proofs.Numbers.Shifts
import TolerantExpr.Proofs.Evaluation.Bounds
import TolerantExpr.Proofs.Quotation.Pairs
