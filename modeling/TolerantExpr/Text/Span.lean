/-!
# Spans

A span is a half-open range of byte offsets into the UTF-8 form of a text. Every position the
library reports is a span, and every offset is counted in bytes, never in characters.
-/

namespace TolerantExpr

/-- A range of byte offsets, from `start` up to but without `stop`. -/
structure Span where
  start : Nat
  stop : Nat
deriving DecidableEq, Repr, Inhabited

namespace Span

/-- The smallest span that covers both. -/
def join (a b : Span) : Span := ⟨min a.start b.start, max a.stop b.stop⟩

/-- The empty span at an offset. -/
def point (offset : Nat) : Span := ⟨offset, offset⟩

@[simp] theorem start_join (a b : Span) : (a.join b).start = min a.start b.start := rfl
@[simp] theorem stop_join (a b : Span) : (a.join b).stop = max a.stop b.stop := rfl

end Span

/-- The number of bytes that a run of characters takes in UTF-8. -/
def byteLength : List Char → Nat
  | [] => 0
  | c :: cs => c.utf8Size + byteLength cs

@[simp] theorem byteLength_nil : byteLength [] = 0 := rfl

@[simp] theorem byteLength_cons (c : Char) (cs : List Char) :
    byteLength (c :: cs) = c.utf8Size + byteLength cs := rfl

@[simp] theorem byteLength_append (xs ys : List Char) :
    byteLength (xs ++ ys) = byteLength xs + byteLength ys := by
  induction xs with
  | nil => simp
  | cons c cs ih => simp [ih, Nat.add_assoc]

namespace Span

/-- The span of a run of characters that begins at a byte offset. -/
def ofText (start : Nat) (text : List Char) : Span := ⟨start, start + byteLength text⟩

/-- The characters of a text that a span covers: those that start at or after `start` and
before `stop`, for a text whose first character sits at byte `offset`. -/
def cut (span : Span) : Nat → List Char → List Char
  | _, [] => []
  | offset, c :: cs =>
    let rest := span.cut (offset + c.utf8Size) cs
    if span.start ≤ offset ∧ offset < span.stop then c :: rest else rest

/-- The part of a text that a span covers. -/
def textIn (span : Span) (source : String) : String := String.ofList (span.cut 0 source.toList)

end Span
end TolerantExpr
