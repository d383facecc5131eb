import TolerantExpr.Quotation.Escape
import TolerantExpr.Text.Alphanumeric
import TolerantExpr.Text.Span
import TolerantExpr.Value.Basic

/-!
# Taking literals out of a text

String and byte literals never reach the parser. Each is taken out of the source and replaced by a
name of its own, a placeholder with a blank on either side. What is left is the skeleton, and the
excerpts remember what was taken out and where. A literal is a byte sequence if a `b` that is no
part of a longer word stands right before it.

A delimiter closes a literal if the run of escape characters before it has even length. A literal
that is never closed is left in the text as it is, with everything after it.
-/

namespace TolerantExpr

/-- A literal taken out of a text. -/
structure Excerpt where
  placeholder : String
  value : Value
  /-- Where the literal stands in the source, with its delimiters and prefix. -/
  sourceSpan : Span
  /-- Where the placeholder stands in the skeleton, without the blanks around it. -/
  placeholderSpan : Span

/-- A text without its literals: the skeleton that is left, and what was taken out, in order. -/
structure Extraction where
  skeleton : String
  excerpts : List Excerpt

/-- The characters that delimit and escape. -/
structure Delimiters where
  delimiter : Char := '"'
  escape : Char := '\\'
deriving DecidableEq, Repr

namespace Extraction

/-- The name that stands for the literal of a number. -/
def placeholderName (index : Nat) : String := "__const" ++ toString index

/-- Split a text at the delimiter that closes a literal, into the body before it and the rest
after it. `odd` tells whether the escapes right before are odd in number. -/
def splitClose (d : Delimiters) (odd : Bool) : List Char → Option (List Char × List Char)
  | [] => none
  | c :: cs =>
    if c = d.delimiter ∧ odd = false then some ([], cs)
    else (splitClose d (c = d.escape && !odd) cs).map fun (body, rest) => (c :: body, rest)

theorem length_of_splitClose {d : Delimiters} {odd : Bool} {cs body rest : List Char}
    (h : splitClose d odd cs = some (body, rest)) : rest.length < cs.length := by
  induction cs generalizing odd body rest with
  | nil => simp [splitClose] at h
  | cons c cs ih =>
    rw [splitClose] at h
    split at h
    · simp only [Option.some.injEq, Prod.mk.injEq] at h
      simp [← h.2]
    · simp only [Option.map_eq_some_iff, Prod.exists] at h
      obtain ⟨b, r, hr, he⟩ := h
      simp only [Prod.mk.injEq] at he
      have := ih hr
      rw [← he.2, List.length_cons]
      omega

/-- Whether a delimiter opens a byte literal, from the characters before it, the nearest first:
a `b` that no letter, numeral or underscore precedes. -/
def opensBytes : List Char → Bool
  | 'b' :: c :: _ => !Text.isWordChar c
  | ['b'] => true
  | _ => false

/-- What has been read and written so far, the last character or excerpt first. -/
structure Progress where
  /-- What has been read of the source. -/
  before : List Char := []
  /-- What has been written of the skeleton. -/
  output : List Char := []
  excerpts : List Excerpt := []

/-- Take in one literal, with the given body. The `b` of a byte literal has already been copied
and is taken back. -/
def Progress.literal (d : Delimiters) (p : Progress) (body : List Char) : Progress :=
  let isBytes := opensBytes p.before
  let output := if isBytes then p.output.drop 1 else p.output
  let start := byteLength (if isBytes then p.before.drop 1 else p.before)
  let before := d.delimiter :: (body.reverse ++ d.delimiter :: p.before)
  let placeholder := placeholderName p.excerpts.length
  let placeholderStart := byteLength output + 1
  let value : Value :=
    if isBytes then .bytes (Quotation.decodeBytes d.delimiter d.escape body)
    else .string (Quotation.decodeString d.delimiter d.escape body)
  { before := before
    output := ' ' :: (placeholder.toList.reverse ++ ' ' :: output)
    excerpts :=
      { placeholder := placeholder
        value := value
        sourceSpan := ⟨start, byteLength before⟩
        placeholderSpan := ⟨placeholderStart, placeholderStart + byteLength placeholder.toList⟩ }
      :: p.excerpts }

/-- Read on from where things stand. -/
def run (d : Delimiters) (p : Progress) (cs : List Char) : Progress :=
  match cs with
  | [] => p
  | c :: cs =>
    if c = d.delimiter then
      match _closed : splitClose d false cs with
      | none => { p with output := (c :: cs).reverse ++ p.output }
      | some (body, rest) => run d (p.literal d body) rest
    else run d { p with before := c :: p.before, output := c :: p.output } cs
termination_by cs.length
decreasing_by
  · have := length_of_splitClose _closed
    simp only [List.length_cons]
    omega
  · simp

end Extraction

/-- Replace every literal of a text by a placeholder. -/
def Extraction.ofText (d : Delimiters) (text : String) : Extraction :=
  let p := run d {} text.toList
  { skeleton := String.ofList p.output.reverse, excerpts := p.excerpts.reverse }

namespace Extraction

/-- The excerpt whose placeholder takes up exactly the given span of the skeleton. A name that
only looks like a placeholder stands elsewhere. -/
def excerptAt? (e : Extraction) (span : Span) : Option Excerpt :=
  e.excerpts.find? fun x => x.placeholderSpan = span

/-- Where an offset of the skeleton is in the source, for excerpts all of which come after the
offsets `written` and `read` of the two. Up to the start of a placeholder an offset belongs to
where its literal starts, and up to the end of its padding to where the literal ends. -/
def offsetFrom (position : Nat) : (written read : Nat) → List Excerpt → Nat
  | written, read, [] => read + (position - written)
  | written, read, x :: xs =>
    if position < x.placeholderSpan.start - 1 then read + (position - written)
    else if position ≤ x.placeholderSpan.start then x.sourceSpan.start
    else if position ≤ x.placeholderSpan.stop + 1 then x.sourceSpan.stop
    else offsetFrom position (x.placeholderSpan.stop + 1) x.sourceSpan.stop xs

/-- Where an offset of the skeleton is in the source. -/
def sourceOffset (e : Extraction) (position : Nat) : Nat := offsetFrom position 0 0 e.excerpts

/-- Where a span of the skeleton is in the source. -/
def sourceSpan (e : Extraction) (span : Span) : Span :=
  ⟨e.sourceOffset span.start, e.sourceOffset span.stop⟩

end Extraction
end TolerantExpr
