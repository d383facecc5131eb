import TolerantExpr.Quotation.Extraction
import Mathlib.Data.List.Basic

/-!
# How a text falls into literals

A text is a first gap and then literals, each with the gap after it. The skeleton keeps the gaps
and has a placeholder for each literal, the excerpts keep the literals. Where literals begin and end
is a matter of the text alone: every text falls apart in this way, and what extraction makes of it
can be read off from the parts.
-/

namespace TolerantExpr

@[simp] theorem byteLength_reverse (cs : List Char) : byteLength cs.reverse = byteLength cs := by
  induction cs with
  | nil => rfl
  | cons c cs ih => simp [ih, Nat.add_comm]

namespace Extraction

/-- A literal as it is written, and the gap after it. -/
structure Part where
  value : Value
  written : List Char
  gap : List Char

/-- The text that falls into a first gap and parts. -/
def textOf (gap : List Char) (parts : List Part) : List Char :=
  gap ++ parts.flatMap fun p => p.written ++ p.gap

/-- A skeleton with these gaps, from the placeholder with the given number on. -/
def skeletonFrom (index : Nat) (gap : List Char) : List (List Char) → List Char
  | [] => gap
  | next :: gaps =>
    gap ++ ' ' :: ((placeholderName index).toList ++ ' ' :: skeletonFrom (index + 1) next gaps)

/-- The excerpt of a literal that begins at the byte offset `read` of the source, its placeholder at
the offset `written` of the skeleton. -/
def Part.excerpt (index read written : Nat) (p : Part) : Excerpt where
  placeholder := placeholderName index
  value := p.value
  sourceSpan := .ofText read p.written
  placeholderSpan := .ofText written (placeholderName index).toList

/-- The excerpts of the parts, from the placeholder with the given number on, where the gap begins
at the offset `read` of the source and at the offset `written` of the skeleton. -/
def excerptsFrom (index read written : Nat) (gap : List Char) : List Part → List Excerpt
  | [] => []
  | p :: parts =>
    let x := p.excerpt index (read + byteLength gap) (written + byteLength gap + 1)
    x :: excerptsFrom (index + 1) x.sourceSpan.stop (x.placeholderSpan.stop + 1) p.gap parts

/-- The excerpt of a part, behind the parts that are done. -/
theorem getElem?_excerptsFrom (index read written : Nat) (gap : List Char) (done : List Part)
    (p : Part) (rest : List Part) :
    (excerptsFrom index read written gap (done ++ p :: rest))[done.length]? =
      some (p.excerpt (index + done.length) (read + byteLength (textOf gap done))
        (written + byteLength (skeletonFrom index gap (done.map Part.gap)) + 1)) := by
  induction done generalizing index read written gap with
  | nil => simp [excerptsFrom, textOf, skeletonFrom]
  | cons q done ih =>
    have hindex : index + 1 + done.length = index + (done.length + 1) := by omega
    have hblank : ' '.utf8Size = 1 := by decide
    rw [List.cons_append, excerptsFrom, List.length_cons, List.getElem?_cons_succ, ih, hindex]
    simp [Part.excerpt, Span.ofText, textOf, skeletonFrom, hblank]
    omega

theorem length_excerptsFrom (index read written : Nat) (gap : List Char) (parts : List Part) :
    (excerptsFrom index read written gap parts).length = parts.length := by
  induction parts generalizing index read written gap with
  | nil => rfl
  | cons p parts ih => simp [excerptsFrom, ih]

/-! ### Literals and gaps -/

/-- The first delimiter behind a body that is not part of an escape is the one after it. -/
def Closes (d : Delimiters) (body : List Char) : Prop :=
  ∀ rest, splitClose d false (body ++ d.delimiter :: rest) = some (body, rest)

/-- A literal, written behind a text: its value is what its body decodes to. -/
inductive IsLiteral (d : Delimiters) (before : List Char) : Value → List Char → Prop where
  | string {body : List Char} (hbody : Closes d body)
    (hbefore : opensBytes before.reverse = false) :
    IsLiteral d before (.string (Quotation.decodeString d.delimiter d.escape body))
      (d.delimiter :: (body ++ [d.delimiter]))
  | bytes {body : List Char} (hbody : Closes d body)
    (hbefore : opensBytes ('b' :: before.reverse) = true) :
    IsLiteral d before (.bytes (Quotation.decodeBytes d.delimiter d.escape body))
      ('b' :: d.delimiter :: (body ++ [d.delimiter]))

/-- A first gap and parts, behind a text: only in the last gap there may be a delimiter, and that
is never closed. -/
inductive Splits (d : Delimiters) : (before gap : List Char) → List Part → Prop where
  | done {before gap : List Char} (h : d.delimiter ∉ gap) : Splits d before gap []
  | unclosed {before gap rest : List Char} (h : d.delimiter ∉ gap)
    (hrest : splitClose d false rest = none) : Splits d before (gap ++ d.delimiter :: rest) []
  | literal {before gap : List Char} {p : Part} {parts : List Part} (h : d.delimiter ∉ gap)
    (hp : IsLiteral d (before ++ gap) p.value p.written)
    (rest : Splits d (before ++ gap ++ p.written) p.gap parts) : Splits d before gap (p :: parts)

/-! ### Running the extraction -/

section Run

variable {d : Delimiters} {p : Progress} {c : Char} {cs : List Char}

theorem run_nil : run d p [] = p := by rw [run]

theorem run_skip (h : c ≠ d.delimiter) :
    run d p (c :: cs) = run d { p with before := c :: p.before, output := c :: p.output } cs := by
  rw [run, if_neg h]

theorem run_unclosed (h : splitClose d false cs = none) :
    run d p (d.delimiter :: cs) =
      { p with output := (d.delimiter :: cs).reverse ++ p.output } := by
  rw [run, if_pos rfl]
  split
  · rfl
  · rename_i hclosed
    rw [h] at hclosed
    cases hclosed

theorem run_closed {body rest : List Char} (h : splitClose d false cs = some (body, rest)) :
    run d p (d.delimiter :: cs) = run d (p.literal d body) rest := by
  rw [run, if_pos rfl]
  split
  · rename_i hclosed
    rw [h] at hclosed
    cases hclosed
  · rename_i hclosed
    rw [h] at hclosed
    cases hclosed
    rfl

/-- A gap is copied. -/
theorem run_gap {gap : List Char} (h : d.delimiter ∉ gap) :
    run d p (gap ++ cs) =
      run d { p with before := gap.reverse ++ p.before, output := gap.reverse ++ p.output } cs := by
  induction gap generalizing p with
  | nil => rfl
  | cons c gap ih =>
    rw [List.mem_cons, not_or] at h
    rw [List.cons_append, run_skip (Ne.symm h.1), ih h.2]
    simp

/-- What has been read and written after a gap and a literal. -/
def Progress.part (p : Progress) (gap : List Char) (q : Part) : Progress where
  before := q.written.reverse ++ (gap.reverse ++ p.before)
  output := ' ' :: ((placeholderName p.excerpts.length).toList.reverse ++ ' ' ::
    (gap.reverse ++ p.output))
  excerpts :=
    q.excerpt p.excerpts.length (byteLength p.before + byteLength gap)
      (byteLength p.output + byteLength gap + 1) :: p.excerpts

/-- A literal goes over to the excerpts, and leaves its placeholder. -/
theorem run_part (hb : d.delimiter ≠ 'b') {gap : List Char} {q : Part} (h : d.delimiter ∉ gap)
    (hq : IsLiteral d (p.before.reverse ++ gap) q.value q.written) :
    run d p (gap ++ (q.written ++ cs)) = run d (p.part gap q) cs := by
  obtain ⟨value, written, next⟩ := q
  rw [run_gap h]
  cases hq with
  | @string body hbody hbefore =>
    rw [List.reverse_append, List.reverse_reverse] at hbefore
    rw [List.cons_append, List.append_assoc, List.singleton_append, run_closed (hbody cs)]
    congr 1
    simp [Progress.literal, Progress.part, Part.excerpt, hbefore, Span.ofText]
    omega
  | @bytes body hbody hbefore =>
    rw [List.reverse_append, List.reverse_reverse] at hbefore
    rw [List.cons_append, run_skip hb.symm, List.cons_append, List.append_assoc,
      List.singleton_append, run_closed (hbody cs)]
    congr 1
    simp [Progress.literal, Progress.part, Part.excerpt, hbefore, Span.ofText]
    omega

/-- What extraction writes and takes out of a text that falls into parts. -/
theorem run_of_splits (hb : d.delimiter ≠ 'b') {before gap : List Char} {parts : List Part}
    (h : Splits d before gap parts) (hp : p.before.reverse = before) :
    (run d p (textOf gap parts)).output =
        (skeletonFrom p.excerpts.length gap (parts.map Part.gap)).reverse ++ p.output ∧
      (run d p (textOf gap parts)).excerpts =
        (excerptsFrom p.excerpts.length (byteLength p.before) (byteLength p.output) gap
          parts).reverse ++ p.excerpts := by
  induction h generalizing p with
  | done h =>
    rw [textOf, run_gap h]
    simp [run_nil, skeletonFrom, excerptsFrom]
  | @unclosed before gap rest h hrest =>
    rw [textOf, List.flatMap_nil, List.append_nil, run_gap h, run_unclosed hrest]
    simp [skeletonFrom, excerptsFrom]
  | @literal before gap q parts h hq rest ih =>
    subst hp
    have htext : textOf gap (q :: parts) = gap ++ (q.written ++ textOf q.gap parts) := by
      simp [textOf]
    have hblank : ' '.utf8Size = 1 := by decide
    have hread : byteLength (p.part gap q).before =
        (Span.ofText (byteLength p.before + byteLength gap) q.written).stop := by
      simp [Progress.part, Span.ofText]
      omega
    have hwritten : byteLength (p.part gap q).output =
        (Span.ofText (byteLength p.output + byteLength gap + 1)
          (placeholderName p.excerpts.length).toList).stop + 1 := by
      simp [Progress.part, Span.ofText]
      omega
    obtain ⟨houtput, hexcerpts⟩ := ih (p := p.part gap q) (by simp [Progress.part])
    rw [hread, hwritten] at hexcerpts
    rw [htext, run_part hb h hq, houtput, hexcerpts]
    constructor
    · simp [Progress.part, skeletonFrom]
    · simp [Progress.part, Part.excerpt, excerptsFrom]

end Run

/-- What extraction makes of a text that falls into parts. -/
theorem ofText_of_splits {d : Delimiters} (hb : d.delimiter ≠ 'b') {gap : List Char}
    {parts : List Part} (h : Splits d [] gap parts) :
    Extraction.ofText d (String.ofList (textOf gap parts)) =
      { skeleton := String.ofList (skeletonFrom 0 gap (parts.map Part.gap))
        excerpts := excerptsFrom 0 0 0 gap parts } := by
  obtain ⟨houtput, hexcerpts⟩ := run_of_splits (p := {}) hb h rfl
  unfold Extraction.ofText
  rw [String.toList_ofList]
  dsimp only
  rw [houtput, hexcerpts]
  simp

/-! ### Every text falls into parts -/

theorem splitClose_eq_some {d : Delimiters} {odd : Bool} {cs body rest : List Char}
    (h : splitClose d odd cs = some (body, rest)) : cs = body ++ d.delimiter :: rest ∧
      ∀ rest', splitClose d odd (body ++ d.delimiter :: rest') = some (body, rest') := by
  induction cs generalizing odd body rest with
  | nil => cases h
  | cons c cs ih =>
    rw [splitClose] at h
    split at h
    · rename_i hc
      obtain ⟨rfl, rfl⟩ := hc
      cases h
      exact ⟨rfl, fun rest' => by simp [splitClose]⟩
    · rename_i hc
      obtain ⟨⟨body', rest'⟩, hclose, heq⟩ := Option.map_eq_some_iff.mp h
      cases heq
      obtain ⟨rfl, hall⟩ := ih hclose
      exact ⟨rfl, fun rest' => by rw [List.cons_append, splitClose, if_neg hc, hall rest']; rfl⟩

theorem opensBytes_cons {cs : List Char} (h : opensBytes cs = true) :
    ∃ rest, cs = 'b' :: rest := by
  unfold opensBytes at h
  split at h
  · exact ⟨_, rfl⟩
  · exact ⟨_, rfl⟩
  · cases h

/-- A text behind another one that does not end in `b` falls into parts. -/
theorem exists_splits {d : Delimiters} (hb : d.delimiter ≠ 'b') (before cs : List Char)
    (hbefore : before.getLast? ≠ some 'b') :
    ∃ gap parts, cs = textOf gap parts ∧ Splits d before gap parts := by
  induction hn : cs.length using Nat.strongRecOn generalizing before cs with
  | ind n ih =>
    by_cases hd : d.delimiter ∈ cs
    · obtain ⟨gap, rest, rfl, hgap⟩ := List.eq_append_cons_of_mem hd
      cases hclose : splitClose d false rest with
      | none => exact ⟨_, [], by simp [textOf], .unclosed hgap hclose⟩
      | some split =>
        obtain ⟨body, rest⟩ := split
        obtain ⟨rfl, hbody⟩ := splitClose_eq_some hclose
        have hlt : rest.length < n := by
          simp only [← hn, List.length_append, List.length_cons]
          omega
        have hlast : ∀ cs : List Char, (before ++ gap ++ (cs ++ [d.delimiter])).getLast? ≠
            some 'b' := by
          intro cs
          rw [← List.append_assoc, List.getLast?_append, List.getLast?_singleton, Option.some_or]
          exact fun h => hb (Option.some.inj h)
        by_cases hbytes : opensBytes (before ++ gap).reverse = true
        · -- the `b` right before the delimiter is no part of the gap
          obtain ⟨gap, rfl⟩ : ∃ gap', gap = gap' ++ ['b'] := by
            obtain ⟨prefixed, hprefix⟩ := opensBytes_cons hbytes
            rcases List.eq_nil_or_concat gap with rfl | ⟨gap', c, rfl⟩
            · refine absurd ?_ hbefore
              rw [List.append_nil] at hprefix
              rw [List.getLast?_eq_head?_reverse, hprefix, List.head?_cons]
            · rw [List.concat_eq_append, ← List.append_assoc, List.reverse_append] at hprefix
              obtain ⟨rfl, -⟩ := List.cons.inj hprefix
              exact ⟨gap', by rw [List.concat_eq_append]⟩
          let written := 'b' :: d.delimiter :: (body ++ [d.delimiter])
          obtain ⟨next, parts, rfl, hsplits⟩ := ih rest.length hlt (before ++ gap ++ written) rest
            (by simpa [written] using hlast ('b' :: d.delimiter :: body)) rfl
          refine ⟨gap, ⟨_, written, next⟩ :: parts, by simp [textOf, written],
            .literal (fun h => hgap (List.mem_append_left _ h)) (.bytes hbody ?_) hsplits⟩
          simpa using hbytes
        · let written := d.delimiter :: (body ++ [d.delimiter])
          obtain ⟨next, parts, rfl, hsplits⟩ := ih rest.length hlt (before ++ gap ++ written) rest
            (by simpa [written] using hlast (d.delimiter :: body)) rfl
          refine ⟨gap, ⟨_, written, next⟩ :: parts, by simp [textOf, written],
            .literal hgap (.string hbody ?_) hsplits⟩
          simpa using hbytes
    · exact ⟨cs, [], by simp [textOf], .done hd⟩

end Extraction
end TolerantExpr
