import TolerantExpr.Proofs.Quotation.Lookup
import TolerantExpr.Proofs.Quotation.RoundTrip

/-!
# Nothing is lost in extraction

Source and skeleton share their gaps, and the excerpts say of every literal what it is, where it stood
and where its placeholder stands now, so that the source can be put together again. Excerpts are in
order and apart from each other. A delimiter is left in the last gap at most, where a literal begins
that is never closed. The excerpt of a span is the one whose placeholder takes up just that span.
-/

namespace TolerantExpr

namespace Extraction

/-- The gap behind the last literal. -/
def lastGap (gap : List Char) : List Part → List Char
  | [] => gap
  | p :: parts => lastGap p.gap parts

/-- No delimiter in a text closes the literal whose body the text begins with. -/
def Unclosed (d : Delimiters) (text : List Char) : Prop :=
  ∀ body after, Closes d body → text ≠ body ++ d.delimiter :: after

section

variable {d : Delimiters} {before gap done rest : List Char} {parts : List Part}

theorem unclosed_of_splitClose (h : splitClose d false rest = none) : Unclosed d rest := by
  rintro body after hbody rfl
  rw [hbody after] at h
  cases h

/-- Where a text falls apart at a literal, the gap before it is without delimiters. -/
theorem Splits.literal_of_split {done : List Part} {p : Part} {rest : List Part}
    (h : Splits d before gap (done ++ p :: rest)) :
    d.delimiter ∉ lastGap gap done ∧ IsLiteral d (before ++ textOf gap done) p.value p.written := by
  induction done generalizing before gap with
  | nil =>
    cases h with
    | literal h hp _ => exact ⟨h, by simpa [textOf] using hp⟩
  | cons q done ih =>
    cases h with
    | literal _ _ hrest =>
      obtain ⟨hgap, hp⟩ := ih hrest
      exact ⟨hgap, by simpa [textOf] using hp⟩

/-- The first delimiter in the last gap begins a literal that is not closed. -/
theorem Splits.lastGap_cases (h : Splits d before gap parts) (hmem : d.delimiter ∈ lastGap gap parts) :
    ∃ plain rest, lastGap gap parts = plain ++ d.delimiter :: rest ∧ d.delimiter ∉ plain ∧
      Unclosed d rest := by
  induction h with
  | done h => exact absurd hmem h
  | unclosed h hrest => exact ⟨_, _, rfl, h, unclosed_of_splitClose hrest⟩
  | literal _ _ _ ih => exact ih hmem

theorem IsLiteral.length_pos {v : Value} {written : List Char} (h : IsLiteral d before v written) :
    0 < byteLength written := by
  cases h with
  | string => exact Nat.add_pos_left (Char.utf8Size_pos _) _
  | bytes => exact Nat.add_pos_left (Char.utf8Size_pos _) _

end

/-- An extraction accounts for a source by a first gap and parts. -/
structure Accounts (d : Delimiters) (source : String) (x : Extraction) (gap : List Char)
    (parts : List Part) : Prop where
  text : source = String.ofList (textOf gap parts)
  skeleton : x.skeleton = String.ofList (skeletonFrom 0 gap (parts.map Part.gap))
  length : x.excerpts.length = parts.length
  /-- A gap with a literal behind it is without delimiters, and the literal is as it is written. -/
  literal : ∀ done p rest, parts = done ++ p :: rest →
    d.delimiter ∉ lastGap gap done ∧ IsLiteral d (textOf gap done) p.value p.written
  /-- The spans of an excerpt are those of its literal and of its placeholder. -/
  excerpt : ∀ done p rest, parts = done ++ p :: rest → ∃ y : Excerpt,
    x.excerpts[done.length]? = some y ∧
      y = p.excerpt done.length (byteLength (textOf gap done))
        (byteLength (skeletonFrom 0 gap (done.map Part.gap)) + 1) ∧
      y.sourceSpan.textIn source = String.ofList p.written ∧
      y.placeholderSpan.textIn x.skeleton = y.placeholder
  nonempty : ∀ y ∈ x.excerpts, y.sourceSpan.start < y.sourceSpan.stop ∧
    y.placeholderSpan.start < y.placeholderSpan.stop
  ordered : x.excerpts.Pairwise Excerpt.Before
  /-- In the last gap the first delimiter begins a literal that is not closed. -/
  unclosed : d.delimiter ∈ lastGap gap parts → ∃ plain rest,
    lastGap gap parts = plain ++ d.delimiter :: rest ∧ d.delimiter ∉ plain ∧ Unclosed d rest
  /-- Whether excerpts are looked for one after the other or by halving, the one of a span is the one
  whose placeholder takes it up. -/
  lookup : ∀ span y, x.excerptAt? span = x.searchAt? span ∧
    (x.searchAt? span = some y ↔ y ∈ x.excerpts ∧ y.placeholderSpan = span)

/-- The place of a literal in a source. -/
theorem occurs_written {gap : List Char} {done : List Part} {p : Part} {rest : List Part} :
    Occurs (textOf gap (done ++ p :: rest)) (byteLength (textOf gap done)) p.written := by
  refine ⟨textOf gap done, p.gap ++ rest.flatMap fun q => q.written ++ q.gap, ?_, rfl⟩
  simp [textOf]

/-- The place of a placeholder in a skeleton. -/
theorem occurs_placeholder (index : Nat) (gap : List Char) (done : List Part) (p : Part)
    (rest : List Part) :
    Occurs (skeletonFrom index gap ((done ++ p :: rest).map Part.gap))
      (byteLength (skeletonFrom index gap (done.map Part.gap)) + 1)
      (placeholderName (index + done.length)).toList := by
  have hblank : ' '.utf8Size = 1 := by decide
  induction done generalizing index gap with
  | nil =>
    exact ⟨gap ++ [' '], ' ' :: skeletonFrom (index + 1) p.gap (rest.map Part.gap),
      by simp [skeletonFrom], by simp [skeletonFrom, hblank]⟩
  | cons q done ih =>
    obtain ⟨before, after, htext, hlength⟩ := ih (index + 1) q.gap
    have hindex : index + 1 + done.length = index + (done.length + 1) := by omega
    rw [hindex] at htext
    refine ⟨gap ++ ' ' :: ((placeholderName index).toList ++ ' ' :: before), after, ?_, ?_⟩
    · simp only [List.cons_append, List.map_cons, skeletonFrom, htext, List.length_cons]
      simp
    · simp [skeletonFrom, hlength, Nat.add_assoc]

/-- Extraction accounts for a text that falls into parts. -/
theorem accounts_of_splits {d : Delimiters} (hb : d.delimiter ≠ 'b') {gap : List Char}
    {parts : List Part} (h : Splits d [] gap parts) :
    (ofText d (String.ofList (textOf gap parts))).Accounts d (String.ofList (textOf gap parts)) gap
      parts := by
  have hordered := ordered_excerptsFrom 0 0 0 gap parts
  have hpart : ∀ y ∈ excerptsFrom 0 0 0 gap parts, y.sourceSpan.start < y.sourceSpan.stop ∧
      y.placeholderSpan.start < y.placeholderSpan.stop := by
    intro y hy
    refine ⟨?_, placeholder_of_mem_excerptsFrom hy⟩
    obtain ⟨p, hp, i, r, w, rfl⟩ := exists_part_of_mem_excerptsFrom hy
    obtain ⟨done, rest, rfl⟩ := List.append_of_mem hp
    exact Nat.lt_add_of_pos_right h.literal_of_split.2.length_pos
  have hstarts := (ofText d (String.ofList (textOf gap parts))).starts_of_ordered
  rw [ofText_of_splits hb h] at hstarts ⊢
  refine ⟨rfl, rfl, length_excerptsFrom .., ?_, ?_, hpart, hordered, h.lastGap_cases, ?_⟩
  · rintro done p rest rfl
    exact h.literal_of_split
  · rintro done p rest rfl
    have hexcerpt := getElem?_excerptsFrom 0 0 0 gap done p rest
    rw [Nat.zero_add, Nat.zero_add, Nat.zero_add] at hexcerpt
    refine ⟨_, hexcerpt, rfl, Span.textIn_of_occurs ?_, ?_⟩
    · rw [String.toList_ofList]
      exact occurs_written
    · have hplaceholder := occurs_placeholder 0 gap done p rest
      rw [Nat.zero_add] at hplaceholder
      refine (Span.textIn_of_occurs ?_).trans String.ofList_toList
      rwa [String.toList_ofList]
  · intro span y
    specialize hstarts hordered fun y hy => (hpart y hy).2
    rw [searchAt?_eq_excerptAt? hstarts, excerptAt?_eq_some_iff hstarts]
    exact ⟨rfl, Iff.rfl⟩

/-- Extraction with valid delimiters accounts for every text. -/
theorem ofText_accounts {o : Options} (ho : o.refusal? = none) (source : String) :
    ∃ gap parts, (ofText o.delimiters source).Accounts o.delimiters source gap parts := by
  have hb := (o.valid_delimiters ho).delimiter_ne_b
  obtain ⟨gap, parts, htext, hsplits⟩ := exists_splits hb [] source.toList (by simp)
  obtain rfl : source = String.ofList (textOf gap parts) := by
    rw [← htext, String.ofList_toList]
  exact ⟨gap, parts, accounts_of_splits hb hsplits⟩

/-- Two literals next to each other, the first one of bytes, and a third one that is not closed. -/
theorem ofText_accounts_adjacent :
    let o : Options := { delimiters := ⟨'§', '\\'⟩ }
    o.refusal? = none ∧ ∃ gap parts,
      (ofText o.delimiters "é=b§\\x41§§q§+§z").Accounts o.delimiters "é=b§\\x41§§q§+§z" gap parts ∧
        parts.length = 2 := by
  intro o
  have ho : o.refusal? = none := by decide
  have hlength : (ofText o.delimiters "é=b§\\x41§§q§+§z").excerpts.length = 2 := by decide +kernel
  obtain ⟨gap, parts, h⟩ := ofText_accounts ho "é=b§\\x41§§q§+§z"
  exact ⟨ho, gap, parts, h, h.length.symm.trans hlength⟩

end Extraction
end TolerantExpr
