import TolerantExpr.Proofs.Quotation.Lossless
import TolerantExpr.Proofs.Quotation.Offsets

/-!
# Where offsets of the skeleton come from

Going back to the source undoes extraction. An offset in a gap goes to the same place in the same gap
of the source. Up to the beginning of a placeholder, with the blank before it, offsets go to where
the literal begins, and from there on, with the blank behind it, to where the literal ends. No
difference that is taken on the way is negative, and no offset of the skeleton leaves the source.
-/

namespace TolerantExpr

/-- The difference of two offsets, unless it is negative. -/
def difference? (i j : Nat) : Option Nat := if j ≤ i then some (i - j) else none

theorem difference?_of_le {i j : Nat} (h : j ≤ i) : difference? i j = some (i - j) := if_pos h

namespace Extraction

/-- Where an offset of the skeleton is in the source, for excerpts that come after the offsets
`written` and `read`, unless a difference is negative. -/
def offsetFrom? (position : Nat) : (written read : Nat) → List Excerpt → Option Nat
  | written, read, [] => do return read + (← difference? position written)
  | written, read, x :: xs => do
    let regionStart ← difference? x.placeholderSpan.start 1
    if position < regionStart then return read + (← difference? position written)
    else if position ≤ x.placeholderSpan.start then return x.sourceSpan.start
    else if position ≤ x.placeholderSpan.stop + 1 then return x.sourceSpan.stop
    else offsetFrom? position (x.placeholderSpan.stop + 1) x.sourceSpan.stop xs

/-- Where an offset of the skeleton is in the source, with every difference checked. -/
def sourceOffset? (e : Extraction) (position : Nat) : Option Nat :=
  offsetFrom? position 0 0 e.excerpts

/-- From the offset `written` on, no difference is negative, if there is room for a blank before each
placeholder. -/
theorem offsetFrom?_eq {i written read : Nat} {xs : List Excerpt} (h : written ≤ i)
    (hxs : ∀ x ∈ xs, 1 ≤ x.placeholderSpan.start) :
    offsetFrom? i written read xs = some (offsetFrom i written read xs) := by
  induction xs generalizing written read with
  | nil =>
    rw [offsetFrom?, offsetFrom, difference?_of_le h]
    rfl
  | cons x xs ih =>
    rw [List.forall_mem_cons] at hxs
    rw [offsetFrom?, offsetFrom, difference?_of_le hxs.1, difference?_of_le h]
    simp only [Option.bind_eq_bind, Option.bind_some]
    split_ifs with hgap hname hnext
    · rfl
    · rfl
    · rfl
    · exact ih (by omega) hxs.2

section Parts

variable {index read written i : Nat} {gap : List Char} {p : Part} {done rest parts : List Part}

/-- Behind parts that are done, offsets are found from the last gap of these on. -/
theorem offsetFrom_append (index read written : Nat) (gap : List Char) (done rest : List Part) :
    ∃ r w, r + byteLength (lastGap gap done) = read + byteLength (textOf gap done) ∧
      w + byteLength (lastGap gap done) =
        written + byteLength (skeletonFrom index gap (done.map Part.gap)) ∧
      written ≤ w ∧
      ∀ i, w ≤ i →
        offsetFrom i written read (excerptsFrom index read written gap (done ++ rest)) =
          offsetFrom i w r (excerptsFrom (index + done.length) r w (lastGap gap done) rest) := by
  induction done generalizing index read written gap with
  | nil => exact ⟨read, written, by simp [lastGap, textOf], rfl, Nat.le_refl _, fun _ _ => rfl⟩
  | cons p done ih =>
    obtain ⟨r, w, hr, hw, hle, hoffset⟩ :=
      ih (index + 1) (nextRead read gap p) (nextWritten index written gap) p.gap
    have hwritten := nextWritten_eq index written gap
    have hindex : index + (p :: done).length = index + 1 + done.length := by
      rw [List.length_cons]
      omega
    refine ⟨r, w, ?_, ?_, by omega, fun i hi => ?_⟩
    · rw [lastGap, hr, textOf_cons, nextRead, byteLength_append, byteLength_append]
      omega
    · rw [lastGap, hw, skeletonFrom_cons, hwritten, byteLength_append, byteLength_append]
      omega
    · rw [List.cons_append, offsetFrom_next (hle.trans hi), hoffset i hi, hindex, lastGap]

/-- Where the offsets at a placeholder and in the gap behind it go. -/
structure Returns (f : Nat → Nat) (index read written : Nat) (p : Part) : Prop where
  start : ∀ i, written ≤ i → i ≤ written + 1 → f i = read
  stop : ∀ i, written + 1 < i → i ≤ written + byteLength (spaced index) →
    f i = read + byteLength p.written
  gap : ∀ i ≤ byteLength p.gap,
    f (written + byteLength (spaced index) + i) = read + byteLength p.written + i

theorem offsetFrom_returns (index read written : Nat) (gap : List Char) (done : List Part) (p : Part)
    (rest : List Part) :
    Returns
      (fun i => offsetFrom i written read (excerptsFrom index read written gap (done ++ p :: rest)))
      (index + done.length) (read + byteLength (textOf gap done))
      (written + byteLength (skeletonFrom index gap (done.map Part.gap))) p := by
  obtain ⟨r, w, hr, hw, -, hoffset⟩ := offsetFrom_append index read written gap done (p :: rest)
  have hnext := nextWritten_eq (index + done.length) w (lastGap gap done)
  rw [← hr, ← hw]
  refine ⟨fun i hstart hstop => ?_, fun i hstart hstop => ?_, fun i hi => ?_⟩
  · rw [hoffset i (by omega), offsetFrom_cons]
    split_ifs <;> omega
  · rw [hoffset i (by omega), offsetFrom_cons, if_neg (by omega), if_neg (by omega),
      if_pos (by omega), nextRead]
  · have hplace : w + byteLength (lastGap gap done) + byteLength (spaced (index + done.length)) + i =
        nextWritten (index + done.length) w (lastGap gap done) + i := by omega
    rw [hplace, hoffset _ (by omega), offsetFrom_next (Nat.le_add_right _ _), offsetFrom_gap hi,
      nextRead]

end Parts

/-- Going back from the skeleton undoes the extraction of a source into a first gap and parts. -/
structure Inverts (x : Extraction) (source : String) (gap : List Char) (parts : List Part) :
    Prop where
  checked : ∀ i, x.sourceOffset? i = some (x.sourceOffset i)
  bounded : ∀ i ≤ x.skeleton.utf8ByteSize, x.sourceOffset i ≤ source.utf8ByteSize
  monotone : Monotone x.sourceOffset
  boundary : ∀ i, String.Pos.Raw.IsValid x.skeleton ⟨i⟩ →
    String.Pos.Raw.IsValid source ⟨x.sourceOffset i⟩
  /-- The first gap is in its place. -/
  first : ∀ i ≤ byteLength gap, x.sourceOffset i = i
  returns : ∀ done p rest, parts = done ++ p :: rest →
    Returns x.sourceOffset done.length (byteLength (textOf gap done))
      (byteLength (skeletonFrom 0 gap (done.map Part.gap))) p

/-- Going back from the skeleton of a text undoes the extraction that accounts for the text. -/
theorem ofText_inverts {o : Options} (ho : o.refusal? = none) (source : String) :
    ∃ gap parts, (ofText o.delimiters source).Accounts o.delimiters source gap parts ∧
      (ofText o.delimiters source).Inverts source gap parts := by
  have hb := (o.valid_delimiters ho).delimiter_ne_b
  have hcarries := carries_ofText hb source
  obtain ⟨gap, parts, htext, hsplits⟩ := exists_splits hb [] source.toList (by simp)
  obtain rfl : source = String.ofList (textOf gap parts) := by
    rw [← htext, String.ofList_toList]
  refine ⟨gap, parts, accounts_of_splits hb hsplits, ?_⟩
  have hexcerpts := congrArg Extraction.excerpts (ofText_of_splits hb hsplits)
  refine ⟨fun i => ?_, fun i hi => ?_, hcarries.monotone, fun i hi => ?_, fun i hi => ?_, ?_⟩
  · unfold sourceOffset? sourceOffset
    rw [hexcerpts]
    exact offsetFrom?_eq (Nat.zero_le i) fun y hy =>
      Nat.one_le_of_lt (start_of_mem_excerptsFrom hy)
  · rw [← byteLength_toList] at hi ⊢
    exact (hcarries.monotone hi).trans (hcarries.boundary _ (boundary_byteLength _)).le
  · rw [isValid_iff_boundary] at hi ⊢
    exact hcarries.boundary i hi
  · unfold sourceOffset
    rw [hexcerpts]
    have hgap : offsetFrom (0 + i) 0 0 (excerptsFrom 0 0 0 gap parts) = 0 + i := offsetFrom_gap hi
    rwa [Nat.zero_add] at hgap
  · rintro done p rest rfl
    have hreturns := offsetFrom_returns 0 0 0 gap done p rest
    simp only [Nat.zero_add] at hreturns
    unfold sourceOffset
    rwa [hexcerpts]

/-- The blank between two placeholders is the end of the first literal as well as the beginning of
the second one, as they touch in the source. -/
theorem ofText_inverts_adjacent :
    let o : Options := { delimiters := ⟨'§', '\\'⟩ }
    let x := ofText o.delimiters "é=b§\\x41§§q§+§z"
    o.refusal? = none ∧
      (∃ gap parts, x.Accounts o.delimiters "é=b§\\x41§§q§+§z" gap parts ∧
        x.Inverts "é=b§\\x41§§q§+§z" gap parts) ∧
      [2, 3, 4, 5, 12, 13, 14, 15, 23, 24].map x.sourceOffset =
        [2, 3, 3, 12, 12, 12, 12, 17, 17, 18] := by
  intro o x
  have ho : o.refusal? = none := by decide
  exact ⟨ho, ofText_inverts ho "é=b§\\x41§§q§+§z", by decide +kernel⟩

end Extraction
end TolerantExpr
