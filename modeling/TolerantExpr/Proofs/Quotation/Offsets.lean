import TolerantExpr.Proofs.Quotation.Skeletons
import Mathlib.Order.Monotone.Defs

/-!
# From the skeleton back to the source

Offsets of a skeleton are carried back gap by gap: within a gap they keep their distance from its
beginning, and those at a placeholder and the blanks around it go to the ends of the literal. So
their order is kept, and a boundary of a character in the skeleton goes to one in the source, however
long a literal is and whatever its placeholder is named. A token of a gap is carried back to where it
is written.
-/

namespace TolerantExpr.Extraction

section Parts

variable {index read written i j : Nat} {gap : List Char} {p : Part} {parts : List Part}

/-- Where the gap behind the first literal begins in the source. -/
def nextRead (read : Nat) (gap : List Char) (p : Part) : Nat :=
  read + byteLength gap + byteLength p.written

/-- Where the gap behind the first placeholder begins in the skeleton. -/
def nextWritten (index written : Nat) (gap : List Char) : Nat :=
  written + byteLength gap + 1 + byteLength (placeholderName index).toList + 1

theorem textOf_cons : textOf gap (p :: parts) = gap ++ (p.written ++ textOf p.gap parts) := by
  simp [textOf]

theorem offsetFrom_cons :
    offsetFrom i written read (excerptsFrom index read written gap (p :: parts)) =
      if i < written + byteLength gap then read + (i - written)
      else if i ≤ written + byteLength gap + 1 then read + byteLength gap
      else if i ≤ nextWritten index written gap then nextRead read gap p
      else offsetFrom i (nextWritten index written gap) (nextRead read gap p)
        (excerptsFrom (index + 1) (nextRead read gap p) (nextWritten index written gap) p.gap
          parts) := by
  rw [excerptsFrom, offsetFrom]
  rfl

theorem le_offsetFrom (index read written i : Nat) (gap : List Char) (parts : List Part) :
    read ≤ offsetFrom i written read (excerptsFrom index read written gap parts) := by
  induction parts generalizing index read written gap with
  | nil => exact Nat.le_add_right _ _
  | cons p parts ih =>
    have hrest := ih (index + 1) (nextRead read gap p) (nextWritten index written gap) p.gap
    rw [offsetFrom_cons]
    unfold nextRead at hrest ⊢
    split_ifs <;> omega

/-- The order of offsets is kept. -/
theorem offsetFrom_mono (index read written : Nat) (gap : List Char) (parts : List Part)
    (h : i ≤ j) :
    offsetFrom i written read (excerptsFrom index read written gap parts) ≤
      offsetFrom j written read (excerptsFrom index read written gap parts) := by
  induction parts generalizing index read written gap with
  | nil =>
    rw [excerptsFrom, offsetFrom, offsetFrom]
    omega
  | cons p parts ih =>
    have hrest := ih (index + 1) (nextRead read gap p) (nextWritten index written gap) p.gap
    have hread := le_offsetFrom (index + 1) (nextRead read gap p) (nextWritten index written gap) j
      p.gap parts
    rw [offsetFrom_cons, offsetFrom_cons]
    unfold nextRead nextWritten at *
    split_ifs <;> omega

/-- Offsets in the first gap and up to its end. -/
theorem offsetFrom_gap (h : i ≤ byteLength gap) :
    offsetFrom (written + i) written read (excerptsFrom index read written gap parts) =
      read + i := by
  cases parts with
  | nil =>
    rw [excerptsFrom, offsetFrom, Nat.add_sub_cancel_left]
  | cons p parts =>
    rw [offsetFrom_cons]
    split_ifs <;> omega

/-- Where a gap begins in the skeleton it begins in the source. -/
theorem offsetFrom_self (index read written : Nat) (gap : List Char) (parts : List Part) :
    offsetFrom written written read (excerptsFrom index read written gap parts) = read :=
  offsetFrom_gap (i := 0) (Nat.zero_le _)

/-- Offsets behind the first placeholder and the blanks around it. -/
theorem offsetFrom_next (h : nextWritten index written gap ≤ i) :
    offsetFrom i written read (excerptsFrom index read written gap (p :: parts)) =
      offsetFrom i (nextWritten index written gap) (nextRead read gap p)
        (excerptsFrom (index + 1) (nextRead read gap p) (nextWritten index written gap) p.gap
          parts) := by
  rcases h.eq_or_lt with rfl | h
  · rw [offsetFrom_cons, offsetFrom_self]
    unfold nextWritten
    split_ifs <;> omega
  · rw [offsetFrom_cons]
    unfold nextWritten at *
    split_ifs <;> omega

/-- Offsets at the first placeholder and the blanks around it. -/
theorem offsetFrom_placeholder (hgap : written + byteLength gap ≤ i)
    (hnext : i ≤ nextWritten index written gap) :
    offsetFrom i written read (excerptsFrom index read written gap (p :: parts)) =
        read + byteLength gap ∨
      offsetFrom i written read (excerptsFrom index read written gap (p :: parts)) =
        nextRead read gap p := by
  rw [offsetFrom_cons, if_neg (by omega)]
  split_ifs
  · exact .inl rfl
  · exact .inr rfl

/-- A placeholder with the blanks around it. -/
def spaced (index : Nat) : List Char := ' ' :: (placeholderName index).toList ++ [' ']

theorem nextWritten_eq (index written : Nat) (gap : List Char) :
    nextWritten index written gap = written + (byteLength gap + byteLength (spaced index)) := by
  have hblank : ' '.utf8Size = 1 := by decide
  simp [nextWritten, spaced, hblank]
  omega

theorem skeletonFrom_cons (index : Nat) (gap : List Char) (p : Part) (parts : List Part) :
    skeletonFrom index gap ((p :: parts).map Part.gap) =
      gap ++ (spaced index ++ skeletonFrom (index + 1) p.gap (parts.map Part.gap)) := by
  simp [skeletonFrom, spaced]

/-- A boundary in the skeleton comes from one in the text. -/
theorem boundary_offsetFrom (read written : Nat)
    (h : Boundary (skeletonFrom index gap (parts.map Part.gap)) i) :
    ∃ j, Boundary (textOf gap parts) j ∧
      offsetFrom (written + i) written read (excerptsFrom index read written gap parts) =
        read + j := by
  induction parts generalizing index read written gap i with
  | nil =>
    refine ⟨i, ?_, offsetFrom_gap h.le⟩
    simpa [textOf, skeletonFrom] using h
  | cons p parts ih =>
    have hwritten := nextWritten_eq index written gap
    rw [textOf_cons]
    rw [skeletonFrom_cons] at h
    rcases h.of_append with hi | ⟨j, hrest, hi⟩
    · exact ⟨i, hi.append_right _, offsetFrom_gap hi.le⟩
    subst hi
    rcases hrest.of_append with hj | ⟨k, hk, rfl⟩
    · have hle := hj.le
      have hgap : written + byteLength gap ≤ written + (byteLength gap + j) := by omega
      have hnext : written + (byteLength gap + j) ≤ nextWritten index written gap := by omega
      rcases offsetFrom_placeholder hgap hnext with heq | heq
      · exact ⟨byteLength gap, boundary_append _ _, heq⟩
      · refine ⟨byteLength gap + byteLength p.written, ?_, heq.trans (Nat.add_assoc _ _ _)⟩
        exact (boundary_append _ _).append_left gap
    · have hnext : written + (byteLength gap + (byteLength (spaced index) + k)) =
          nextWritten index written gap + k := by omega
      obtain ⟨j, hj, heq⟩ := ih (nextRead read gap p) (nextWritten index written gap) hk
      refine ⟨byteLength gap + (byteLength p.written + j), ?_, ?_⟩
      · exact (hj.append_left _).append_left _
      · rw [hnext, offsetFrom_next (Nat.le_add_right _ _), heq, nextRead]
        omega

/-- Where a span goes if its ends go where offsets go. -/
def spanFrom (s : Span) (written read : Nat) (xs : List Excerpt) : Span :=
  ⟨offsetFrom s.start written read xs, offsetFrom s.stop written read xs⟩

theorem spanFrom_gap {l : Lexeme} (h : l ∈ Token.scan written gap) :
    ∃ j, Occurs (textOf gap parts) j l.text ∧
      spanFrom l.span written read (excerptsFrom index read written gap parts) =
        .ofText (read + j) l.text := by
  obtain ⟨j, hstart, hj⟩ := Token.occurs_of_mem_scan h
  refine ⟨j, hj.append_right _, ?_⟩
  rw [spanFrom, Lexeme.span, hstart, Span.ofText, Nat.add_assoc, offsetFrom_gap hj.le,
    offsetFrom_gap ((Nat.le_add_right _ _).trans hj.le), Span.ofText, Nat.add_assoc]

/-- A token of a skeleton is a placeholder, or it goes to where it is written. -/
theorem spanFrom_of_mem_scan (index read written : Nat) (gap : List Char) (parts : List Part)
    {l : Lexeme} (h : l ∈ Token.scan written (skeletonFrom index gap (parts.map Part.gap))) :
    (∃ y ∈ excerptsFrom index read written gap parts, y.placeholderSpan = l.span) ∨
      ∃ j, Occurs (textOf gap parts) j l.text ∧
        spanFrom l.span written read (excerptsFrom index read written gap parts) =
          .ofText (read + j) l.text := by
  induction parts generalizing index read written gap with
  | nil => exact .inr (spanFrom_gap h)
  | cons p parts ih =>
    rw [List.map_cons, Token.scan_skeletonFrom, List.mem_append, List.mem_cons] at h
    rcases h with h | rfl | h
    · exact .inr (spanFrom_gap h)
    · exact .inl ⟨_, List.mem_cons_self, rfl⟩
    · have hstart : nextWritten index written gap ≤ l.span.start := (Token.start_of_mem_scan h).1
      have hstop : nextWritten index written gap ≤ l.span.stop :=
        hstart.trans (Nat.le_add_right _ _)
      rcases ih (index + 1) (nextRead read gap p) (nextWritten index written gap) p.gap h with
        ⟨y, hy, hspan⟩ | ⟨j, hj, hspan⟩
      · exact .inl ⟨y, List.mem_cons_of_mem _ hy, hspan⟩
      · refine .inr ⟨byteLength gap + (byteLength p.written + j), ?_, ?_⟩
        · rw [textOf_cons]
          exact (hj.append_left _).append_left _
        · rw [spanFrom, offsetFrom_next hstart, offsetFrom_next hstop]
          exact hspan.trans (by simp only [nextRead, Nat.add_assoc])

end Parts

/-! ### Whole texts -/

/-- Going back to the source keeps the order of offsets, and boundaries; tokens that stand for no
literal go to where they are written. -/
structure Carries (x : Extraction) (source : String) : Prop where
  monotone : Monotone x.sourceOffset
  boundary : ∀ i, Boundary x.skeleton.toList i → Boundary source.toList (x.sourceOffset i)
  token : ∀ l ∈ Token.scan 0 x.skeleton.toList, x.excerptAt? l.span = none →
    (x.sourceSpan l.span).textIn source = String.ofList l.text

theorem carries_ofText {d : Delimiters} (hb : d.delimiter ≠ 'b') (source : String) :
    (ofText d source).Carries source := by
  obtain ⟨gap, parts, htext, hsplits⟩ := exists_splits hb [] source.toList (by simp)
  have hsource : source = String.ofList (textOf gap parts) := by
    rw [← htext, String.ofList_toList]
  rw [hsource, ofText_of_splits hb hsplits]
  constructor
  case monotone => exact fun i j h => offsetFrom_mono 0 0 0 gap parts h
  case boundary =>
    intro i h
    rw [String.toList_ofList] at h ⊢
    obtain ⟨j, hj, heq⟩ := boundary_offsetFrom 0 0 h
    rw [Nat.zero_add, Nat.zero_add] at heq
    rw [sourceOffset, heq]
    exact hj
  case token =>
    intro l hl hnone
    rw [String.toList_ofList] at hl
    rcases spanFrom_of_mem_scan 0 0 0 gap parts hl with ⟨y, hy, hspan⟩ | ⟨j, hj, hspan⟩
    · exact absurd hspan (by simpa using List.find?_eq_none.mp hnone y hy)
    · rw [Nat.zero_add] at hspan
      refine (congrArg (Span.textIn · _) hspan).trans (Span.textIn_of_occurs ?_)
      rwa [String.toList_ofList]

namespace Carries

variable {x : Extraction} {source : String} {s t : Span}

theorem aligned (h : x.Carries source) (hs : s.Aligned (Boundary x.skeleton.toList)) :
    (x.sourceSpan s).Aligned (Boundary source.toList) :=
  ⟨h.monotone hs.ordered, h.boundary _ hs.start, h.boundary _ hs.stop⟩

theorem covers (h : x.Carries source) (hst : s.Covers t) :
    (x.sourceSpan s).Covers (x.sourceSpan t) :=
  ⟨h.monotone hst.start, h.monotone hst.stop⟩

end Carries

end TolerantExpr.Extraction
