import TolerantExpr.Diagnostic
import Mathlib.Order.MinMax

/-!
# Positions in a text

A byte offset is a position in a text if no character of the text stretches over it. A span lies
within a text if it does not end before it begins and both of its ends are positions in the text.
Where a shorter text stands in a text, its span cuts it out.
-/

namespace TolerantExpr

/-! ### Boundaries of characters -/

/-- An offset is the length of what comes before it. -/
def Boundary (cs : List Char) (offset : Nat) : Prop :=
  ∃ before after, cs = before ++ after ∧ byteLength before = offset

section

variable {xs ys cs : List Char} {i : Nat}

theorem boundary_zero (cs : List Char) : Boundary cs 0 := ⟨[], cs, rfl, rfl⟩

theorem boundary_append (xs ys : List Char) : Boundary (xs ++ ys) (byteLength xs) :=
  ⟨xs, ys, rfl, rfl⟩

theorem boundary_byteLength (cs : List Char) : Boundary cs (byteLength cs) :=
  ⟨cs, [], (List.append_nil cs).symm, rfl⟩

theorem Boundary.le (h : Boundary cs i) : i ≤ byteLength cs := by
  obtain ⟨before, after, rfl, rfl⟩ := h
  rw [byteLength_append]
  exact Nat.le_add_right _ _

theorem Boundary.append_right (h : Boundary xs i) (ys : List Char) : Boundary (xs ++ ys) i := by
  obtain ⟨before, after, rfl, rfl⟩ := h
  rw [List.append_assoc]
  exact boundary_append before _

theorem Boundary.append_left (h : Boundary ys i) (xs : List Char) :
    Boundary (xs ++ ys) (byteLength xs + i) := by
  obtain ⟨before, after, rfl, rfl⟩ := h
  rw [← List.append_assoc, ← byteLength_append]
  exact boundary_append _ after

/-- A boundary in two texts one behind the other is one of the first or of the second. -/
theorem Boundary.of_append (h : Boundary (xs ++ ys) i) :
    Boundary xs i ∨ ∃ j, Boundary ys j ∧ i = byteLength xs + j := by
  obtain ⟨before, after, heq, rfl⟩ := h
  rcases List.append_eq_append_iff.mp heq.symm with ⟨more, rfl, -⟩ | ⟨more, rfl, rfl⟩
  · exact .inl (boundary_append before more)
  · exact .inr ⟨byteLength more, boundary_append more after, byteLength_append _ _⟩

/-- A text stands at an offset of another one. -/
def Occurs (cs : List Char) (i : Nat) (text : List Char) : Prop :=
  ∃ before after, cs = before ++ (text ++ after) ∧ byteLength before = i

variable {text : List Char}

theorem Occurs.le (h : Occurs cs i text) : i + byteLength text ≤ byteLength cs := by
  obtain ⟨before, after, rfl, rfl⟩ := h
  simp only [byteLength_append]
  omega

theorem Occurs.append_right (h : Occurs xs i text) (ys : List Char) : Occurs (xs ++ ys) i text := by
  obtain ⟨before, after, rfl, rfl⟩ := h
  exact ⟨before, after ++ ys, by simp, rfl⟩

theorem Occurs.append_left (h : Occurs ys i text) (xs : List Char) :
    Occurs (xs ++ ys) (byteLength xs + i) text := by
  obtain ⟨before, after, rfl, rfl⟩ := h
  exact ⟨xs ++ before, after, by simp, byteLength_append _ _⟩

end

theorem byteLength_eq_utf8ByteSize (cs : List Char) :
    byteLength cs = (String.ofList cs).utf8ByteSize := by
  induction cs with
  | nil => rfl
  | cons c cs ih =>
    rw [byteLength_cons, ih, String.ofList_cons, String.utf8ByteSize_append,
      String.utf8ByteSize_singleton]

theorem byteLength_toList (s : String) : byteLength s.toList = s.utf8ByteSize := by
  rw [byteLength_eq_utf8ByteSize, String.ofList_toList]

/-- The boundaries are the positions that strings have. -/
theorem isValid_iff_boundary {source : String} {i : Nat} :
    String.Pos.Raw.IsValid source ⟨i⟩ ↔ Boundary source.toList i := by
  rw [String.Pos.Raw.isValid_iff_exists_append]
  constructor
  · intro h
    obtain ⟨s, t, rfl, hi⟩ := h
    refine ⟨s.toList, t.toList, String.toList_append, ?_⟩
    rw [byteLength_toList]
    exact (congrArg String.Pos.Raw.byteIdx hi).symm
  · intro h
    obtain ⟨before, after, heq, rfl⟩ := h
    refine ⟨String.ofList before, String.ofList after, ?_, ?_⟩
    · rw [← String.ofList_append, ← heq, String.ofList_toList]
    · exact congrArg String.Pos.Raw.mk (byteLength_eq_utf8ByteSize before)

/-! ### Spans -/

namespace Span

/-- A span with ends of which `B` holds. -/
structure Aligned (B : Nat → Prop) (s : Span) : Prop where
  ordered : s.start ≤ s.stop
  start : B s.start
  stop : B s.stop

/-- The second span lies in the first one. -/
structure Covers (s t : Span) : Prop where
  start : s.start ≤ t.start
  stop : t.stop ≤ s.stop

/-- A span of a text: it ends where the text does or before, not before it begins, and no character
stretches over either end. -/
structure Within (s : Span) (source : String) : Prop where
  ordered : s.start ≤ s.stop
  bounded : s.stop ≤ source.utf8ByteSize
  start : String.Pos.Raw.IsValid source ⟨s.start⟩
  stop : String.Pos.Raw.IsValid source ⟨s.stop⟩

theorem within_iff {s : Span} {source : String} :
    s.Within source ↔ s.Aligned (Boundary source.toList) := by
  constructor
  · intro h
    exact ⟨h.ordered, isValid_iff_boundary.mp h.start, isValid_iff_boundary.mp h.stop⟩
  · intro h
    refine ⟨h.ordered, ?_, isValid_iff_boundary.mpr h.start, isValid_iff_boundary.mpr h.stop⟩
    rw [← byteLength_toList]
    exact h.stop.le

variable {B : Nat → Prop} {s t : Span}

theorem aligned_point {i : Nat} (h : B i) : (point i).Aligned B := ⟨le_rfl, h, h⟩

theorem aligned_join (hs : s.Aligned B) (ht : t.Aligned B) : (s.join t).Aligned B where
  ordered := (min_le_left _ _).trans (hs.ordered.trans (le_max_left _ _))
  start := by
    rw [start_join]
    rcases min_choice s.start t.start with h | h <;> rw [h]
    exacts [hs.start, ht.start]
  stop := by
    rw [stop_join]
    rcases max_choice s.stop t.stop with h | h <;> rw [h]
    exacts [hs.stop, ht.stop]

theorem covers_join_left (s t : Span) : (s.join t).Covers s := ⟨min_le_left _ _, le_max_left _ _⟩

theorem covers_join_right (s t : Span) : (s.join t).Covers t := ⟨min_le_right _ _, le_max_right _ _⟩

theorem cut_append (s : Span) (offset : Nat) (xs ys : List Char) :
    s.cut offset (xs ++ ys) = s.cut offset xs ++ s.cut (offset + byteLength xs) ys := by
  induction xs generalizing offset with
  | nil => rfl
  | cons c cs ih =>
    rw [List.cons_append, cut, cut, ih, byteLength_cons, ← Nat.add_assoc]
    split_ifs <;> rfl

/-- Of a text that ends before the span begins, or that begins where the span ends, nothing is cut
out. -/
theorem cut_outside {offset : Nat} {cs : List Char}
    (h : offset + byteLength cs ≤ s.start ∨ s.stop ≤ offset) : s.cut offset cs = [] := by
  induction cs generalizing offset with
  | nil => rfl
  | cons c cs ih =>
    have hc := c.utf8Size_pos
    rw [byteLength_cons] at h
    rw [cut, if_neg (by omega)]
    exact ih (by omega)

theorem cut_inside {offset : Nat} {cs : List Char} (hstart : s.start ≤ offset)
    (hstop : offset + byteLength cs ≤ s.stop) : s.cut offset cs = cs := by
  induction cs generalizing offset with
  | nil => rfl
  | cons c cs ih =>
    have hc := c.utf8Size_pos
    rw [byteLength_cons] at hstop
    rw [cut, if_pos (by omega), ih (by omega) (by omega)]

/-- The span of a text that stands in a source cuts it out. -/
theorem textIn_of_occurs {source : String} {i : Nat} {text : List Char}
    (h : Occurs source.toList i text) : (ofText i text).textIn source = String.ofList text := by
  obtain ⟨before, after, hsource, rfl⟩ := h
  have hbefore : (ofText (byteLength before) text).cut 0 before = [] :=
    cut_outside (.inl (Nat.zero_add _).le)
  have htext : (ofText (byteLength before) text).cut (byteLength before) text = text :=
    cut_inside le_rfl le_rfl
  have hafter : (ofText (byteLength before) text).cut (byteLength before + byteLength text) after =
      [] := cut_outside (.inr le_rfl)
  rw [textIn, hsource, cut_append, cut_append, Nat.zero_add, hbefore, htext, hafter,
    List.nil_append, List.append_nil]

end Span

/-- A diagnostic with all its spans in a text. -/
structure Diagnostic.Within (d : Diagnostic) (source : String) : Prop where
  span : d.span.Within source
  related : ∀ note ∈ d.related, note.span.Within source

end TolerantExpr
