import TolerantExpr.Proofs.Parsing.Breaks
import TolerantExpr.Proofs.Quotation.Readings
import TolerantExpr.Proofs.Quotation.Splitting
import TolerantExpr.Proofs.Text.Boundaries

/-!
# How a skeleton is read

The blanks around a placeholder keep it apart from what stands next to it, so the tokens of
a skeleton are those of the gaps, and between them the placeholders. The names in a gap are read as
themselves, since no placeholder stands where they do. A placeholder is read as its constant, unless
a left parenthesis comes behind it: then it is read as a name, like any other name with arguments.
-/

namespace TolerantExpr

/-! ### Tokens of a gap -/

def Lexeme.name? (l : Lexeme) : Option String :=
  match l.token with
  | .name n => some n
  | _ => none

/-- The names that a text has among its tokens. -/
def namesIn (cs : List Char) : List String := (Token.scan 0 cs).filterMap Lexeme.name?

namespace Token

section

variable {offset : Nat} {cs : List Char} {l : Lexeme}

/-- A token is read from the character that it begins with and what comes behind. -/
theorem read_of_mem_scan (h : l ∈ scan offset cs) :
    ∃ before c after n, cs = before ++ c :: after ∧ l.start = offset + byteLength before ∧
      read c after = (l.token, n) ∧ l.text = c :: after.take n := by
  fun_induction scan offset cs with
  | case1 => simp at h
  | case2 offset c cs hc ih =>
    obtain ⟨before, d, after, n, rfl, hstart, hread, htext⟩ := ih h
    refine ⟨c :: before, d, after, n, rfl, ?_, hread, htext⟩
    rw [hstart, byteLength_cons, Nat.add_assoc]
  | case3 offset c cs hc t n hread text ih =>
    rcases List.mem_cons.mp h with rfl | h
    · exact ⟨[], c, cs, n, rfl, rfl, hread, rfl⟩
    · obtain ⟨before, d, after, k, hcs, hstart, hread, htext⟩ := ih h
      refine ⟨text ++ before, d, after, k, ?_, ?_, hread, htext⟩
      · rw [List.append_assoc, ← hcs, List.cons_append, List.take_append_drop]
      · rw [hstart, byteLength_append, Nat.add_assoc]

/-- Tokens stand in the text that they are read from. -/
theorem occurs_of_mem_scan (h : l ∈ scan offset cs) :
    ∃ i, l.start = offset + i ∧ Occurs cs i l.text := by
  obtain ⟨before, c, after, n, rfl, hstart, -, htext⟩ := read_of_mem_scan h
  refine ⟨_, hstart, before, after.drop n, ?_, rfl⟩
  rw [htext, List.cons_append, List.take_append_drop]

theorem start_of_mem_scan (h : l ∈ scan offset cs) :
    offset ≤ l.start ∧ l.start < offset + byteLength cs := by
  obtain ⟨before, c, after, n, rfl, hstart, -, -⟩ := read_of_mem_scan h
  have hc := c.utf8Size_pos
  rw [hstart, byteLength_append, byteLength_cons]
  omega

/-- The token of a name is spelled as the name. -/
theorem text_of_mem_scan (h : l ∈ scan offset cs) {n : String} (hname : l.token = .name n) :
    String.ofList l.text = n := by
  obtain ⟨before, c, after, k, -, -, hread, htext⟩ := read_of_mem_scan h
  have hspells := spells_of_read hread (by simp [hname])
  rw [← htext, hname] at hspells
  generalize l.text = text at hspells ⊢
  cases hspells
  rfl

end

/-- The names do not depend on where a text begins. -/
theorem names_scan (offset : Nat) (cs : List Char) :
    (scan offset cs).filterMap Lexeme.name? = namesIn cs := by
  have htokens : ∀ a b : Nat, (scan a cs).filterMap Lexeme.name? =
      (scan b cs).filterMap Lexeme.name? := by
    intro a b
    fun_induction scan a cs generalizing b with
    | case1 => rw [scan]
    | case2 a c cs hc ih => rw [ih (b + c.utf8Size), scan, if_pos hc]
    | case3 a c cs hc t n hread text ih =>
      rw [Bool.not_eq_true] at hc
      rw [Layout.scan_token hc hread, List.filterMap_cons, List.filterMap_cons,
        ih (b + byteLength (c :: cs.take n))]
      rfl
  exact htokens offset 0

/-- A left parenthesis comes first in a text, blanks aside. -/
def opensCall (cs : List Char) : Bool := (cs.dropWhile Text.isTokenBlank).head? = some '('

theorem read_eq_leftParen_iff {c : Char} {cs : List Char} {t : Token} {n : Nat}
    (h : read c cs = (t, n)) : t = .leftParen ↔ c = '(' := by
  constructor
  · rintro rfl
    have hspells := spells_of_read h (by simp)
    generalize htext : c :: cs.take n = text at hspells
    cases hspells
    exact (List.cons.inj htext).1
  · rintro rfl
    have hsymbol : symbol? ('(' :: cs) = some (.leftParen, 1) := rfl
    rw [read_symbol (by decide) (by decide) (by decide) hsymbol] at h
    exact (Prod.mk.inj h).1.symm

theorem opensCall_scan (offset : Nat) (cs : List Char) :
    Lexeme.opensCall (scan offset cs) = opensCall cs := by
  unfold opensCall
  fun_induction scan offset cs with
  | case1 => rfl
  | case2 offset c cs hc ih => rw [ih, List.dropWhile_cons_of_pos hc]
  | case3 offset c cs hc t n hread text ih =>
    have hparen := read_eq_leftParen_iff hread
    rw [List.dropWhile_cons_of_neg hc, List.head?_cons]
    by_cases ht : t = .leftParen
    · rw [hparen.mp ht, ht]
      rfl
    · have hc : some c ≠ some '(' := by simpa using mt hparen.mpr ht
      rw [Lexeme.opensCall_eq_false (by simpa using ht), decide_eq_false hc]

/-! ### Tokens of a skeleton -/

/-- The token of a placeholder. -/
def placeholder (index start : Nat) : Lexeme where
  token := .name (Extraction.placeholderName index)
  text := (Extraction.placeholderName index).toList
  start := start

theorem scan_placeholder (index start : Nat) :
    scan start (Extraction.placeholderName index).toList = [placeholder index start] := by
  have hdigits : ∀ c ∈ (toString index).toList, isNameChar c = true := by
    intro c hc
    rw [Nat.toString_eq_ofList_toDigits, String.toList_ofList] at hc
    have := Nat.isDigit_of_mem_toDigits (by decide) (by decide) hc
    unfold isNameChar Char.isAlphanum
    simp [this]
  have htext : (Extraction.placeholderName index).toList =
      '_' :: ("_const".toList ++ (toString index).toList) := by
    rw [Extraction.placeholderName, String.toList_append]
    rfl
  have hword : ∀ c ∈ "_const".toList ++ (toString index).toList, isNameChar c = true := by
    intro c hc
    rcases List.mem_append.mp hc with hc | hc
    · exact List.all_eq_true.mp (show "_const".toList.all isNameChar = true by decide) c hc
    · exact hdigits c hc
  have hstart : isNameStart '_' = true := by decide
  have hnil : ∀ c ∈ ([] : List Char).head?, isNameChar c = false := by simp
  have hread := read_word hstart hword hnil
  rw [List.append_nil, ofWord_name (by simp) (by simp), ← htext, String.ofList_toList] at hread
  rw [placeholder, htext, Layout.scan_token (by decide) hread, List.take_length, List.drop_length,
    scan]

open Extraction

/-- The tokens of a gap, the placeholder behind it, and the rest. -/
theorem scan_skeletonFrom (index start : Nat) (gap next : List Char) (gaps : List (List Char)) :
    scan start (skeletonFrom index gap (next :: gaps)) =
      scan start gap ++ placeholder index (start + byteLength gap + 1) ::
        scan (start + byteLength gap + 1 + byteLength (placeholderName index).toList + 1)
          (skeletonFrom (index + 1) next gaps) := by
  rw [skeletonFrom, scan_append_space, scan_append_space, scan_placeholder]
  rfl

/-- What comes behind a placeholder depends on the gap behind it alone. -/
theorem opensCall_scan_skeletonFrom (index start : Nat) (gap : List Char)
    (gaps : List (List Char)) :
    Lexeme.opensCall (scan start (skeletonFrom index gap gaps)) = opensCall gap := by
  cases gaps with
  | nil => exact opensCall_scan start gap
  | cons next gaps =>
    rw [scan_skeletonFrom, Lexeme.opensCall_append (by simp [placeholder]), opensCall_scan]

end Token

namespace Extraction

/-! ### Readings of a skeleton -/

variable {x : Extraction}

theorem start_of_mem_excerptsFrom {index read written : Nat} {gap : List Char} {parts : List Part}
    {y : Excerpt} (h : y ∈ excerptsFrom index read written gap parts) :
    written + byteLength gap < y.placeholderSpan.start := by
  induction parts generalizing index read written gap with
  | nil => simp [excerptsFrom] at h
  | cons p parts ih =>
    rw [excerptsFrom, List.mem_cons] at h
    rcases h with rfl | h
    · simp [Part.excerpt, Span.ofText]
    · have hstart := ih h
      simp only [Part.excerpt, Span.ofText] at hstart
      omega

/-- A name that stands where no placeholder begins is read as itself. -/
theorem reading_of_start {n : String} {span : Span}
    (h : ∀ y ∈ x.excerpts, y.placeholderSpan.start ≠ span.start) : x.reading n span = .name n := by
  have hnone : x.excerptAt? span = none := by
    refine List.find?_eq_none.mpr fun y hy hspan => h y hy ?_
    rw [of_decide_eq_true hspan]
  rw [reading, hnone]

/-- The first excerpt of a place is the one that is there. -/
theorem excerptAt?_of_split {y : Excerpt} {before after : List Excerpt}
    (hx : x.excerpts = before ++ y :: after)
    (h : ∀ z ∈ before, z.placeholderSpan.start ≠ y.placeholderSpan.start) :
    x.excerptAt? y.placeholderSpan = some y := by
  have hnone : before.find? (fun z => z.placeholderSpan = y.placeholderSpan) = none := by
    refine List.find?_eq_none.mpr fun z hz hspan => h z hz ?_
    rw [of_decide_eq_true hspan]
  rw [excerptAt?, hx, List.find?_append, hnone, Option.none_or]
  exact List.find?_cons_of_pos (decide_eq_true rfl)

/-- The first excerpt that has the place of a name is what the name is read as. -/
theorem reading_of_excerpt {n : String} {y : Excerpt} {before after : List Excerpt}
    (hx : x.excerpts = before ++ y :: after)
    (h : ∀ z ∈ before, z.placeholderSpan.start ≠ y.placeholderSpan.start) :
    x.reading n y.placeholderSpan = .constant y := by
  rw [reading, excerptAt?_of_split hx h]

/-- Where no placeholder begins, names are read as themselves. -/
theorem readings_of_starts {ls : List Lexeme}
    (h : ∀ l ∈ ls, ∀ y ∈ x.excerpts, y.placeholderSpan.start ≠ l.start) :
    Lexeme.readings x ls = (ls.filterMap Lexeme.name?).map .name := by
  induction ls with
  | nil => rfl
  | cons l ls ih =>
    rw [List.forall_mem_cons] at h
    obtain ⟨t, text, start⟩ := l
    cases t with
    | name n =>
      have hreading : x.reading n (.ofText start text) = .name n := reading_of_start h.1
      rw [Lexeme.readings, hreading, ite_self, ih h.2]
      rfl
    | _ =>
      rw [Lexeme.readings_cons (by simp), ih h.2]
      rfl

/-- What a literal is read as: its constant, or the name of its placeholder if a left parenthesis
comes behind it. -/
def Part.reading (p : Part) (y : Excerpt) : Reading :=
  if Token.opensCall p.gap then .name y.placeholder else .constant y

/-- What is read in gaps and in the literals between them. -/
def readingsOf (gap : List Char) (parts : List (Part × Excerpt)) : List Reading :=
  (namesIn gap).map .name ++
    parts.flatMap fun (p, y) => p.reading y :: (namesIn p.gap).map .name

section

variable {index read written : Nat} {gap : List Char} {parts : List Part} {before : List Excerpt}

/-- A gap behind the placeholders of some excerpts and before all other ones. -/
theorem readings_gap (hx : x.excerpts = before ++ excerptsFrom index read written gap parts)
    (hbefore : ∀ y ∈ before, y.placeholderSpan.start < written) :
    Lexeme.readings x (Token.scan written gap) = (namesIn gap).map .name := by
  rw [readings_of_starts, Token.names_scan]
  intro l hl y hy
  have hstart := Token.start_of_mem_scan hl
  rw [hx, List.mem_append] at hy
  rcases hy with hy | hy
  · have := hbefore y hy
    omega
  · have := start_of_mem_excerptsFrom hy
    omega

/-- A placeholder behind those of some excerpts. -/
theorem readings_placeholder {p : Part} {next : Nat} {gaps : List (List Char)}
    {after : List Excerpt} (hx : x.excerpts = before ++ p.excerpt index read written :: after)
    (hbefore : ∀ y ∈ before, y.placeholderSpan.start < written) :
    Lexeme.readings x (Token.placeholder index written ::
        Token.scan next (skeletonFrom (index + 1) p.gap gaps)) =
      p.reading (p.excerpt index read written) ::
        Lexeme.readings x (Token.scan next (skeletonFrom (index + 1) p.gap gaps)) := by
  have hnext := Token.opensCall_scan_skeletonFrom (index + 1) next p.gap gaps
  unfold Part.reading Token.placeholder
  cases hcall : Token.opensCall p.gap with
  | true =>
    rw [Lexeme.readings_called (hnext.trans hcall)]
    rfl
  | false =>
    have hreading : x.reading (placeholderName index)
        (.ofText written (placeholderName index).toList) =
          .constant (p.excerpt index read written) :=
      reading_of_excerpt hx fun y hy => Nat.ne_of_lt (hbefore y hy)
    rw [Lexeme.readings_plain (hnext.trans hcall), hreading]
    rfl

/-- A skeleton behind the placeholders of some excerpts is read as its gaps and literals. -/
theorem readings_skeletonFrom
    (hx : x.excerpts = before ++ excerptsFrom index read written gap parts)
    (hbefore : ∀ y ∈ before, y.placeholderSpan.start < written) :
    Lexeme.readings x (Token.scan written (skeletonFrom index gap (parts.map Part.gap))) =
      readingsOf gap (parts.zip (excerptsFrom index read written gap parts)) := by
  induction parts generalizing index read written gap before with
  | nil => simpa [skeletonFrom, excerptsFrom, readingsOf] using readings_gap hx hbefore
  | cons p parts ih =>
    have hgap := readings_gap hx hbefore
    rw [excerptsFrom] at hx ⊢
    have hafter : ∀ y ∈ before, y.placeholderSpan.start < written + byteLength gap + 1 := by
      intro y hy
      have := hbefore y hy
      omega
    have hrest := ih (hx.trans (List.append_cons _ _ _)) <| by
      intro y hy
      rcases List.mem_append.mp hy with hy | hy
      · have := hafter y hy
        simp only [Part.excerpt, Span.ofText]
        omega
      · rw [List.mem_singleton.mp hy]
        simp only [Part.excerpt, Span.ofText]
        omega
    rw [List.map_cons, Token.scan_skeletonFrom,
      Lexeme.readings_append (by simp [Token.placeholder]), hgap, readings_placeholder hx hafter]
    unfold readingsOf at hrest ⊢
    rw [List.zip_cons_cons, List.flatMap_cons]
    exact congrArg _ (congrArg _ hrest)

end

end Extraction
end TolerantExpr
