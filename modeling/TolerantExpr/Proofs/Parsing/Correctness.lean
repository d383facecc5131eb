import TolerantExpr.Proofs.Parsing.Completeness
import TolerantExpr.Proofs.Parsing.Layouts
import Mathlib

/-!
# Parsing accepts the grammar, and nothing else

A text is read as a tree if it is laid out as tokens that write the tree, its parentheses are not
nested too deeply, and its integers fit in 64 bits. If only the last of these fails, the failure
names the first integer that does not fit. No text writes two trees.
-/

namespace TolerantExpr

/-- How deep the parentheses of a text go, from a depth on. -/
def nesting : Nat → List Char → Nat
  | depth, [] => depth
  | depth, c :: cs =>
    if c = '(' then nesting (depth + 1) cs
    else if c = ')' then max depth (nesting (depth - 1) cs)
    else nesting depth cs

/-- The token is no integer, or one that 64 bits hold. -/
def Lexeme.Fits (l : Lexeme) : Prop := ∀ n : Nat, l.token = .int n → n ≤ Int64.maxValue.toInt

/-- A text made of tokens that write a tree. -/
structure Rendering (source : String) (t : Tree) (ls : List Lexeme) : Prop where
  layout : Layout 0 ls source.toList
  renders : Renders 0 t (ls.map Lexeme.token)

/-! ### Nesting -/

theorem le_nesting (depth : Nat) (cs : List Char) : depth ≤ nesting depth cs := by
  induction cs generalizing depth with
  | nil => exact Nat.le_refl _
  | cons c cs ih =>
    rw [nesting]
    split
    · have := ih (depth + 1)
      omega
    · split
      · exact Nat.le_max_left _ _
      · exact ih depth

theorem tooDeepAt?_eq_none_iff {limit depth offset : Nat} {cs : List Char} (h : depth ≤ limit) :
    tooDeepAt? limit depth offset cs = none ↔ nesting depth cs ≤ limit := by
  induction cs generalizing depth offset with
  | nil => simpa [tooDeepAt?, nesting] using h
  | cons c cs ih =>
    rw [tooDeepAt?, nesting]
    by_cases hopen : c = '('
    · rw [if_pos hopen, if_pos hopen]
      by_cases hdeep : limit < depth + 1
      · have := le_nesting (depth + 1) cs
        rw [if_pos hdeep]
        constructor
        · intro h
          cases h
        · omega
      · rw [if_neg hdeep]
        exact ih (by omega)
    · rw [if_neg hopen, if_neg hopen]
      by_cases hclose : c = ')'
      · rw [if_pos hclose, if_pos hclose, ih (by omega)]
        omega
      · rw [if_neg hclose, if_neg hclose]
        exact ih h

theorem Lexeme.isOversized_iff {l : Lexeme} : l.isOversized = true ↔ ¬l.Fits := by
  obtain ⟨t, text, start⟩ := l
  cases t with
  | int n =>
    have hfits : Fits ⟨.int n, text, start⟩ ↔ n ≤ Int64.maxValue.toInt := by
      constructor
      · intro h
        exact h n rfl
      · rintro h _ ⟨⟩
        exact h
    rw [hfits, isOversized, decide_eq_true_eq, Int.not_le]
  | _ => simp [isOversized, Fits]

/-! ### Renderings -/

variable {source : String} {limit : Nat} {t u : Tree} {ls ms : List Lexeme}

theorem Renders.ne_stray {p : Nat} {us : List Token} (h : Renders p t us) :
    ∀ v ∈ us, ∀ c, v ≠ .stray c := by
  induction h with
  | literal h =>
    intro v hv c hc
    rw [List.mem_singleton] at hv
    rw [← hv, hc] at h
    cases h
  | name n => simp
  | call f as has ih =>
    have hargs : ∀ v ∈ List.intercalate [.comma] (as.map Prod.snd), ∀ c, v ≠ .stray c := by
      cases as with
      | nil => simp [List.intercalate]
      | cons a as =>
        rw [List.map_cons, intercalate_cons, List.flatMap_map]
        intro v hv
        simp only [List.mem_append, List.mem_flatMap, List.mem_singleton] at hv
        rcases hv with hv | ⟨b, hb, rfl | hv⟩
        · exact ih a List.mem_cons_self v hv
        · simp
        · exact ih b (List.mem_cons_of_mem _ hb) v hv
    intro v hv
    simp only [List.mem_cons, List.mem_append, List.not_mem_nil, or_false] at hv
    rcases hv with rfl | rfl | hv | rfl
    · simp
    · simp
    · exact hargs v hv
    · simp
  | parentheses _ ih =>
    intro v hv
    simp only [List.mem_cons, List.mem_append, List.not_mem_nil, or_false] at hv
    rcases hv with rfl | hv | rfl
    · simp
    · exact ih v hv
    · simp
  | negate _ _ ih =>
    intro v hv
    rcases List.mem_cons.mp hv with rfl | hv
    · simp [Token.minus]
    · exact ih v hv
  | binary _ _ _ ihl ihr =>
    intro v hv
    rcases List.mem_append.mp hv with hv | hv
    · exact ihl v hv
    · rcases List.mem_cons.mp hv with rfl | hv
      · simp
      · exact ihr v hv

theorem Rendering.scan_eq (h : Rendering source t ls) : Token.scan 0 source.toList = ls :=
  h.layout.scan_eq h.renders.isChain

theorem Rendering.ofLexemes (h : Rendering source t ls) :
    ∃ e, Expr.ofLexemes (Token.scan 0 source.toList) = .ok e ∧ e.tree = t := by
  rw [h.scan_eq]
  exact Expr.ofLexemes_complete h.renders

theorem rendering_of_ofLexemes {e : Expr}
    (h : Expr.ofLexemes (Token.scan 0 source.toList) = .ok e) :
    Rendering source e.tree (Token.scan 0 source.toList) := by
  have hrenders := Expr.ofLexemes_sound h
  refine ⟨Layout.of_scan 0 source.toList fun l hl => ?_, hrenders⟩
  exact hrenders.ne_stray _ (List.mem_map_of_mem hl)

/-- No text writes two trees, or one tree with different tokens. -/
theorem Rendering.unique (h : Rendering source t ls) (h' : Rendering source u ms) :
    t = u ∧ ls = ms := by
  obtain ⟨e, he, rfl⟩ := h.ofLexemes
  obtain ⟨e', he', rfl⟩ := h'.ofLexemes
  rw [he] at he'
  obtain rfl := Except.ok.inj he'
  exact ⟨rfl, h.scan_eq.symm.trans h'.scan_eq⟩

/-! ### Parsing -/

/-- Once the nesting is in the limit and the tokens write an expression, all depends on the
integers. -/
theorem parse_of_ofLexemes {e : Expr} (hdeep : nesting 0 source.toList ≤ limit)
    (h : Expr.ofLexemes (Token.scan 0 source.toList) = .ok e) :
    Expr.parse source limit =
      ((Token.scan 0 source.toList).find? Lexeme.isOversized).elim (.ok e) fun l =>
        .error { cause := .invalidNumber (String.ofList l.text), source, span := l.span } := by
  unfold Expr.parse
  dsimp only
  rw [(tooDeepAt?_eq_none_iff (Nat.zero_le _)).mpr hdeep]
  rw [h]
  cases hfind : (Token.scan 0 source.toList).find? Lexeme.isOversized with
  | some l => rw [Option.elim_some]
  | none => rw [Option.elim_none]

/-- In all other cases the text or its nesting is at fault, and no integer is. -/
theorem parse_fails (h : nesting 0 source.toList ≤ limit →
      ∀ e, Expr.ofLexemes (Token.scan 0 source.toList) ≠ .ok e) :
    ∃ cause span, (∀ text, cause ≠ .invalidNumber text) ∧
      Expr.parse source limit = .error { cause := cause, source := source, span := span } := by
  unfold Expr.parse
  dsimp only
  cases hdeep : tooDeepAt? limit 0 0 source.toList with
  | some offset => exact ⟨_, _, by simp, rfl⟩
  | none =>
    rw [tooDeepAt?_eq_none_iff (Nat.zero_le _)] at hdeep
    cases hread : Expr.ofLexemes (Token.scan 0 source.toList) with
    | error stuck => exact ⟨_, _, by simp, rfl⟩
    | ok e => exact absurd hread (h hdeep e)

/-- A text that is parsed, or of which an integer is rejected, is one expression. -/
theorem readable_of_parse {r : Except ParseFailure Expr} (h : Expr.parse source limit = r)
    (hr : ∀ cause span, r = .error { cause := cause, source := source, span := span } →
      ∃ text, cause = .invalidNumber text) :
    nesting 0 source.toList ≤ limit ∧
      ∃ e, Expr.ofLexemes (Token.scan 0 source.toList) = .ok e := by
  by_contra hnot
  obtain ⟨cause, span, hcause, hparse⟩ := parse_fails fun hdeep e he => hnot ⟨hdeep, e, he⟩
  obtain ⟨text, htext⟩ := hr cause span (h.symm.trans hparse)
  exact hcause text htext

theorem parse_eq_ok_iff {e : Expr} :
    Expr.parse source limit = .ok e ↔ nesting 0 source.toList ≤ limit ∧
      Expr.ofLexemes (Token.scan 0 source.toList) = .ok e ∧
      ∀ l ∈ Token.scan 0 source.toList, l.Fits := by
  have hnone : (Token.scan 0 source.toList).find? Lexeme.isOversized = none ↔
      ∀ l ∈ Token.scan 0 source.toList, l.Fits := by
    simp only [List.find?_eq_none, Lexeme.isOversized_iff, not_not]
  constructor
  · intro h
    obtain ⟨hdeep, e', he'⟩ := readable_of_parse h (by simp)
    rw [parse_of_ofLexemes hdeep he'] at h
    cases hfind : (Token.scan 0 source.toList).find? Lexeme.isOversized with
    | some l =>
      rw [hfind, Option.elim_some] at h
      cases h
    | none =>
      rw [hfind, Option.elim_none] at h
      obtain rfl := Except.ok.inj h
      exact ⟨hdeep, he', hnone.mp hfind⟩
  · intro h
    obtain ⟨hdeep, he, hfits⟩ := h
    rw [parse_of_ofLexemes hdeep he, hnone.mpr hfits, Option.elim_none]

theorem parse_eq_invalidNumber_iff {text : String} {span : Span} :
    Expr.parse source limit =
        .error { cause := .invalidNumber text, source := source, span := span } ↔
      nesting 0 source.toList ≤ limit ∧
      (∃ e, Expr.ofLexemes (Token.scan 0 source.toList) = .ok e) ∧
      ∃ before l after, Token.scan 0 source.toList = before ++ l :: after ∧
        (∀ k ∈ before, k.Fits) ∧ ¬l.Fits ∧ text = String.ofList l.text ∧ span = l.span := by
  have hsome : ∀ l, (Token.scan 0 source.toList).find? Lexeme.isOversized = some l ↔
      ¬l.Fits ∧ ∃ before after, Token.scan 0 source.toList = before ++ l :: after ∧
        ∀ k ∈ before, k.Fits := by
    intro l
    simp only [List.find?_eq_some_iff_append, Lexeme.isOversized_iff, Bool.not_eq_true',
      ← Bool.not_eq_true, not_not]
  constructor
  · intro h
    obtain ⟨hdeep, e, he⟩ := readable_of_parse h (by rintro _ _ ⟨⟩; exact ⟨text, rfl⟩)
    rw [parse_of_ofLexemes hdeep he] at h
    cases hfind : (Token.scan 0 source.toList).find? Lexeme.isOversized with
    | some l =>
      rw [hfind, Option.elim_some] at h
      cases h
      obtain ⟨hl, before, after, hscan, hbefore⟩ := (hsome l).mp hfind
      exact ⟨hdeep, ⟨e, he⟩, before, l, after, hscan, hbefore, hl, rfl, rfl⟩
    | none =>
      rw [hfind, Option.elim_none] at h
      cases h
  · intro h
    obtain ⟨hdeep, ⟨e, he⟩, before, l, after, hscan, hbefore, hl, rfl, rfl⟩ := h
    rw [parse_of_ofLexemes hdeep he, (hsome l).mpr ⟨hl, before, after, hscan, hbefore⟩,
      Option.elim_some]

/-- A text is parsed as a tree if it is a rendering of the tree, with all integers in the range;
and parsing complains about an integer if the text is a rendering, and this is the first integer
that is out of the range. Either way the parentheses must not be nested too deeply. -/
theorem parse_spec (source : String) (limit : Nat) :
    (∀ t, (∃ e, Expr.parse source limit = .ok e ∧ e.tree = t) ↔
      nesting 0 source.toList ≤ limit ∧ ∃ ls, Rendering source t ls ∧ ∀ l ∈ ls, l.Fits) ∧
    ∀ text span, Expr.parse source limit =
        .error { cause := .invalidNumber text, source := source, span := span } ↔
      nesting 0 source.toList ≤ limit ∧ ∃ t before l after,
        Rendering source t (before ++ l :: after) ∧ (∀ k ∈ before, k.Fits) ∧ ¬l.Fits ∧
        text = String.ofList l.text ∧ span = l.span := by
  constructor
  · intro t
    simp only [parse_eq_ok_iff]
    constructor
    · intro h
      obtain ⟨e, ⟨hdeep, he, hfits⟩, rfl⟩ := h
      exact ⟨hdeep, _, rendering_of_ofLexemes he, hfits⟩
    · intro h
      obtain ⟨hdeep, ls, h, hfits⟩ := h
      obtain ⟨e, he, rfl⟩ := h.ofLexemes
      exact ⟨e, ⟨hdeep, he, h.scan_eq ▸ hfits⟩, rfl⟩
  · intro text span
    rw [parse_eq_invalidNumber_iff]
    constructor
    · intro h
      obtain ⟨hdeep, ⟨e, he⟩, before, l, after, hscan, hbefore, hl, htext, hspan⟩ := h
      have hrendering := rendering_of_ofLexemes he
      rw [hscan] at hrendering
      exact ⟨hdeep, e.tree, before, l, after, hrendering, hbefore, hl, htext, hspan⟩
    · intro h
      obtain ⟨hdeep, t, before, l, after, h, hbefore, hl, htext, hspan⟩ := h
      obtain ⟨e, he, -⟩ := h.ofLexemes
      exact ⟨hdeep, ⟨e, he⟩, before, l, after, h.scan_eq, hbefore, hl, htext, hspan⟩

/-- A negation as an exponent does not take in what comes behind the power. -/
theorem parse_spec_negated_exponent :
    nesting 0 "a ^ -b*(c)".toList ≤ 1 ∧ ∃ ls, Rendering "a ^ -b*(c)"
      (.binary (.arithmetic .mul) (.binary (.arithmetic .pow) (.name "a") (.negate (.name "b")))
        (.name "c")) ls ∧ ∀ l ∈ ls, l.Fits := by
  refine ((parse_spec "a ^ -b*(c)" 1).1 _).mp ⟨.binary (.arithmetic .mul)
    (.binary (.arithmetic .pow) (.name "a" ⟨0, 1⟩) (.negate (.name "b" ⟨5, 6⟩) ⟨4, 6⟩) ⟨0, 6⟩)
    (.name "c" ⟨8, 9⟩) ⟨0, 9⟩, ?_, rfl⟩
  cbv

end TolerantExpr
