import TolerantExpr.Expr.Parse
import TolerantExpr.Proofs.Computations
import TolerantExpr.Proofs.Text.Boundaries

/-!
# Positions in what is parsed

The tokens of a text follow one another in it, and each begins and ends at a boundary. Whatever the
parser puts together from them keeps these places: a name stands where its token does, the span of
an expression covers those of its operands, and where the parser stops there is a token or the end
of the text.
-/

namespace TolerantExpr

variable {B : Nat → Prop} {Q : String → Span → Prop} {i j : Nat}

/-! ### Tokens in order -/

namespace Lexeme

/-- Of the ends of a token `B` holds, and if it is a name, `Q` holds of the name and its place. -/
structure Stands (B : Nat → Prop) (Q : String → Span → Prop) (l : Lexeme) : Prop where
  aligned : l.span.Aligned B
  named : ∀ n, l.token = .name n → Q n l.span

/-- Tokens one behind the other from an offset on. -/
inductive InOrder (B : Nat → Prop) (Q : String → Span → Prop) : Nat → List Lexeme → Prop where
  | nil (offset : Nat) : InOrder B Q offset []
  | cons {offset : Nat} {l : Lexeme} {ls : List Lexeme} (h : offset ≤ l.start)
    (hl : l.Stands B Q) (hls : InOrder B Q l.span.stop ls) : InOrder B Q offset (l :: ls)

variable {l : Lexeme} {ls : List Lexeme}

theorem InOrder.mono (h : InOrder B Q j ls) (hij : i ≤ j) : InOrder B Q i ls := by
  cases h with
  | nil => exact .nil i
  | cons h hl hls => exact .cons (hij.trans h) hl hls

/-- The tokens behind the first one, which begin where it ends or later. -/
theorem InOrder.tail (h : InOrder B Q i (l :: ls)) : InOrder B Q l.span.stop ls := by
  cases h with
  | cons _ _ hls => exact hls

theorem InOrder.skip (h : InOrder B Q i (l :: ls)) : InOrder B Q i ls := by
  cases h with
  | cons h hl hls => exact hls.mono (h.trans hl.aligned.ordered)

theorem InOrder.stands_of_mem (h : InOrder B Q i ls) : ∀ l ∈ ls, l.Stands B Q := by
  induction h with
  | nil => simp
  | cons _ hl _ ih => exact List.forall_mem_cons.mpr ⟨hl, ih⟩

end Lexeme

/-- The tokens of a text are in order behind what comes before it. -/
theorem Token.scan_inOrder (before cs : List Char)
    (hQ : ∀ l ∈ scan (byteLength before) cs, ∀ n, l.token = .name n → Q n l.span) :
    Lexeme.InOrder (Boundary (before ++ cs)) Q (byteLength before)
      (scan (byteLength before) cs) := by
  generalize hoffset : byteLength before = offset at hQ
  fun_induction scan offset cs generalizing before with
  | case1 offset => exact .nil offset
  | case2 offset c cs hc ih =>
    subst hoffset
    have hrest := ih (before ++ [c]) (by simp) hQ
    rw [List.append_assoc] at hrest
    exact hrest.mono (Nat.le_add_right _ _)
  | case3 offset c cs hc t n hread text ih =>
    subst hoffset
    obtain ⟨hfirst, hQ⟩ := List.forall_mem_cons.mp hQ
    have hsplit : before ++ c :: cs = before ++ text ++ cs.drop n := by
      simp [text]
    have hrest := ih (before ++ text) (by simp) hQ
    have hstart := boundary_append before (text ++ cs.drop n)
    have hstop := boundary_append (before ++ text) (cs.drop n)
    rw [← List.append_assoc] at hstart
    rw [byteLength_append] at hstop
    rw [hsplit]
    exact .cons le_rfl ⟨⟨Nat.le_add_right _ _, hstart, hstop⟩, hfirst⟩ hrest

/-! ### Expressions -/

namespace Expr

/-- The expressions that an expression is put together from. -/
def operands : Expr → List Expr
  | literal _ _ => []
  | name _ _ => []
  | negate e _ => [e]
  | binary _ l r _ => [l, r]
  | call _ es _ => es

/-- All spans of an expression have ends of which `B` holds, and each covers those below it; of the
names in it and their places `Q` holds. -/
inductive Placed (B : Nat → Prop) (Q : String → Span → Prop) : Expr → Prop where
  | intro {e : Expr} (aligned : e.span.Aligned B) (named : ∀ n s, e = name n s → Q n s)
    (operands : ∀ x ∈ e.operands, Placed B Q x)
    (covers : ∀ x ∈ e.operands, e.span.Covers x.span) : Placed B Q e

theorem Placed.aligned {e : Expr} (h : e.Placed B Q) : e.span.Aligned B := by
  cases h with
  | intro aligned => exact aligned

theorem Placed.named {n : String} {s : Span} (h : (name n s).Placed B Q) : Q n s := by
  cases h with
  | intro _ named => exact named n s rfl

/-- An expression read from tokens that begin at the offset `i`, and the tokens left behind it. -/
structure ReadFrom (B : Nat → Prop) (Q : String → Span → Prop) (i : Nat)
    (r : Expr × List Lexeme) : Prop where
  placed : r.1.Placed B Q
  start : i ≤ r.1.span.start
  rest : Lexeme.InOrder B Q r.1.span.stop r.2

/-- Arguments read from tokens that begin at the offset `i`, up to where the parenthesis behind them
ends, and the tokens left. -/
structure ReadAllFrom (B : Nat → Prop) (Q : String → Span → Prop) (i : Nat)
    (r : (List Expr × Nat) × List Lexeme) : Prop where
  placed : ∀ e ∈ r.1.1, e.Placed B Q
  covers : ∀ e ∈ r.1.1, Span.Covers ⟨i, r.1.2⟩ e.span
  ordered : i ≤ r.1.2
  stop : B r.1.2
  rest : Lexeme.InOrder B Q r.1.2 r.2

/-- The parser stopped at tokens that begin where `B` holds. -/
def Stuck.At (B : Nat → Prop) (s : Stuck) : Prop := ∀ l ∈ s.rest, B l.start

theorem stuck_at {expected : Expectation} {ts : List Lexeme} (h : Lexeme.InOrder B Q i ts) :
    Stuck.At B ⟨expected, ts⟩ := fun l hl => (h.stands_of_mem l hl).aligned.start

section Parts

variable {left : Expr} {l p : Lexeme} {ls : List Lexeme} {r : Expr × List Lexeme}
  {rs : (List Expr × Nat) × List Lexeme}

/-- A literal or a name, where its token is. -/
theorem ReadFrom.leaf {e : Expr} (h : Lexeme.InOrder B Q i (l :: ls)) (he : e.operands = [])
    (hspan : e.span = l.span) (hname : ∀ n s, e = name n s → l.token = .name n) :
    ReadFrom B Q i (e, ls) := by
  cases h with
  | cons h hl hls =>
    have hplaced : e.Placed B Q := by
      refine .intro ?_ ?_ (by simp [he]) (by simp [he])
      · rw [hspan]
        exact hl.aligned
      · rintro n s rfl
        rw [show s = l.span from hspan]
        exact hl.named n (hname n s rfl)
    refine ⟨hplaced, ?_, ?_⟩ <;> rw [hspan]
    exacts [h, hls]

/-- What is put together from a first part and an expression behind it ends where that ends. -/
theorem ReadFrom.joined {s : Span} {e : Expr} (hs : s.Aligned B) (hi : i ≤ s.start)
    (hr : ReadFrom B Q s.stop r) (hspan : e.span = s.join r.1.span) (hname : ∀ n t, e ≠ name n t)
    (hplaced : ∀ x ∈ e.operands, x.Placed B Q) (hcovers : ∀ x ∈ e.operands, e.span.Covers x.span) :
    ReadFrom B Q i (e, r.2) := by
  have hright := hr.placed.aligned
  refine ⟨.intro ?_ (fun n t he => absurd he (hname n t)) hplaced hcovers, ?_, ?_⟩
  · rw [hspan]
    exact Span.aligned_join hs hright
  · rw [hspan]
    exact le_min hi (hi.trans (hs.ordered.trans hr.start))
  · rw [hspan]
    exact hr.rest.mono (max_le (hr.start.trans hright.ordered) le_rfl)

theorem ReadFrom.negate {s : Span} (hs : s.Aligned B) (hi : i ≤ s.start)
    (hr : ReadFrom B Q s.stop r) : ReadFrom B Q i (negate r.1 (s.join r.1.span), r.2) := by
  refine hr.joined hs hi rfl (by simp) ?_ ?_
  · exact List.forall_mem_singleton.mpr hr.placed
  · exact List.forall_mem_singleton.mpr (Span.covers_join_right _ _)

theorem ReadFrom.binary (op : BinaryOperator) (hleft : left.Placed B Q) (hi : i ≤ left.span.start)
    (hr : ReadFrom B Q left.span.stop r) :
    ReadFrom B Q i (binary op left r.1 (left.span.join r.1.span), r.2) := by
  refine hr.joined hleft.aligned hi rfl (by simp) ?_ ?_
  · simpa [operands] using ⟨hleft, hr.placed⟩
  · simpa [operands] using
      ⟨Span.covers_join_left left.span r.1.span, Span.covers_join_right left.span r.1.span⟩

/-- A call begins with the name and ends with the right parenthesis. -/
theorem ReadFrom.call (f : String) (h : Lexeme.InOrder B Q i (l :: p :: ls))
    (hr : ReadAllFrom B Q p.span.stop rs) :
    ReadFrom B Q i (call f rs.1.1 ⟨l.start, rs.1.2⟩, rs.2) := by
  cases h with
  | cons h hl hls =>
    cases hls with
    | cons hp hp' _ =>
      have hle : l.start ≤ p.span.stop :=
        hl.aligned.ordered.trans (hp.trans hp'.aligned.ordered)
      have haligned : Span.Aligned B ⟨l.start, rs.1.2⟩ :=
        ⟨hle.trans hr.ordered, hl.aligned.start, hr.stop⟩
      refine ⟨.intro haligned (by simp) hr.placed fun x hx => ?_, h, hr.rest⟩
      exact ⟨hle.trans (hr.covers x hx).start, (hr.covers x hx).stop⟩

/-- Parentheses do not count. -/
theorem ReadFrom.closed {after : List Lexeme} (h : Lexeme.InOrder B Q i (l :: ls))
    (hr : ReadFrom B Q l.span.stop (left, p :: after)) : ReadFrom B Q i (left, after) := by
  cases h with
  | cons h hl _ => exact ⟨hr.placed, h.trans (hl.aligned.ordered.trans hr.start), hr.rest.skip⟩

theorem ReadAllFrom.nil (h : Lexeme.InOrder B Q i (l :: ls)) :
    ReadAllFrom B Q i (([], l.span.stop), ls) := by
  cases h with
  | cons h hl hls => exact ⟨by simp, by simp, h.trans hl.aligned.ordered, hl.aligned.stop, hls⟩

theorem ReadAllFrom.cons (hr : ReadFrom B Q i r) (hrs : ReadAllFrom B Q r.1.span.stop rs) :
    ReadAllFrom B Q i ((r.1 :: rs.1.1, rs.1.2), rs.2) := by
  have hle := hr.start.trans hr.placed.aligned.ordered
  refine ⟨List.forall_mem_cons.mpr ⟨hr.placed, hrs.placed⟩, ?_, hle.trans hrs.ordered, hrs.stop,
    hrs.rest⟩
  refine List.forall_mem_cons.mpr ⟨⟨hr.start, hrs.ordered⟩, fun x hx => ?_⟩
  exact ⟨hle.trans (hrs.covers x hx).start, (hrs.covers x hx).stop⟩

end Parts

/-! ### The parser -/

mutual

theorem primary_placed (expected : Expectation) (ts : List Lexeme) {i : Nat}
    (h : Lexeme.InOrder B Q i ts) :
    LeadsTo (primary expected ts) (fun r => ReadFrom B Q i r.1) (Stuck.At B) := by
  unfold primary
  split
  · exact .leaf h rfl rfl (by simp)
  · exact .leaf h rfl rfl (by simp)
  · exact .leaf h rfl rfl (by simp)
  · refine (arguments_placed _ h.tail.tail).bind ?_
    intro r hr
    exact .call _ h hr
  · exact .leaf h rfl rfl (by simp)
  · refine (expression_placed 0 .expression _ h.tail).bind ?_
    intro r hr
    obtain ⟨⟨e, _ | ⟨⟨t, text, start⟩, after⟩⟩, hlen⟩ := r
    · exact stuck_at hr.rest
    · cases t with
      | rightParen => exact hr.closed h
      | _ => exact stuck_at hr.rest
  · exact stuck_at h
termination_by (ts.length, 0)

theorem operand_placed (expected : Expectation) (ts : List Lexeme) {i : Nat}
    (h : Lexeme.InOrder B Q i ts) :
    LeadsTo (operand expected ts) (fun r => ReadFrom B Q i r.1) (Stuck.At B) := by
  unfold operand
  split
  · refine (operand_placed .operand _ h.tail).bind ?_
    intro r hr
    cases h with
    | cons h hl _ => exact hr.negate hl.aligned h
  · refine (primary_placed expected _ h).bind ?_
    intro r hr
    obtain ⟨⟨e, after⟩, hlen⟩ := r
    have hshort : after.length < _ := hlen
    dsimp only
    split
    · refine (operand_placed .operand _ hr.rest.skip).bind ?_
      intro s hs
      exact hs.binary _ hr.placed hr.start
    · exact hr
termination_by (ts.length, 1)
decreasing_by
  · subst_vars
    exact Prod.Lex.left _ _ (Nat.lt_succ_self _)
  · subst_vars
    exact Prod.Lex.right _ Nat.zero_lt_one
  · apply Prod.Lex.left
    simp only [List.length_cons] at hshort
    omega

theorem expression_placed (least : Nat) (expected : Expectation) (ts : List Lexeme) {i : Nat}
    (h : Lexeme.InOrder B Q i ts) :
    LeadsTo (expression least expected ts) (fun r => ReadFrom B Q i r.1) (Stuck.At B) := by
  unfold expression
  refine (operand_placed expected ts h).bind ?_
  intro r hr
  obtain ⟨⟨e, after⟩, hlen⟩ := r
  refine (operators_placed least e after hr).bind ?_
  intro s hs
  exact hs
termination_by (ts.length, 2)

theorem operators_placed (least : Nat) (left : Expr) (ts : List Lexeme) {i : Nat}
    (h : ReadFrom B Q i (left, ts)) :
    LeadsTo (operators least left ts) (fun r => ReadFrom B Q i r.1) (Stuck.At B) := by
  unfold operators
  split
  · split
    · refine (expression_placed _ .operand _ h.rest.skip).bind ?_
      intro r hr
      obtain ⟨⟨right, after⟩, hlen⟩ := r
      have hshort : after.length < _ := hlen
      refine (operators_placed least _ after (hr.binary _ h.placed h.start)).bind ?_
      intro s hs
      exact hs
    · exact h
  · exact h
termination_by (ts.length, 0)
decreasing_by
  all_goals
    subst_vars
    apply Prod.Lex.left
    simp only [List.length_cons] at *
    omega

theorem arguments_placed (ts : List Lexeme) {i : Nat}
    (h : Lexeme.InOrder B Q i ts) :
    LeadsTo (arguments ts) (fun r => ReadAllFrom B Q i r.1) (Stuck.At B) := by
  unfold arguments
  split
  · exact .nil h
  · refine (expression_placed 0 .expression _ h).bind ?_
    intro r hr
    obtain ⟨⟨e, after⟩, hlen⟩ := r
    refine (moreArguments_placed after hr.rest).bind ?_
    intro s hs
    exact .cons hr hs
termination_by (ts.length, 3)

theorem moreArguments_placed (ts : List Lexeme) {i : Nat}
    (h : Lexeme.InOrder B Q i ts) :
    LeadsTo (moreArguments ts) (fun r => ReadAllFrom B Q i r.1) (Stuck.At B) := by
  unfold moreArguments
  split
  · exact .nil h
  · refine (expression_placed 0 .expression _ h.skip).bind ?_
    intro r hr
    obtain ⟨⟨e, after⟩, hlen⟩ := r
    have hshort : after.length < _ := hlen
    refine (moreArguments_placed after hr.rest).bind ?_
    intro s hs
    exact .cons hr hs
  · exact stuck_at h
termination_by (ts.length, 0)
decreasing_by
  all_goals
    subst_vars
    apply Prod.Lex.left
    simp only [List.length_cons] at *
    omega

end

theorem ofLexemes_placed (ts : List Lexeme) (h : Lexeme.InOrder B Q 0 ts) :
    LeadsTo (ofLexemes ts) (Placed B Q) (Stuck.At B) := by
  refine (expression_placed 0 .expression ts h).bind ?_
  intro r hr
  obtain ⟨⟨e, _ | ⟨l, rest⟩⟩, hlen⟩ := r
  · exact hr.placed
  · exact stuck_at hr.rest

end Expr

/-! ### Whole texts -/

/-- Where parentheses go too deep there is a parenthesis. -/
theorem boundary_of_tooDeepAt? {limit depth offset : Nat} (before : List Char) {cs : List Char}
    (h : tooDeepAt? limit depth (byteLength before) cs = some offset) :
    Boundary (before ++ cs) offset ∧ Boundary (before ++ cs) (offset + 1) := by
  induction cs generalizing depth before with
  | nil => cases h
  | cons c cs ih =>
    have hsplit : before ++ c :: cs = before ++ [c] ++ cs := by simp
    have hlength : byteLength before + c.utf8Size = byteLength (before ++ [c]) := by simp
    rw [tooDeepAt?, hlength] at h
    split at h
    · rename_i hc
      subst hc
      split at h
      · cases h
        refine ⟨boundary_append _ _, ?_⟩
        have hstop := boundary_append (before ++ ['(']) cs
        rw [byteLength_append] at hstop
        rw [hsplit]
        exact hstop
      · rw [hsplit]
        exact ih _ h
    · rw [hsplit]
      split at h <;> exact ih _ h

/-- A text is read as an expression with its places in the text, or not at a place in the text. -/
theorem Expr.parse_placed (source : String) (maxDepth : Nat)
    (hQ : ∀ l ∈ Token.scan 0 source.toList, ∀ n, l.token = .name n → Q n l.span) :
    LeadsTo (parse source maxDepth) (Placed (Boundary source.toList) Q) fun f =>
      f.span.Aligned (Boundary source.toList) ∧ f.context = [] := by
  have hts : Lexeme.InOrder (Boundary source.toList) Q 0 (Token.scan 0 source.toList) :=
    Token.scan_inOrder [] source.toList hQ
  unfold parse
  split
  · rename_i offset hdeep
    obtain ⟨hstart, hstop⟩ := boundary_of_tooDeepAt? [] hdeep
    exact ⟨⟨Nat.le_succ _, hstart, hstop⟩, rfl⟩
  · have hplaced := ofLexemes_placed _ hts
    dsimp only
    split
    · rename_i stuck hstuck
      rw [hstuck] at hplaced
      refine ⟨Span.aligned_point ?_, rfl⟩
      split
      · rename_i l rest hrest
        exact hplaced l (by simp [hrest])
      · exact boundary_byteLength _
    · rename_i e he
      rw [he] at hplaced
      split
      · rename_i l hl
        exact ⟨(hts.stands_of_mem l (List.mem_of_find?_eq_some hl)).aligned, rfl⟩
      · exact hplaced

end TolerantExpr
