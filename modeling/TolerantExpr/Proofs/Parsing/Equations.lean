import TolerantExpr.Proofs.Parsing.Grammar

/-!
# The parser step by step

What each function of the parser reads, in terms of the others. Only what is read matters here, not
where the parser stops when it fails, so that results are seen without the proofs that come with
them.
-/

namespace TolerantExpr

namespace Expr

variable {α β : Type} {expected : Expectation} {least : Nat} {left : Expr} {ts rest : List Lexeme}
  {text text' : List Char} {start start' : Nat}

/-- What was read and what is left, if reading succeeded. -/
def read? {P : α × List Lexeme → Prop} (r : Except Stuck { r : α × List Lexeme // P r }) :
    Option (α × List Lexeme) :=
  r.toOption.map Subtype.val

section Steps

variable {P : α × List Lexeme → Prop} {Q : β × List Lexeme → Prop}
  {r : Except Stuck { r : α × List Lexeme // P r }}
  {k : { r : α × List Lexeme // P r } → Except Stuck { s : β × List Lexeme // Q s }}

theorem read?_bind {g : α × List Lexeme → Option (β × List Lexeme)}
    (h : ∀ s, read? (k s) = g s.1) : read? (r >>= k) = (read? r).bind g := by
  cases r with
  | error e => rfl
  | ok s => exact h s

theorem read?_map {f : α × List Lexeme → β × List Lexeme} (h : ∀ s, read? (k s) = some (f s.1)) :
    read? (r >>= k) = (read? r).map f := by
  cases r with
  | error e => rfl
  | ok s => exact h s

end Steps

/-! ### Operands -/

theorem read?_primary_literal {t : Token} {l : Literal} (h : t.literal? = some l) :
    read? (primary expected (⟨t, text, start⟩ :: rest)) =
      some (literal l (.ofText start text), rest) := by
  cases t <;> cases h <;> rw [primary] <;> rfl

theorem read?_primary_eq_none {t : Token} (hl : t.literal? = none) (hn : ∀ n, t ≠ .name n)
    (hp : t ≠ .leftParen) : read? (primary expected (⟨t, text, start⟩ :: rest)) = none := by
  cases t with
  | int n | float x | boolean b => cases hl
  | name n => exact absurd rfl (hn n)
  | leftParen => exact absurd rfl hp
  | operator op | rightParen | comma | stray c =>
    rw [primary]
    · rfl
    all_goals simp

/-- A name without a left parenthesis behind it is no call. -/
theorem read?_primary_name {n : String} (h : ∀ l ∈ rest.head?, l.token ≠ .leftParen) :
    read? (primary expected (⟨.name n, text, start⟩ :: rest)) =
      some (name n (.ofText start text), rest) := by
  rw [primary]
  · rfl
  · rintro text' start' inner rfl
    exact h _ rfl rfl

theorem read?_primary_call {f : String} :
    read? (primary expected (⟨.name f, text, start⟩ :: ⟨.leftParen, text', start'⟩ :: rest)) =
      (read? (arguments rest)).map fun r => (call f r.1.1 ⟨start, r.1.2⟩, r.2) := by
  rw [primary]
  exact read?_map fun s => rfl

/-- What is read up to a right parenthesis. -/
def closed (r : Expr × List Lexeme) : Option (Expr × List Lexeme) :=
  match r.2 with
  | ⟨.rightParen, _, _⟩ :: rest => some (r.1, rest)
  | _ => none

theorem read?_primary_parentheses :
    read? (primary expected (⟨.leftParen, text, start⟩ :: rest)) =
      (read? (expression 0 .expression rest)).bind closed := by
  rw [primary]
  refine read?_bind ?_
  intro h
  obtain ⟨⟨e, _ | ⟨⟨t, text, start⟩, after⟩⟩, h⟩ := h
  · rfl
  · cases t <;> rfl

theorem read?_operand_minus :
    read? (operand expected (⟨.minus, text, start⟩ :: rest)) =
      (read? (operand .operand rest)).map fun r =>
        (negate r.1 ((Span.ofText start text).join r.1.span), r.2) := by
  rw [Token.minus, operand]
  exact read?_map fun s => rfl

/-- The power that an operand is raised to, if there is one. -/
def raised (r : Expr × List Lexeme) : Option (Expr × List Lexeme) :=
  match r.2 with
  | ⟨.operator (.arithmetic .pow), _, _⟩ :: rest =>
    (read? (operand .operand rest)).map fun s =>
      (binary (.arithmetic .pow) r.1 s.1 (r.1.span.join s.1.span), s.2)
  | _ => some r

theorem raised_pow {r : Expr × List Lexeme}
    (h : r.2 = ⟨.operator (.arithmetic .pow), text, start⟩ :: rest) :
    raised r = (read? (operand .operand rest)).map fun s =>
      (binary (.arithmetic .pow) r.1 s.1 (r.1.span.join s.1.span), s.2) := by
  rw [raised, h]

theorem raised_of_not_pow {r : Expr × List Lexeme}
    (h : ∀ l ∈ r.2.head?, l.token ≠ .operator (.arithmetic .pow)) : raised r = some r := by
  unfold raised
  split
  · rename_i heq
    rw [heq] at h
    exact absurd rfl (h _ rfl)
  · rfl

theorem read?_operand (h : ∀ l ∈ ts.head?, l.token ≠ .minus) :
    read? (operand expected ts) = (read? (primary expected ts)).bind raised := by
  rw [operand]
  · refine read?_bind ?_
    intro h
    obtain ⟨⟨e, _ | ⟨⟨t, text, start⟩, after⟩⟩, h⟩ := h
    · rfl
    · cases t with
      | operator op =>
        cases op with
        | arithmetic op =>
          cases op with
          | pow => exact read?_map fun s => rfl
          | _ => rfl
        | _ => rfl
      | _ => rfl
  · rintro text start rest rfl
    exact h _ rfl rfl

/-! ### Operators -/

theorem read?_expression :
    read? (expression least expected ts) =
      (read? (operand expected ts)).bind fun r => read? (operators least r.1 r.2) := by
  rw [expression]
  refine read?_bind ?_
  intro h
  obtain ⟨⟨e, after⟩, h⟩ := h
  exact (read?_map fun s => rfl).trans Option.map_id'

theorem read?_operators_continue {op : BinaryOperator} (h : least ≤ op.level) :
    read? (operators least left (⟨.operator op, text, start⟩ :: rest)) =
      (read? (expression (op.level + 1) .operand rest)).bind fun r =>
        read? (operators least (binary op left r.1 (left.span.join r.1.span)) r.2) := by
  rw [← op.precedence_eq_level] at h ⊢
  rw [operators, if_pos h]
  refine read?_bind ?_
  intro h
  obtain ⟨⟨e, after⟩, h⟩ := h
  exact (read?_map fun s => rfl).trans Option.map_id'

theorem read?_operators_stop
    (h : ∀ l ∈ ts.head?, ∀ op, l.token = .operator op → op.level < least) :
    read? (operators least left ts) = some (left, ts) := by
  simp only [← BinaryOperator.precedence_eq_level] at h
  rcases ts with _ | ⟨⟨t, text, start⟩, ts⟩
  · rw [operators]
    · rfl
    · rintro op text start rest ⟨⟩
  · cases t with
    | operator op =>
      rw [operators, if_neg (Nat.not_le_of_lt (h _ rfl op rfl))]
      rfl
    | _ =>
      rw [operators]
      · rfl
      · rintro op text start rest ⟨⟩

/-! ### Arguments -/

theorem read?_arguments_nil :
    read? (arguments (⟨.rightParen, text, start⟩ :: rest)) =
      some (([], (Span.ofText start text).stop), rest) := by
  rw [arguments]
  rfl

theorem read?_arguments (h : ∀ l ∈ ts.head?, l.token ≠ .rightParen) :
    read? (arguments ts) = (read? (expression 0 .expression ts)).bind fun r =>
      (read? (moreArguments r.2)).map fun s => ((r.1 :: s.1.1, s.1.2), s.2) := by
  rw [arguments]
  · refine read?_bind ?_
    intro h
    obtain ⟨⟨e, after⟩, h⟩ := h
    exact read?_map fun s => rfl
  · rintro text start rest rfl
    exact h _ rfl rfl

theorem read?_moreArguments_nil :
    read? (moreArguments (⟨.rightParen, text, start⟩ :: rest)) =
      some (([], (Span.ofText start text).stop), rest) := by
  rw [moreArguments]
  rfl

theorem read?_moreArguments_comma :
    read? (moreArguments (⟨.comma, text, start⟩ :: rest)) =
      (read? (expression 0 .expression rest)).bind fun r =>
        (read? (moreArguments r.2)).map fun s => ((r.1 :: s.1.1, s.1.2), s.2) := by
  rw [moreArguments]
  refine read?_bind ?_
  intro h
  obtain ⟨⟨e, after⟩, h⟩ := h
  exact read?_map fun s => rfl

theorem read?_moreArguments_eq_none
    (h : ∀ l ∈ ts.head?, l.token ≠ .rightParen ∧ l.token ≠ .comma) :
    read? (moreArguments ts) = none := by
  rw [moreArguments]
  · rfl
  · rintro text start rest rfl
    exact (h _ rfl).1 rfl
  · rintro text start rest rfl
    exact (h _ rfl).2 rfl

/-! ### Whole texts -/

theorem ofLexemes_eq_ok_iff {e : Expr} :
    ofLexemes ts = .ok e ↔ read? (expression 0 .expression ts) = some (e, []) := by
  unfold ofLexemes
  cases expression 0 .expression ts with
  | error s =>
    constructor
    · intro h
      cases h
    · intro h
      cases h
  | ok r =>
    obtain ⟨⟨e', _ | ⟨l, after⟩⟩, h⟩ := r
    · change Except.ok e' = Except.ok e ↔ some (e', []) = some (e, [])
      simp
    · change Except.error _ = Except.ok e ↔ some (e', l :: after) = some (e, [])
      simp

end Expr

end TolerantExpr
