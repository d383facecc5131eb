import TolerantExpr.Proofs.Parsing.Soundness

/-!
# What is grammatical is read

Tokens that write a tree are read as that tree. How far the parser goes depends on what follows:
no left parenthesis may follow, and no operator that binds tighter than the place of the tree
allows. An operator that binds as loosely as its left operand has still to be read, so that what an
expression reads is given in terms of the operators that follow.
-/

namespace TolerantExpr.Expr

variable {p q : Nat} {us : List Lexeme} {e : Expr}

/-- What follows does not make a name the name of a call. -/
def NoCall (rest : List Lexeme) : Prop := ∀ l ∈ rest.head?, l.token ≠ .leftParen

def ReadsPrimary (us : List Lexeme) (e : Expr) : Prop :=
  ∀ expected rest, NoCall rest → read? (primary expected (us ++ rest)) = some (e, rest)

def ReadsOperand (us : List Lexeme) (e : Expr) : Prop :=
  ∀ expected rest, NoCall rest → Free unaryLevel rest →
    read? (operand expected (us ++ rest)) = some (e, rest)

/-- An operator of the level `p` may follow: it takes what was read as its left operand. -/
def ReadsExpression (p : Nat) (us : List Lexeme) (e : Expr) : Prop :=
  ∀ expected least rest, least ≤ p → NoCall rest → Free (min (p + 1) unaryLevel) rest →
    read? (expression least expected (us ++ rest)) = read? (operators least e rest)

/-- Tokens that are read as an expression in any place of the level `p`. -/
structure ReadsAt (p : Nat) (us : List Lexeme) (e : Expr) : Prop where
  primary : atomLevel ≤ p → ReadsPrimary us e
  operand : unaryLevel ≤ p → ReadsOperand us e
  expression : ReadsExpression p us e

theorem Free.mono {rest : List Lexeme} (h : Free p rest) (hpq : p ≤ q) : Free q rest :=
  fun l hl op hop => Nat.lt_of_lt_of_le (h l hl op hop) hpq

/-- A unary minus begins no primary. -/
theorem ReadsPrimary.head_ne_minus (h : ReadsPrimary us e) {rest : List Lexeme}
    (hcall : NoCall rest) : ∀ l ∈ (us ++ rest).head?, l.token ≠ .minus := by
  rcases begins_or_not .minus (us ++ rest) with ⟨text, start, after, heq⟩ | hminus
  · have hprimary := h .expression rest hcall
    rw [heq, read?_primary_eq_none rfl (by simp [Token.minus]) (by simp [Token.minus])] at hprimary
    cases hprimary
  · exact hminus

theorem ReadsPrimary.readsOperand (h : ReadsPrimary us e) : ReadsOperand us e := by
  intro expected rest hcall hfree
  rw [read?_operand (h.head_ne_minus hcall), h expected rest hcall, Option.bind_some]
  refine raised_of_not_pow fun l hl hpow => ?_
  exact BinaryOperator.ne_pow_of_level_lt (hfree l hl _ hpow) rfl

theorem ReadsOperand.readsExpression (h : ReadsOperand us e) : ReadsExpression p us e := by
  intro expected least rest _ hcall hfree
  rw [read?_expression, h expected rest hcall (hfree.mono (Nat.min_le_right _ _)),
    Option.bind_some]

theorem ReadsPrimary.readsAt (h : ReadsPrimary us e) : ReadsAt p us e :=
  ⟨fun _ => h, fun _ => h.readsOperand, h.readsOperand.readsExpression⟩

theorem ReadsOperand.readsAt (h : ReadsOperand us e) (hp : p < atomLevel) : ReadsAt p us e :=
  ⟨fun hp' => absurd hp' (Nat.not_le_of_lt hp), fun _ => h, h.readsExpression⟩

theorem ReadsExpression.readsAt (h : ReadsExpression p us e) (hp : p < unaryLevel) :
    ReadsAt p us e := by
  refine ⟨fun hp' => ?_, fun hp' => absurd hp' (Nat.not_le_of_lt hp), h⟩
  have : unaryLevel < atomLevel := by decide
  omega

theorem ReadsExpression.mono (h : ReadsExpression q us e) (hpq : p ≤ q) :
    ReadsExpression p us e := by
  intro expected least rest hleast hcall hfree
  exact h expected least rest (Nat.le_trans hleast hpq) hcall (hfree.mono (by omega))

/-! ### Arguments -/

/-- Every way to write the tokens of an argument is read as the argument. -/
def ReadsTree (p : Nat) (t : Tree) (tokens : List Token) : Prop :=
  ∀ us, us.map Lexeme.token = tokens → ∃ e, e.tree = t ∧ ReadsAt p us e

theorem ReadsAt.expression_stop (h : ReadsAt 0 us e) {l : Lexeme} {rest : List Lexeme}
    (hl : l.token = .rightParen ∨ l.token = .comma) (expected : Expectation) :
    read? (Expr.expression 0 expected (us ++ l :: rest)) = some (e, l :: rest) := by
  have hfree : ∀ k, Free k (l :: rest) := by
    rintro k _ ⟨⟩ op hop
    rw [hop] at hl
    rcases hl with hl | hl <;> cases hl
  have hcall : NoCall (l :: rest) := by
    rintro _ ⟨⟩ hparen
    rw [hparen] at hl
    rcases hl with hl | hl <;> cases hl
  rw [h.expression expected 0 _ (Nat.zero_le _) hcall (hfree _), read?_operators_stop (hfree _)]

/-- Behind an argument there is a comma or a right parenthesis. -/
theorem exists_stop {as : List (Tree × List Token)}
    (hus : us.map Lexeme.token = as.flatMap (fun a => .comma :: a.2) ++ [.rightParen]) :
    ∃ l vs, us = l :: vs ∧ (l.token = .rightParen ∨ l.token = .comma) := by
  cases as with
  | nil =>
    obtain ⟨l, rfl, hl⟩ := List.map_eq_singleton_iff.mp hus
    exact ⟨l, [], rfl, .inl hl⟩
  | cons a as =>
    rw [List.flatMap_cons, List.cons_append, List.cons_append] at hus
    obtain ⟨l, vs, rfl, hl, -⟩ := List.map_eq_cons_iff.mp hus
    exact ⟨l, vs, rfl, .inr hl⟩

theorem moreArguments_complete {as : List (Tree × List Token)}
    (has : ∀ a ∈ as, ReadsTree 0 a.1 a.2)
    (hus : us.map Lexeme.token = as.flatMap (fun a => .comma :: a.2) ++ [.rightParen]) :
    ∃ r : List Expr × Nat, r.1.map tree = as.map Prod.fst ∧
      ∀ rest, read? (moreArguments (us ++ rest)) = some (r, rest) := by
  induction as generalizing us with
  | nil =>
    obtain ⟨⟨t, text, start⟩, rfl, rfl⟩ := List.map_eq_singleton_iff.mp hus
    exact ⟨([], (Span.ofText start text).stop), rfl, fun rest => read?_moreArguments_nil⟩
  | cons a as ih =>
    rw [List.flatMap_cons, List.cons_append, List.cons_append, List.append_assoc] at hus
    obtain ⟨⟨t, text, start⟩, ws, rfl, rfl, hws⟩ := List.map_eq_cons_iff.mp hus
    obtain ⟨vs, ws, rfl, hvs, hws⟩ := List.map_eq_append_iff.mp hws
    obtain ⟨e, he, hreads⟩ := has a List.mem_cons_self vs hvs
    obtain ⟨r, hr, hmore⟩ := ih (fun b hb => has b (List.mem_cons_of_mem _ hb)) hws
    obtain ⟨l, ws, rfl, hl⟩ := exists_stop hws
    refine ⟨(e :: r.1, r.2), by simp [he, hr], fun rest => ?_⟩
    rw [List.cons_append, List.append_assoc, read?_moreArguments_comma, List.cons_append,
      hreads.expression_stop hl, Option.bind_some, ← List.cons_append, hmore rest]
    rfl

theorem arguments_complete {as : List (Tree × List Token)} (has : ∀ a ∈ as, ReadsTree 0 a.1 a.2)
    (hopens : ∀ a ∈ as, ∃ u vs, a.2 = u :: vs ∧ u.Opens)
    (hus : us.map Lexeme.token = List.intercalate [.comma] (as.map Prod.snd) ++ [.rightParen]) :
    ∃ r : List Expr × Nat, r.1.map tree = as.map Prod.fst ∧
      ∀ rest, read? (arguments (us ++ rest)) = some (r, rest) := by
  cases as with
  | nil =>
    obtain ⟨⟨t, text, start⟩, rfl, rfl⟩ := List.map_eq_singleton_iff.mp hus
    exact ⟨([], (Span.ofText start text).stop), rfl, fun rest => read?_arguments_nil⟩
  | cons a as =>
    rw [List.map_cons, intercalate_cons, List.flatMap_map, List.append_assoc] at hus
    obtain ⟨vs, ws, rfl, hvs, hws⟩ := List.map_eq_append_iff.mp hus
    obtain ⟨e, he, hreads⟩ := has a List.mem_cons_self vs hvs
    obtain ⟨r, hr, hmore⟩ :=
      moreArguments_complete (fun b hb => has b (List.mem_cons_of_mem _ hb)) hws
    obtain ⟨l, ws, rfl, hl⟩ := exists_stop hws
    have hhead : ∀ x ∈ (vs ++ l :: ws).head?, x.token ≠ .rightParen := by
      obtain ⟨u, us', hu, hopens⟩ := hopens a List.mem_cons_self
      rw [hu] at hvs
      obtain ⟨x, vs, rfl, rfl, -⟩ := List.map_eq_cons_iff.mp hvs
      rintro _ ⟨⟩ hx
      rw [hx] at hopens
      simp [Token.Opens, Token.minus, Token.literal?] at hopens
    refine ⟨(e :: r.1, r.2), by simp [he, hr], fun rest => ?_⟩
    rw [read?_arguments (by simpa using hhead), List.append_assoc, List.cons_append,
      hreads.expression_stop hl, Option.bind_some, ← List.cons_append, hmore rest]
    rfl

/-! ### Operators -/

theorem readsOperand_pow {vs : List Lexeme} {left right : Expr} {text : List Char} {start : Nat}
    (hleft : ReadsPrimary us left) (hright : ReadsOperand vs right) :
    ReadsOperand (us ++ ⟨.operator (.arithmetic .pow), text, start⟩ :: vs)
      (binary (.arithmetic .pow) left right (left.span.join right.span)) := by
  intro expected rest hcall hfree
  have hpow : NoCall (⟨.operator (.arithmetic .pow), text, start⟩ :: (vs ++ rest)) := by
    rintro _ ⟨⟩ ⟨⟩
  rw [List.append_assoc, List.cons_append, read?_operand (hleft.head_ne_minus hpow),
    hleft expected _ hpow, Option.bind_some, raised_pow rfl,
    hright .operand rest hcall hfree]
  rfl

theorem readsExpression_binary {op : BinaryOperator} {vs : List Lexeme} {left right : Expr}
    {text : List Char} {start : Nat} (hop : op.level < unaryLevel) (hp : p ≤ op.level)
    (hleft : ReadsExpression op.level us left) (hright : ReadsExpression (op.level + 1) vs right) :
    ReadsExpression p (us ++ ⟨.operator op, text, start⟩ :: vs)
      (binary op left right (left.span.join right.span)) := by
  intro expected least rest hleast hcall hfree
  have hnext : NoCall (⟨.operator op, text, start⟩ :: (vs ++ rest)) := by
    rintro _ ⟨⟩ ⟨⟩
  have hnext' : Free (min (op.level + 1) unaryLevel)
      (⟨.operator op, text, start⟩ :: (vs ++ rest)) := by
    rintro _ ⟨⟩ op' ⟨⟩
    omega
  have hstop : read? (expression (op.level + 1) .operand (vs ++ rest)) = some (right, rest) := by
    rw [hright .operand _ rest (Nat.le_refl _) hcall (hfree.mono (by omega)),
      read?_operators_stop (hfree.mono (by omega))]
  rw [List.append_assoc, List.cons_append,
    hleft expected least _ (Nat.le_trans hleast hp) hnext hnext',
    read?_operators_continue (Nat.le_trans hleast hp), hstop, Option.bind_some]

/-! ### Trees -/

theorem readsTree_of_renders {t : Tree} {tokens : List Token} (h : Renders p t tokens) :
    ReadsTree p t tokens := by
  induction h with
  | literal h =>
    intro us hus
    obtain ⟨⟨t, text, start⟩, rfl, rfl⟩ := List.map_eq_singleton_iff.mp hus
    have hreads : ReadsPrimary [⟨t, text, start⟩] (Expr.literal _ (.ofText start text)) :=
      fun expected rest _ => read?_primary_literal h
    exact ⟨_, rfl, hreads.readsAt⟩
  | name n =>
    intro us hus
    obtain ⟨⟨t, text, start⟩, rfl, rfl⟩ := List.map_eq_singleton_iff.mp hus
    have hreads : ReadsPrimary [⟨.name n, text, start⟩] (Expr.name n (.ofText start text)) :=
      fun expected rest hcall => read?_primary_name hcall
    exact ⟨_, rfl, hreads.readsAt⟩
  | call f as has ih =>
    intro us hus
    obtain ⟨⟨t, text, start⟩, us, rfl, rfl, htail⟩ := List.map_eq_cons_iff.mp hus
    obtain ⟨⟨t, text', start'⟩, us, rfl, rfl, hinner⟩ := List.map_eq_cons_iff.mp htail
    obtain ⟨r, hr, hargs⟩ := arguments_complete ih (fun a ha => (has a ha).opens) hinner
    have hreads : ReadsPrimary (⟨.name f, text, start⟩ :: ⟨.leftParen, text', start'⟩ :: us)
        (Expr.call f r.1 ⟨start, r.2⟩) := by
      intro expected rest _
      rw [List.cons_append, List.cons_append, read?_primary_call, hargs rest]
      rfl
    exact ⟨_, by rw [tree, trees_eq_map, hr], hreads.readsAt⟩
  | parentheses h ih =>
    intro us hus
    obtain ⟨⟨t, text, start⟩, us, rfl, rfl, htail⟩ := List.map_eq_cons_iff.mp hus
    obtain ⟨vs, ws, rfl, hvs, hws⟩ := List.map_eq_append_iff.mp htail
    obtain ⟨⟨t, text', start'⟩, rfl, rfl⟩ := List.map_eq_singleton_iff.mp hws
    obtain ⟨e, he, hinner⟩ := ih vs hvs
    have hreads : ReadsPrimary
        (⟨.leftParen, text, start⟩ :: (vs ++ [⟨.rightParen, text', start'⟩])) e := by
      intro expected rest _
      rw [List.cons_append, List.append_assoc, List.singleton_append, read?_primary_parentheses,
        hinner.expression_stop (.inl rfl)]
      rfl
    exact ⟨e, he, hreads.readsAt⟩
  | negate hp h ih =>
    intro us hus
    obtain ⟨⟨t, text, start⟩, us, rfl, rfl, htail⟩ := List.map_eq_cons_iff.mp hus
    obtain ⟨e, he, hinner⟩ := ih us htail
    have hreads : ReadsOperand (⟨.minus, text, start⟩ :: us)
        (Expr.negate e ((Span.ofText start text).join e.span)) := by
      intro expected rest hcall hfree
      rw [List.cons_append, read?_operand_minus,
        hinner.operand (Nat.le_refl _) .operand rest hcall hfree]
      rfl
    exact ⟨_, by rw [tree, he], hreads.readsAt (Nat.lt_of_le_of_lt hp (by decide))⟩
  | @binary p op l r vs ws hp hl hr ihl ihr =>
    intro us hus
    obtain ⟨vs, ws, rfl, hvs, htail⟩ := List.map_eq_append_iff.mp hus
    obtain ⟨⟨t, text, start⟩, ws, rfl, rfl, hws⟩ := List.map_eq_cons_iff.mp htail
    obtain ⟨left, rfl, hleft⟩ := ihl vs hvs
    obtain ⟨right, rfl, hright⟩ := ihr ws hws
    refine ⟨binary op left right (left.span.join right.span), rfl, ?_⟩
    have hrightLevel := op.min_le_rightLevel right.tree
    by_cases hop : op = .arithmetic .pow
    · subst hop
      refine ReadsOperand.readsAt ?_ (Nat.lt_of_le_of_lt hp (by decide))
      exact readsOperand_pow (hleft.primary (by decide)) (hright.operand hrightLevel)
    · have hlt := BinaryOperator.level_lt_unaryLevel hop
      rw [BinaryOperator.leftLevel, if_neg hop] at hleft
      rw [Nat.min_eq_left hlt] at hrightLevel
      exact (readsExpression_binary hlt hp hleft.expression
        (hright.expression.mono hrightLevel)).readsAt (by omega)

theorem ofLexemes_complete {t : Tree} {ts : List Lexeme}
    (h : Renders 0 t (ts.map Lexeme.token)) : ∃ e, ofLexemes ts = .ok e ∧ e.tree = t := by
  obtain ⟨e, he, hreads⟩ := readsTree_of_renders h ts rfl
  refine ⟨e, ofLexemes_eq_ok_iff.mpr ?_, he⟩
  have hnil := hreads.expression .expression 0 [] (Nat.le_refl _) (by simp [NoCall])
    (by simp [Free])
  rw [List.append_nil, read?_operators_stop (by simp)] at hnil
  exact hnil

end TolerantExpr.Expr
