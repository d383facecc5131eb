import TolerantExpr.Proofs.Parsing.Equations

/-!
# What the parser reads is grammatical

Each function of the parser reads a tree from the tokens that write it, in the place that it reads
for. An expression that binds tighter than the operator in front of it leaves behind no operator
that it should have read, so that operands never are too long or too short. The induction is on the
number of tokens: each function is right about as many tokens as expressions are, but one.
-/

namespace TolerantExpr.Expr

variable {α : Type} {expected : Expectation} {least n : Nat} {ts : List Lexeme}

/-- What was read from the front of some tokens is a tree that they write. -/
def Writes (p : Nat) (ts : List Lexeme) (r : Expr × List Lexeme) : Prop :=
  ∃ us, ts = us ++ r.2 ∧ Renders p r.1.tree (us.map Lexeme.token)

/-- Behind a text no operator follows that an operand at the level `p` would still take in. -/
def Free (p : Nat) (ts : List Lexeme) : Prop :=
  ∀ l ∈ ts.head?, ∀ op, l.token = .operator op → op.level < p

theorem exists_operator_of_not_free {p : Nat} (h : ¬Free p ts) :
    ∃ op text start rest, ts = ⟨.operator op, text, start⟩ :: rest ∧ p ≤ op.level := by
  simp only [Free, not_forall, Nat.not_lt] at h
  obtain ⟨⟨t, text, start⟩, hl, op, hop, hle⟩ := h
  obtain ⟨rest, rfl⟩ := List.head?_eq_some_iff.mp hl
  subst hop
  exact ⟨op, text, start, rest, rfl, hle⟩

/-- Expressions with fewer than `n` tokens are read as they should be. -/
def SoundBelow (n : Nat) : Prop :=
  ∀ least ≤ unaryLevel, ∀ (expected : Expectation) (ts : List Lexeme) (r : Expr × List Lexeme),
    ts.length < n → read? (expression least expected ts) = some r →
      Writes least ts r ∧ Free least r.2

theorem Writes.length_lt {p : Nat} {r : Expr × List Lexeme} (h : Writes p ts r) :
    r.2.length < ts.length := by
  obtain ⟨us, rfl, hus⟩ := h
  have hpos : 0 < (us.map Lexeme.token).length := List.length_pos_of_ne_nil hus.ne_nil
  rw [List.length_map] at hpos
  rw [List.length_append]
  omega

/-- Some tokens begin with a given one, or they do not. -/
theorem begins_or_not (t : Token) (ts : List Lexeme) :
    (∃ text start rest, ts = ⟨t, text, start⟩ :: rest) ∨ ∀ l ∈ ts.head?, l.token ≠ t := by
  by_cases h : ∃ text start rest, ts = ⟨t, text, start⟩ :: rest
  · exact .inl h
  · refine .inr ?_
    rintro ⟨u, text, start⟩ hl hu
    obtain ⟨rest, rfl⟩ := List.head?_eq_some_iff.mp hl
    exact h ⟨text, start, rest, by rw [← hu]⟩

/-! ### Arguments -/

/-- The arguments of a call and the tokens that write them, up to the right parenthesis. -/
def WritesAll (tokens : List (Tree × List Token) → List Token) (ts : List Lexeme)
    (r : (List Expr × Nat) × List Lexeme) : Prop :=
  ∃ us as, ts = us ++ r.2 ∧ r.1.1.map tree = as.map Prod.fst ∧ (∀ a ∈ as, Renders 0 a.1 a.2) ∧
    us.map Lexeme.token = tokens as ++ [.rightParen]

/-- An argument and those that follow it. -/
theorem Writes.append_arguments {e : Expr × List Lexeme} {r : (List Expr × Nat) × List Lexeme}
    (he : Writes 0 ts e) (hr : WritesAll (List.flatMap fun a => .comma :: a.2) e.2 r) :
    ∃ us a as, ts = us ++ r.2 ∧ (e.1 :: r.1.1).map tree = List.map Prod.fst (a :: as) ∧
      (∀ b ∈ a :: as, Renders 0 b.1 b.2) ∧
      us.map Lexeme.token = a.2 ++ (as.flatMap fun b => .comma :: b.2) ++ [.rightParen] := by
  obtain ⟨us, rfl, hus⟩ := he
  obtain ⟨vs, as, hvs, htrees, has, htokens⟩ := hr
  refine ⟨us ++ vs, (e.1.tree, us.map Lexeme.token), as, ?_, ?_, ?_, ?_⟩
  · rw [hvs, List.append_assoc]
  · rw [List.map_cons, List.map_cons, htrees]
  · rintro b (_ | ⟨_, hb⟩)
    · exact hus
    · exact has b hb
  · rw [List.map_append, htokens, List.append_assoc]

theorem moreArguments_sound (h : SoundBelow n) {r : (List Expr × Nat) × List Lexeme}
    (hts : ts.length ≤ n) (hr : read? (moreArguments ts) = some r) :
    WritesAll (List.flatMap fun a => .comma :: a.2) ts r := by
  induction hlen : ts.length using Nat.strongRecOn generalizing ts r with
  | ind k ih =>
    rcases ts with _ | ⟨⟨t, text, start⟩, ts⟩
    · rw [read?_moreArguments_eq_none (by simp)] at hr
      cases hr
    cases t with
    | rightParen =>
      rw [read?_moreArguments_nil] at hr
      obtain rfl := Option.some.inj hr
      exact ⟨[⟨.rightParen, text, start⟩], [], rfl, rfl, by simp, rfl⟩
    | comma =>
      rw [read?_moreArguments_comma, Option.bind_eq_some_iff] at hr
      obtain ⟨e, he, hr⟩ := hr
      rw [Option.map_eq_some_iff] at hr
      obtain ⟨s, hs, rfl⟩ := hr
      rw [List.length_cons] at hts hlen
      obtain ⟨hwrites, -⟩ := h 0 (Nat.zero_le _) .expression ts e (by omega) he
      have hlt := hwrites.length_lt
      have hmore := ih _ (by omega) (by omega) hs rfl
      obtain ⟨us, a, as, hus, htrees, has, htokens⟩ := hwrites.append_arguments hmore
      refine ⟨⟨.comma, text, start⟩ :: us, a :: as, ?_, htrees, has, ?_⟩
      · rw [hus, List.cons_append]
      · rw [List.map_cons, htokens, List.flatMap_cons, List.cons_append, List.cons_append]
    | _ =>
      rw [read?_moreArguments_eq_none (by simp)] at hr
      cases hr

theorem arguments_sound (h : SoundBelow n) {r : (List Expr × Nat) × List Lexeme}
    (hts : ts.length < n) (hr : read? (arguments ts) = some r) :
    WritesAll (fun as => List.intercalate [.comma] (as.map Prod.snd)) ts r := by
  rcases begins_or_not .rightParen ts with ⟨text, start, rest, rfl⟩ | hhead
  · rw [read?_arguments_nil] at hr
    obtain rfl := Option.some.inj hr
    exact ⟨[⟨.rightParen, text, start⟩], [], rfl, rfl, by simp, rfl⟩
  · rw [read?_arguments hhead, Option.bind_eq_some_iff] at hr
    obtain ⟨e, he, hr⟩ := hr
    rw [Option.map_eq_some_iff] at hr
    obtain ⟨s, hs, rfl⟩ := hr
    obtain ⟨hwrites, -⟩ := h 0 (Nat.zero_le _) .expression ts e hts he
    have hlt := hwrites.length_lt
    have hmore := moreArguments_sound h (by omega) hs
    obtain ⟨us, a, as, hus, htrees, has, htokens⟩ := hwrites.append_arguments hmore
    refine ⟨us, a :: as, hus, htrees, has, ?_⟩
    dsimp only
    rw [htokens, List.map_cons, intercalate_cons, List.flatMap_map]
    rfl

/-! ### Operands -/

theorem eq_of_closed {r s : Expr × List Lexeme} (h : closed r = some s) :
    ∃ text start, s.1 = r.1 ∧ r.2 = ⟨.rightParen, text, start⟩ :: s.2 := by
  unfold closed at h
  split at h
  · rename_i text start rest heq
    obtain rfl := Option.some.inj h
    exact ⟨text, start, rfl, heq⟩
  · cases h

theorem primary_sound (h : SoundBelow n) {r : Expr × List Lexeme} (hts : ts.length ≤ n)
    (hr : read? (primary expected ts) = some r) : Writes atomLevel ts r := by
  rcases ts with _ | ⟨⟨t, text, start⟩, ts⟩
  · rw [primary] at hr
    · cases hr
    all_goals simp
  rw [List.length_cons] at hts
  by_cases hlit : ∃ l, t.literal? = some l
  · obtain ⟨l, hl⟩ := hlit
    rw [read?_primary_literal hl] at hr
    obtain rfl := Option.some.inj hr
    exact ⟨[⟨t, text, start⟩], rfl, .literal hl⟩
  cases t with
  | leftParen =>
    rw [read?_primary_parentheses, Option.bind_eq_some_iff] at hr
    obtain ⟨e, he, hr⟩ := hr
    obtain ⟨⟨us, rfl, hus⟩, -⟩ := h 0 (Nat.zero_le _) .expression ts e (by omega) he
    obtain ⟨text', start', hclosed⟩ := eq_of_closed hr
    refine ⟨⟨.leftParen, text, start⟩ :: (us ++ [⟨.rightParen, text', start'⟩]), ?_, ?_⟩
    · rw [hclosed.2]
      simp
    · rw [hclosed.1, List.map_cons, List.map_append]
      exact .parentheses hus
  | name f =>
    rcases begins_or_not .leftParen ts with ⟨text', start', inner, rfl⟩ | hhead
    · rw [read?_primary_call, Option.map_eq_some_iff] at hr
      obtain ⟨s, hs, rfl⟩ := hr
      rw [List.length_cons] at hts
      obtain ⟨us, as, hus, htrees, has, htokens⟩ := arguments_sound h (by omega) hs
      refine ⟨⟨.name f, text, start⟩ :: ⟨.leftParen, text', start'⟩ :: us, ?_, ?_⟩
      · rw [hus]
        rfl
      · rw [tree, trees_eq_map, htrees, List.map_cons, List.map_cons, htokens]
        exact .call f as has
    · rw [read?_primary_name hhead] at hr
      obtain rfl := Option.some.inj hr
      exact ⟨[⟨.name f, text, start⟩], rfl, .name f⟩
  | int n | float x | boolean b => exact absurd ⟨_, rfl⟩ hlit
  | operator op | rightParen | comma | stray c =>
    rw [read?_primary_eq_none rfl (by simp) (by simp)] at hr
    cases hr

theorem operand_sound (h : SoundBelow n) {r : Expr × List Lexeme} (hts : ts.length ≤ n)
    (hr : read? (operand expected ts) = some r) : Writes unaryLevel ts r ∧ Free unaryLevel r.2 := by
  induction hlen : ts.length using Nat.strongRecOn generalizing expected ts r with
  | ind k ih =>
    rcases begins_or_not .minus ts with ⟨text, start, rest, rfl⟩ | hminus
    · rw [read?_operand_minus, Option.map_eq_some_iff] at hr
      obtain ⟨s, hs, rfl⟩ := hr
      rw [List.length_cons] at hts hlen
      obtain ⟨⟨us, hus, hrend⟩, hfree⟩ := ih _ (by omega) (by omega) hs rfl
      refine ⟨⟨⟨.minus, text, start⟩ :: us, ?_, ?_⟩, hfree⟩
      · rw [hus]
        rfl
      · exact .negate (Nat.le_refl _) hrend
    · rw [read?_operand hminus, Option.bind_eq_some_iff] at hr
      obtain ⟨base, hbase, hr⟩ := hr
      have hwrites := primary_sound h hts hbase
      have hlt := hwrites.length_lt
      obtain ⟨us, hus, hrend⟩ := hwrites
      rcases begins_or_not (.operator (.arithmetic .pow)) base.2 with
        ⟨text, start, rest, hrest⟩ | hpow
      · rw [raised_pow hrest, Option.map_eq_some_iff] at hr
        obtain ⟨s, hs, rfl⟩ := hr
        rw [hrest, List.length_cons] at hlt
        obtain ⟨⟨vs, hvs, hrend'⟩, hfree⟩ := ih _ (by omega) (by omega) hs rfl
        refine ⟨⟨us ++ ⟨.operator (.arithmetic .pow), text, start⟩ :: vs, ?_, ?_⟩, hfree⟩
        · rw [hus, hrest, hvs]
          simp
        · rw [List.map_append, List.map_cons]
          exact .binary (by decide) hrend (Renders.right_iff.mpr hrend')
      · rw [raised_of_not_pow hpow] at hr
        obtain rfl := Option.some.inj hr
        refine ⟨⟨us, hus, hrend.mono (by decide)⟩, fun l hl op hop => ?_⟩
        refine BinaryOperator.level_lt_unaryLevel ?_
        intro heq
        subst heq
        exact hpow l hl hop

/-! ### Operators -/

/-- An expression whose operators bind tightly enough for the one that follows, with what that
operator adds to it. -/
theorem operators_sound (h : SoundBelow n) {left : Expr} {us : List Token} {r : Expr × List Lexeme}
    (hleft : Renders least left.tree us)
    (hop : ∀ l ∈ ts.head?, ∀ op, l.token = .operator op →
      op.level < unaryLevel ∧ Renders op.level left.tree us)
    (hts : ts.length ≤ n) (hr : read? (operators least left ts) = some r) :
    ∃ vs, ts = vs ++ r.2 ∧ Renders least r.1.tree (us ++ vs.map Lexeme.token) ∧ Free least r.2 := by
  induction hlen : ts.length using Nat.strongRecOn generalizing left us ts r with
  | ind k ih =>
    by_cases hnext : Free least ts
    · rw [read?_operators_stop hnext] at hr
      obtain rfl := Option.some.inj hr
      refine ⟨[], rfl, ?_, hnext⟩
      rw [List.map_nil, List.append_nil]
      exact hleft
    · obtain ⟨op, text, start, rest, rfl, hle⟩ := exists_operator_of_not_free hnext
      obtain ⟨hlt, hleft'⟩ := hop _ rfl op rfl
      rw [read?_operators_continue hle, Option.bind_eq_some_iff] at hr
      obtain ⟨e, he, hr⟩ := hr
      rw [List.length_cons] at hts hlen
      obtain ⟨hwrites, hfree⟩ := h (op.level + 1) hlt .operand rest e (by omega) he
      have hshort := hwrites.length_lt
      obtain ⟨vs, hvs, hright⟩ := hwrites
      have hbinary : ∀ p ≤ op.level, Renders p (.binary op left.tree e.1.tree)
          (us ++ .operator op :: vs.map Lexeme.token) := by
        intro p hp
        refine .binary hp ?_ (Renders.right_iff.mpr ?_)
        · rw [BinaryOperator.leftLevel, if_neg (BinaryOperator.ne_pow_of_level_lt hlt)]
          exact hleft'
        · rw [Nat.min_eq_left hlt]
          exact hright
      have hop' : ∀ l ∈ e.2.head?, ∀ op', l.token = .operator op' →
          op'.level < unaryLevel ∧ Renders op'.level (.binary op left.tree e.1.tree)
            (us ++ .operator op :: vs.map Lexeme.token) := by
        intro l hl op' hop'
        have hlower := hfree l hl op' hop'
        exact ⟨by omega, hbinary op'.level (by omega)⟩
      have hnew : Renders least (binary op left e.1 (left.span.join e.1.span)).tree
          (us ++ .operator op :: vs.map Lexeme.token) := hbinary least hle
      obtain ⟨ws, hws, hrend, hfree'⟩ := ih _ (by omega) hnew hop' (by omega) hr rfl
      refine ⟨⟨.operator op, text, start⟩ :: (vs ++ ws), ?_, ?_, hfree'⟩
      · rw [hvs, hws]
        simp
      · simpa using hrend

/-- Expressions of any length are read as they should be. -/
theorem soundBelow (n : Nat) : SoundBelow n := by
  induction n with
  | zero =>
    intro least _ expected ts r hts
    omega
  | succ n ih =>
    intro least hleast expected ts r hts hr
    rw [read?_expression, Option.bind_eq_some_iff] at hr
    obtain ⟨e, he, hr⟩ := hr
    obtain ⟨hwrites, hfree⟩ := operand_sound ih (by omega) he
    have hshort := hwrites.length_lt
    obtain ⟨us, hus, hrend⟩ := hwrites
    have hop : ∀ l ∈ e.2.head?, ∀ op, l.token = .operator op →
        op.level < unaryLevel ∧ Renders op.level e.1.tree (us.map Lexeme.token) := by
      intro l hl op hlop
      have hlt := hfree l hl op hlop
      exact ⟨hlt, hrend.mono (Nat.le_of_lt hlt)⟩
    obtain ⟨vs, hvs, hrend', hfree'⟩ :=
      operators_sound ih (hrend.mono hleast) hop (by omega) hr
    refine ⟨⟨us ++ vs, ?_, ?_⟩, hfree'⟩
    · rw [hus, hvs, List.append_assoc]
    · rw [List.map_append]
      exact hrend'

/-- All the tokens of a text that is read as an expression write its tree. -/
theorem ofLexemes_sound {e : Expr} (h : ofLexemes ts = .ok e) :
    Renders 0 e.tree (ts.map Lexeme.token) := by
  rw [ofLexemes_eq_ok_iff] at h
  obtain ⟨⟨us, hus, hrend⟩, -⟩ :=
    soundBelow (ts.length + 1) 0 (Nat.zero_le _) .expression ts (e, []) (by omega) h
  rw [hus, List.append_nil]
  exact hrend

end TolerantExpr.Expr
