import TolerantExpr.Proofs.Parsing.Soundness
import TolerantExpr.Proofs.Typing.Building
import TolerantExpr.Proofs.Typing.Faults

/-!
# What names are read as

A name of an expression is read as the constant whose placeholder stands at its place, or else as
itself; a name with arguments is always read as itself. The parser keeps the names of a text, each
with its place, in their order, and whether a name has arguments depends on the next token alone. So
the readings of an expression are those of its tokens.
-/

namespace TolerantExpr

/-- What a name is read as: a constant that was taken out of the source, or the name of a parameter
or a function. -/
inductive Reading where
  | constant (x : Excerpt)
  | name (n : String)

namespace Reading

def constant? : Reading → Option Excerpt
  | constant x => some x
  | name _ => none

end Reading

/-- What a name without arguments is read as. -/
def Extraction.reading (x : Extraction) (n : String) (span : Span) : Reading :=
  match x.excerptAt? span with
  | some y => .constant y
  | none => .name n

namespace Expr

mutual

/-- What the names of an expression are read as, from left to right. -/
def readings (x : Extraction) : Expr → List Reading
  | literal _ _ => []
  | name n s => [x.reading n s]
  | negate e _ => readings x e
  | binary _ l r _ => readings x l ++ readings x r
  | call f es _ => .name f :: readingsAll x es

def readingsAll (x : Extraction) : List Expr → List Reading
  | [] => []
  | e :: es => readings x e ++ readingsAll x es

end

/-! ### Readings in the analysis -/

section Analysis

variable {x : Extraction} {n : String}

theorem mem_readingsAll {es : List Expr} {r : Reading} :
    r ∈ readingsAll x es ↔ ∃ e ∈ es, r ∈ e.readings x := by
  induction es with
  | nil => simp [readingsAll]
  | cons e es ih => simp [readingsAll, ih]

theorem mem_usesAll {es : List Expr} {u : String × Bool} :
    u ∈ usesAll x es ↔ ∃ e ∈ es, u ∈ e.uses x := by
  induction es with
  | nil => simp [usesAll]
  | cons e es ih => simp [usesAll, ih]

theorem mem_calledAll {es : List Expr} : n ∈ calledAll es ↔ ∃ e ∈ es, n ∈ e.called := by
  induction es with
  | nil => simp [calledAll]
  | cons e es ih => simp [calledAll, ih]

/-- Parameters are names that are read as themselves. -/
theorem name_mem_readings_of_uses {e : Expr} {u : String × Bool} (h : u ∈ e.uses x) :
    .name u.1 ∈ e.readings x := by
  induction e with
  | literal l s => simp [uses] at h
  | name m s =>
    rw [readings, Extraction.reading]
    rw [uses] at h
    cases hs : x.excerptAt? s with
    | some y => simp [hs] at h
    | none =>
      rw [hs, if_neg (by simp), List.mem_singleton] at h
      simp [h]
  | negate e s ih =>
    rw [uses] at h
    rw [readings]
    exact ih h
  | binary op l r s ihl ihr =>
    rw [uses, List.mem_append] at h
    rw [readings, List.mem_append]
    exact h.imp ihl ihr
  | call f es s ih =>
    rw [uses] at h
    rw [readings, List.mem_cons]
    split at h
    · rw [List.mem_singleton] at h
      simp [h]
    · obtain ⟨e, he, hu⟩ := mem_usesAll.mp h
      exact .inr (mem_readingsAll.mpr ⟨e, he, ih e he hu⟩)

/-- So are the names of functions. -/
theorem name_mem_readings_of_called {e : Expr} (h : n ∈ e.called) : .name n ∈ e.readings x := by
  induction e with
  | literal l s => simp [called] at h
  | name m s => simp [called] at h
  | negate e s ih =>
    rw [called] at h
    rw [readings]
    exact ih h
  | binary op l r s ihl ihr =>
    rw [called, List.mem_append] at h
    rw [readings, List.mem_append]
    exact h.imp ihl ihr
  | call f es s ih =>
    rw [called, List.mem_cons] at h
    rw [readings, List.mem_cons]
    rcases h with rfl | h
    · exact .inl rfl
    · obtain ⟨e, he, hn⟩ := mem_calledAll.mp h
      exact .inr (mem_readingsAll.mpr ⟨e, he, ih e he hn⟩)

end Analysis

end Expr

/-! ### Tokens -/

namespace Lexeme

/-- A left parenthesis comes next. -/
def opensCall : List Lexeme → Bool
  | ⟨.leftParen, _, _⟩ :: _ => true
  | _ => false

/-- What the names among tokens are read as, where those with a left parenthesis behind them have
arguments. -/
def readings (x : Extraction) : List Lexeme → List Reading
  | [] => []
  | ⟨.name n, text, start⟩ :: ls =>
    (if opensCall ls then .name n else x.reading n (.ofText start text)) :: readings x ls
  | _ :: ls => readings x ls

variable {x : Extraction} {ls : List Lexeme} {t : Token} {text : List Char} {start : Nat}

theorem opensCall_eq_false (h : ∀ l ∈ ls.head?, l.token ≠ .leftParen) : opensCall ls = false := by
  unfold opensCall
  split
  · exact absurd rfl (h _ rfl)
  · rfl

theorem readings_cons (h : ∀ n, t ≠ .name n) :
    readings x (⟨t, text, start⟩ :: ls) = readings x ls := by
  rw [readings]
  rintro n text' start' ⟨⟩
  exact h n rfl

theorem readings_plain {n : String} (h : opensCall ls = false) :
    readings x (⟨.name n, text, start⟩ :: ls) =
      x.reading n (.ofText start text) :: readings x ls := by
  rw [readings, h]
  rfl

theorem readings_called {n : String} (h : opensCall ls = true) :
    readings x (⟨.name n, text, start⟩ :: ls) = .name n :: readings x ls := by
  rw [readings, h]
  rfl

/-- What comes next does not change if a token is put behind that is no left parenthesis. -/
theorem opensCall_append {l : Lexeme} {ms : List Lexeme} (hl : l.token ≠ .leftParen) :
    opensCall (ls ++ l :: ms) = opensCall ls := by
  rcases ls with _ | ⟨⟨t, text, start⟩, ls⟩
  · exact opensCall_eq_false (by simpa using hl)
  · cases t <;> rfl

/-- Tokens in front of one that is no left parenthesis are read on their own. -/
theorem readings_append {l : Lexeme} {ms : List Lexeme} (hl : l.token ≠ .leftParen) :
    readings x (ls ++ l :: ms) = readings x ls ++ readings x (l :: ms) := by
  induction ls with
  | nil => rfl
  | cons k ls ih =>
    obtain ⟨t, text, start⟩ := k
    cases t with
    | name n =>
      rw [List.cons_append, readings, readings, opensCall_append hl, ih, List.cons_append]
    | _ =>
      rw [List.cons_append, readings_cons (by simp), readings_cons (by simp), ih]

end Lexeme

/-! ### The parser -/

namespace Expr

open Lexeme (readings_cons readings_plain readings_called)

variable {x : Extraction} {expected : Expectation} {least n : Nat} {ts : List Lexeme}

theorem read?_spec {α : Type} {P : α × List Lexeme → Prop}
    {r : Except Stuck { r : α × List Lexeme // P r }} {s : α × List Lexeme}
    (h : read? r = some s) : P s := by
  obtain ⟨⟨_, hs⟩, -, rfl⟩ := Option.map_eq_some_iff.mp h
  exact hs

/-- What was read and what is left have the readings of the tokens. -/
def Keeps (x : Extraction) (ts : List Lexeme) (r : Expr × List Lexeme) : Prop :=
  Lexeme.readings x ts = r.1.readings x ++ Lexeme.readings x r.2

def KeepsAll (x : Extraction) (ts : List Lexeme) (r : (List Expr × Nat) × List Lexeme) : Prop :=
  Lexeme.readings x ts = readingsAll x r.1.1 ++ Lexeme.readings x r.2

theorem Keeps.cons {e : Expr × List Lexeme} {r : (List Expr × Nat) × List Lexeme} {stop : Nat}
    (he : Keeps x ts e) (hr : KeepsAll x e.2 r) : KeepsAll x ts ((e.1 :: r.1.1, stop), r.2) := by
  unfold KeepsAll at hr ⊢
  rw [he, hr, readingsAll, List.append_assoc]

/-- Expressions with fewer than `n` tokens have the readings of their tokens. -/
def KeepsBelow (x : Extraction) (n : Nat) : Prop :=
  ∀ (least : Nat) (expected : Expectation) (ts : List Lexeme) (r : Expr × List Lexeme),
    ts.length < n → read? (expression least expected ts) = some r → Keeps x ts r

theorem moreArguments_keeps (h : KeepsBelow x n) {r : (List Expr × Nat) × List Lexeme}
    (hts : ts.length ≤ n) (hr : read? (moreArguments ts) = some r) : KeepsAll x ts r := by
  induction hlen : ts.length using Nat.strongRecOn generalizing ts r with
  | ind k ih =>
    rcases ts with _ | ⟨⟨t, text, start⟩, ts⟩
    · rw [read?_moreArguments_eq_none (by simp)] at hr
      cases hr
    cases t with
    | rightParen =>
      rw [read?_moreArguments_nil] at hr
      obtain rfl := Option.some.inj hr
      exact readings_cons (by simp)
    | comma =>
      rw [read?_moreArguments_comma, Option.bind_eq_some_iff] at hr
      obtain ⟨e, he, hr⟩ := hr
      obtain ⟨s, hs, rfl⟩ := Option.map_eq_some_iff.mp hr
      rw [List.length_cons] at hts hlen
      have hlt : e.2.length < ts.length := read?_spec he
      have hmore := ih _ (by omega) (by omega) hs rfl
      have hall : KeepsAll x ts ((e.1 :: s.1.1, s.1.2), s.2) :=
        (h 0 .expression ts e (by omega) he).cons hmore
      exact (readings_cons (by simp)).trans hall
    | _ =>
      rw [read?_moreArguments_eq_none (by simp)] at hr
      cases hr

theorem arguments_keeps (h : KeepsBelow x n) {r : (List Expr × Nat) × List Lexeme}
    (hts : ts.length < n) (hr : read? (arguments ts) = some r) : KeepsAll x ts r := by
  rcases begins_or_not .rightParen ts with ⟨text, start, rest, rfl⟩ | hhead
  · rw [read?_arguments_nil] at hr
    obtain rfl := Option.some.inj hr
    exact readings_cons (by simp)
  · rw [read?_arguments hhead, Option.bind_eq_some_iff] at hr
    obtain ⟨e, he, hr⟩ := hr
    obtain ⟨s, hs, rfl⟩ := Option.map_eq_some_iff.mp hr
    have hlt : e.2.length < ts.length := read?_spec he
    exact (h 0 .expression ts e hts he).cons (moreArguments_keeps h (by omega) hs)

theorem primary_keeps (h : KeepsBelow x n) {r : Expr × List Lexeme} (hts : ts.length ≤ n)
    (hr : read? (primary expected ts) = some r) : Keeps x ts r := by
  rcases ts with _ | ⟨⟨t, text, start⟩, ts⟩
  · rw [primary] at hr
    · cases hr
    all_goals simp
  rw [List.length_cons] at hts
  by_cases hlit : ∃ l, t.literal? = some l
  · obtain ⟨l, hl⟩ := hlit
    rw [read?_primary_literal hl] at hr
    obtain rfl := Option.some.inj hr
    refine readings_cons ?_
    rintro m rfl
    cases hl
  cases t with
  | leftParen =>
    rw [read?_primary_parentheses, Option.bind_eq_some_iff] at hr
    obtain ⟨e, he, hr⟩ := hr
    obtain ⟨text', start', hclosed⟩ := eq_of_closed hr
    have hkeeps := h 0 .expression ts e (by omega) he
    unfold Keeps at hkeeps ⊢
    rw [readings_cons (by simp), hkeeps, hclosed.1, hclosed.2, readings_cons (by simp)]
  | name f =>
    rcases begins_or_not .leftParen ts with ⟨text', start', inner, rfl⟩ | hhead
    · rw [read?_primary_call] at hr
      obtain ⟨s, hs, rfl⟩ := Option.map_eq_some_iff.mp hr
      rw [List.length_cons] at hts
      have hkeeps := arguments_keeps h (by omega) hs
      unfold KeepsAll at hkeeps
      unfold Keeps
      rw [readings_called rfl, readings_cons (by simp), hkeeps]
      rfl
    · rw [read?_primary_name hhead] at hr
      obtain rfl := Option.some.inj hr
      exact readings_plain (Lexeme.opensCall_eq_false hhead)
  | int n | float x | boolean b => exact absurd ⟨_, rfl⟩ hlit
  | operator op | rightParen | comma | stray c =>
    rw [read?_primary_eq_none rfl (by simp) (by simp)] at hr
    cases hr

theorem operand_keeps (h : KeepsBelow x n) {r : Expr × List Lexeme} (hts : ts.length ≤ n)
    (hr : read? (operand expected ts) = some r) : Keeps x ts r := by
  induction hlen : ts.length using Nat.strongRecOn generalizing expected ts r with
  | ind k ih =>
    rcases begins_or_not .minus ts with ⟨text, start, rest, rfl⟩ | hminus
    · rw [read?_operand_minus] at hr
      obtain ⟨s, hs, rfl⟩ := Option.map_eq_some_iff.mp hr
      rw [List.length_cons] at hts hlen
      have hkeeps : Keeps x rest s := ih _ (by omega) (by omega) hs rfl
      exact (readings_cons (by simp [Token.minus])).trans hkeeps
    · rw [read?_operand hminus, Option.bind_eq_some_iff] at hr
      obtain ⟨base, hbase, hr⟩ := hr
      have hlt : base.2.length < ts.length := read?_spec hbase
      have hkeeps := primary_keeps h hts hbase
      rcases begins_or_not (.operator (.arithmetic .pow)) base.2 with
        ⟨text, start, rest, hrest⟩ | hpow
      · rw [raised_pow hrest] at hr
        obtain ⟨s, hs, rfl⟩ := Option.map_eq_some_iff.mp hr
        rw [hrest, List.length_cons] at hlt
        have hpower : Keeps x rest s := ih _ (by omega) (by omega) hs rfl
        unfold Keeps at hkeeps hpower ⊢
        rw [hkeeps, hrest, readings_cons (by simp), hpower, ← List.append_assoc]
        rfl
      · rw [raised_of_not_pow hpow] at hr
        obtain rfl := Option.some.inj hr
        exact hkeeps

theorem operators_keeps (h : KeepsBelow x n) {left : Expr} {r : Expr × List Lexeme}
    (hts : ts.length ≤ n) (hr : read? (operators least left ts) = some r) :
    r.1.readings x ++ Lexeme.readings x r.2 = left.readings x ++ Lexeme.readings x ts := by
  induction hlen : ts.length using Nat.strongRecOn generalizing left ts r with
  | ind k ih =>
    by_cases hnext : Free least ts
    · rw [read?_operators_stop hnext] at hr
      obtain rfl := Option.some.inj hr
      rfl
    · obtain ⟨op, text, start, rest, rfl, hle⟩ := exists_operator_of_not_free hnext
      rw [read?_operators_continue hle, Option.bind_eq_some_iff] at hr
      obtain ⟨e, he, hr⟩ := hr
      rw [List.length_cons] at hts hlen
      have hlt : e.2.length < rest.length := read?_spec he
      have hkeeps := h (op.level + 1) .operand rest e (by omega) he
      unfold Keeps at hkeeps
      rw [ih _ (by omega) (by omega) hr rfl, readings_cons (by simp), hkeeps, ← List.append_assoc]
      rfl

theorem keepsBelow (x : Extraction) (n : Nat) : KeepsBelow x n := by
  induction n with
  | zero =>
    intro least expected ts r hts
    omega
  | succ n ih =>
    intro least expected ts r hts hr
    rw [read?_expression, Option.bind_eq_some_iff] at hr
    obtain ⟨e, he, hr⟩ := hr
    have hlt : e.2.length < ts.length := read?_spec he
    have hoperand := operand_keeps ih (by omega) he
    exact hoperand.trans (operators_keeps ih (by omega) hr).symm

/-- An expression has the readings of the tokens that it was read from. -/
theorem readings_of_ofLexemes {e : Expr} (h : ofLexemes ts = .ok e) :
    e.readings x = Lexeme.readings x ts := by
  rw [ofLexemes_eq_ok_iff] at h
  have hkeeps := keepsBelow x (ts.length + 1) 0 .expression ts (e, []) (by omega) h
  unfold Keeps at hkeeps
  rw [hkeeps]
  exact (List.append_nil _).symm

end Expr

end TolerantExpr
