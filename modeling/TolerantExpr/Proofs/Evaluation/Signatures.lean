import TolerantExpr.Proofs.Typing.Overloads

/-!
# Signatures and implementations

An operator has a table of overloads and, apart from it, a definition by cases on values. The two
describe one language: operands that no overload takes are refused, and operands of an overload
give a value of its result type. Only where an operator takes numbers for integers can it fail on
operands of an overload, and then an operand is no integer. Functions never fail on arguments of an
overload.
-/

namespace TolerantExpr

/-- The symbol under which an operation reports operands that it is not defined on. -/
def Operation.symbol : Operation → String
  | negate => "-"
  | binary op => op.symbol
  | call f => f.name

/-- The outcome is a value of a type. -/
def Gives (t : ValueType) (r : Except EvalError Value) : Prop := ∃ v, r = .ok v ∧ v.type = t

/-- One of the values is a number that is no integer, and the outcome is the failure of its
cast. -/
def CastFails (vs : List Value) (r : Except EvalError Value) : Prop :=
  ∃ n c, Value.number n ∈ vs ∧ n.toInt = .error c ∧ r = .error (.invalidCast c)

/-- What an operator makes of its operands, the first of which is `left` and the last `right`, is
what its table says. -/
structure Operation.FollowsTable (op : Operation) (operands : List Value) (left right : Value)
    (r : Except EvalError Value) : Prop where
  /-- Operands of no overload are refused; a shift may fail on its amount before that. -/
  refuses : (∀ o ∈ op.overloads, o.arguments ≠ operands.map Value.type) →
    r = .error (Evaluation.undefined op.symbol left right) ∨
      (∃ direction, op = binary (.shift direction)) ∧ CastFails [right] r
  /-- Operands of an overload give a value, unless one has to be an integer and is none. -/
  yields : ∀ o ∈ op.overloads, operands.map Value.type = o.arguments →
    Gives o.result r ∨ op.Casts (some o.result) ∧ CastFails operands r

/-! ### Casts -/

namespace Evaluation

theorem toInteger_cases (n : Number) :
    (∃ i, toInteger n = .ok i) ∨ ∃ c, n.toInt = .error c ∧ toInteger n = .error (.invalidCast c) := by
  unfold toInteger
  cases n.toInt with
  | ok i => exact .inl ⟨i, rfl⟩
  | error c => exact .inr ⟨c, rfl, rfl⟩

/-- A computation that starts by casting an operand fails with the cast, or goes on. -/
theorem toInteger_bind_cases {vs : List Value} {n : Number} {f : Int64 → Except EvalError Value}
    {P : Except EvalError Value → Prop} (hn : .number n ∈ vs)
    (hf : ∀ i, P (f i) ∨ CastFails vs (f i)) :
    P (toInteger n >>= f) ∨ CastFails vs (toInteger n >>= f) := by
  rcases toInteger_cases n with ⟨i, hi⟩ | ⟨c, hc, hi⟩ <;> rw [hi]
  · exact hf i
  · exact .inr ⟨n, c, hn, hc, rfl⟩

/-- Operands that `&` or `|` takes give a value of the result type, or one of them is no
integer. -/
theorem logical_cases (op : Logical) {o : Overload} (ho : o ∈ Overload.ofLogical) {v w : Value}
    (h : [v.type, w.type] = o.arguments) :
    Gives o.result (logical op v w) ∨
      o.result = .numeric ∧ CastFails [v, w] (logical op v w) := by
  by_cases hr : o.result = .numeric
  · rw [Overload.arguments_eq_results ho, hr] at h
    simp only [List.cons.injEq, and_true] at h
    obtain ⟨a, rfl⟩ := Value.exists_number h.1
    obtain ⟨b, rfl⟩ := Value.exists_number h.2
    rw [hr]
    have hcast : Gives .numeric (logical op (.number a) (.number b)) ∨
        CastFails [.number a, .number b] (logical op (.number a) (.number b)) := by
      refine toInteger_bind_cases (by simp) fun i => ?_
      refine toInteger_bind_cases (by simp) fun j => ?_
      exact .inl ⟨.int (op.onIntegers i j), rfl, rfl⟩
    exact hcast.imp_right fun hc => ⟨rfl, hc⟩
  · exact .inl (logical_ok op ho hr h)

/-- Operands that a shift takes give a value of the result type, or one of them is no integer. -/
theorem shift_cases (op : Shift) {o : Overload} (ho : o ∈ Overload.ofShift) {v w : Value}
    (h : [v.type, w.type] = o.arguments) :
    Gives o.result (shift op v w) ∨ CastFails [v, w] (shift op v w) := by
  simp only [Overload.ofShift, List.mem_cons, List.not_mem_nil, or_false] at ho
  obtain rfl | rfl := ho
  all_goals
    simp only [List.cons.injEq, and_true] at h
    obtain ⟨k, rfl⟩ := Value.exists_number h.2
    refine toInteger_bind_cases (by simp) fun amount => ?_
  · obtain ⟨n, rfl⟩ := Value.exists_number h.1
    refine toInteger_bind_cases (by simp) fun i => ?_
    exact .inl ⟨.int (op.onIntegers i amount), rfl, rfl⟩
  · obtain ⟨bs, rfl⟩ := Value.exists_bytes h.1
    exact .inl ⟨.bytes (op.onBytes bs amount), rfl, rfl⟩

/-! ### Operands of no overload -/

variable {formatters : Formatters} {v w : Value}

theorem negate_refuses (h : ∀ o ∈ Overload.negation, o.arguments ≠ [v.type]) :
    negate v = .error (undefined "-" v v) := by
  cases v with
  | number n => exact absurd rfl (h ⟨[.numeric], .numeric⟩ (by decide))
  | _ => rfl

theorem combine_refuses (h : ∀ o ∈ Overload.combination, o.arguments ≠ [v.type, w.type]) :
    combine formatters v w = .error (undefined "+" v w) := by
  cases v <;> cases w <;> simp [Overload.combination, Value.type] at h <;> rfl

theorem arithmetic_refuses {op : Arithmetic}
    (h : ∀ o ∈ op.overloads, o.arguments ≠ [v.type, w.type]) :
    arithmetic formatters op v w = .error (undefined op.symbol v w) := by
  cases op with
  | add => exact combine_refuses h
  | _ =>
    cases v <;> cases w <;> simp [Arithmetic.overloads, Overload.numeric, Value.type] at h <;> rfl

theorem logical_refuses {op : Logical}
    (h : ∀ o ∈ Overload.ofLogical, o.arguments ≠ [v.type, w.type]) :
    logical op v w = .error (undefined op.symbol v w) := by
  cases v <;> cases w <;> simp [Overload.ofLogical, Value.type] at h <;> rfl

/-- A shift looks at its amount first, so that it may fail on an amount that is no integer although
what is to be shifted cannot be. -/
theorem shift_refuses {op : Shift} (h : ∀ o ∈ Overload.ofShift, o.arguments ≠ [v.type, w.type]) :
    shift op v w = .error (undefined op.symbol v w) ∨ CastFails [w] (shift op v w) := by
  cases w with
  | number k =>
    rcases toInteger_cases k with ⟨amount, hk⟩ | ⟨c, hc, hk⟩
    · left
      cases v <;> simp [Overload.ofShift, Value.type] at h <;> simp only [shift, hk] <;> rfl
    · right
      refine ⟨k, c, by simp, hc, ?_⟩
      simp only [shift, hk]
      rfl
  | _ => exact .inl rfl

theorem compare_refuses {op : Comparison}
    (h : ∀ o ∈ op.overloads, o.arguments ≠ [v.type, w.type]) :
    compare op v w = .error (undefined op.symbol v w) := by
  cases op <;> cases v <;> cases w <;>
    simp [Comparison.overloads, Comparison.isOrdering, Overload.equality, Overload.ordering,
      Value.type] at h <;> rfl

/-- Numbers can always be compared, so a tolerance has no part in a refusal. -/
theorem compareTolerant_refuses (t : Tolerance) {op : Comparison}
    (h : ∀ o ∈ op.overloads, o.arguments ≠ [v.type, w.type]) :
    compareTolerant t op v w = .error (undefined op.symbol v w) := by
  unfold compareTolerant
  split
  · cases op <;>
      simp [Comparison.overloads, Comparison.isOrdering, Overload.equality, Overload.ordering,
        Value.type] at h
  · exact compare_refuses h

end Evaluation

/-! ### The main result -/

namespace Operation

open Evaluation

variable (formatters : Formatters)

theorem negate_followsTable (v : Value) :
    FollowsTable negate [v] v v (negate.apply formatters [v]) where
  refuses h := .inl (negate_refuses h)
  yields _ ho h := .inl (apply_ok formatters negate ho (fun hc => hc) h)

theorem binary_followsTable (op : BinaryOperator) (l r : Value) :
    FollowsTable (binary op) [l, r] l r ((binary op).apply formatters [l, r]) := by
  match op with
  | .arithmetic op =>
    exact ⟨fun h => .inl (arithmetic_refuses h),
      fun o ho h => .inl (apply_ok formatters (binary (.arithmetic op)) ho (fun hc => hc) h)⟩
  | .logical op =>
    exact ⟨fun h => .inl (logical_refuses h),
      fun o ho h => (logical_cases op ho h).imp_right fun ⟨hr, hc⟩ => ⟨congrArg some hr, hc⟩⟩
  | .shift op =>
    exact ⟨fun h => (shift_refuses h).imp_right fun hc => ⟨⟨op, rfl⟩, hc⟩,
      fun o ho h => (shift_cases op ho h).imp_right fun hc => ⟨trivial, hc⟩⟩
  | .comparison op =>
    refine ⟨fun h => .inl ?_,
      fun o ho h => .inl (apply_ok formatters (binary (.comparison op)) ho (fun hc => hc) h)⟩
    simp only [apply, compare_refuses h]
    rfl

theorem tolerant_followsTable (t : Tolerance) (op : Comparison) (l r : Value) :
    FollowsTable (binary (.comparison op)) [l, r] l r
      ((compareTolerant t op l r).map .boolean) where
  refuses h := by
    rw [compareTolerant_refuses t h]
    exact .inl rfl
  yields o ho h := by
    obtain ⟨b, hb⟩ := compareTolerant_ok t ho h
    rw [hb, (Comparison.of_mem_overloads ho).1]
    exact .inl ⟨.boolean b, rfl, rfl⟩

/-- The tables of overloads and what operators and functions do with values agree. -/
theorem tables_agree (formatters : Formatters) :
    (∀ v, FollowsTable negate [v] v v (negate.apply formatters [v])) ∧
    (∀ op l r, FollowsTable (binary op) [l, r] l r ((binary op).apply formatters [l, r])) ∧
    (∀ t op l r, FollowsTable (binary (.comparison op)) [l, r] l r
      ((compareTolerant t op l r).map .boolean)) ∧
    ∀ (f : Builtin), ∀ o ∈ f.overloads, ∀ vs : List Value, vs.map Value.type = o.arguments →
      Gives o.result (f.apply formatters vs) :=
  ⟨negate_followsTable formatters, binary_followsTable formatters, tolerant_followsTable,
    fun f _ ho _ h => f.apply_ok formatters ho h⟩

/-- A byte sequence can be shifted by an integer and a text trimmed of characters; `+` does not
combine a Boolean and a number. -/
theorem tables_agree_shift :
    Gives .byteSequence ((binary (.shift .left)).apply [] [.bytes [1, 2], .int 3]) ∧
    (binary (.arithmetic .add)).apply [] [.boolean true, .int 1] =
      .error (undefined "+" (.boolean true) (.int 1)) ∧
    Gives .string (Builtin.trim.apply [] [.string "--x-", .string "-"]) := by
  obtain ⟨-, hbinary, -, hcall⟩ := tables_agree []
  refine ⟨?_, ?_, ?_⟩
  · rcases (hbinary (.shift .left) (.bytes [1, 2]) (.int 3)).yields
      ⟨[.byteSequence, .numeric], .byteSequence⟩ (by decide) rfl with h | ⟨-, n, c, hn, hc, -⟩
    · exact h
    · obtain rfl : n = .int 3 := by simpa [Value.int] using hn
      cases hc
  · rcases (hbinary (.arithmetic .add) (.boolean true) (.int 1)).refuses (by decide) with
      h | ⟨⟨direction, h⟩, -⟩
    · exact h
    · cases h
  · exact hcall .trim ⟨[.string, .string], .string⟩ (by decide) _ rfl

end Operation

end TolerantExpr
