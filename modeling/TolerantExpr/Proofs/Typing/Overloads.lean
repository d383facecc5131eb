import TolerantExpr.Node.Basic
import Mathlib.Data.List.Basic

/-!
# Overloads and what implements them

The tables promise a result type for operands of given types. Every operation keeps the promise of
its table, up to a cast: on operands of an overload it yields a value of the overload's result
type, or it fails because a double is no 64-bit integer. Functions never fail on such operands.
-/

namespace TolerantExpr

namespace Value

theorem exists_number {v : Value} (h : v.type = .numeric) : ∃ n, v = number n := by
  cases v with
  | number n => exact ⟨n, rfl⟩
  | _ => simp [type] at h

theorem exists_string {v : Value} (h : v.type = .string) : ∃ s, v = string s := by
  cases v with
  | string s => exact ⟨s, rfl⟩
  | _ => simp [type] at h

theorem exists_boolean {v : Value} (h : v.type = .boolean) : ∃ b, v = boolean b := by
  cases v with
  | boolean b => exact ⟨b, rfl⟩
  | _ => simp [type] at h

theorem exists_bytes {v : Value} (h : v.type = .byteSequence) : ∃ bs, v = bytes bs := by
  cases v with
  | bytes bs => exact ⟨bs, rfl⟩
  | _ => simp [type] at h

theorem eq_singleton_of_types {vs : List Value} {a : ValueType} (h : vs.map type = [a]) :
    ∃ v, vs = [v] ∧ v.type = a := by
  simpa [List.map_eq_cons_iff] using h

theorem eq_pair_of_types {vs : List Value} {a b : ValueType} (h : vs.map type = [a, b]) :
    ∃ v w, vs = [v, w] ∧ v.type = a ∧ w.type = b := by
  obtain ⟨v, ws, rfl, hv, hws⟩ := List.map_eq_cons_iff.mp h
  obtain ⟨w, rfl, hw⟩ := eq_singleton_of_types hws
  exact ⟨v, w, rfl, hv, hw⟩

theorem eq_numbers_of_types {vs : List Value} (h : vs.map type = [.numeric, .numeric]) :
    ∃ a b, vs = [number a, number b] := by
  obtain ⟨v, w, rfl, hv, hw⟩ := eq_pair_of_types h
  obtain ⟨a, rfl⟩ := exists_number hv
  obtain ⟨b, rfl⟩ := exists_number hw
  exact ⟨a, b, rfl⟩

end Value

/-- The outcome of an operation that may only fail by a cast. -/
def Yields (r : Except EvalError Value) (t : ValueType) : Prop :=
  (∃ v, r = .ok v ∧ v.type = t) ∨ ∃ c, r = .error (.invalidCast c)

namespace Yields

theorem ok {v : Value} {t : ValueType} (h : v.type = t) : Yields (.ok v) t := .inl ⟨v, rfl, h⟩

/-- Casting a number to an integer fails by a cast or not at all. -/
theorem toInteger_bind {t : ValueType} (n : Number) {f : Int64 → Except EvalError Value}
    (h : ∀ i, Yields (f i) t) : Yields (Evaluation.toInteger n >>= f) t := by
  unfold Evaluation.toInteger
  cases n.toInt with
  | ok i => exact h i
  | error c => exact .inr ⟨c, rfl⟩

end Yields

/-- A comparison is between values of one type and yields a Boolean; Booleans have no order. -/
theorem Comparison.of_mem_overloads {op : Comparison} {o : Overload} (ho : o ∈ op.overloads) :
    o.result = .boolean ∧ ∃ t, o.arguments = [t, t] ∧ (t = .boolean → op.isOrdering = false) := by
  cases hord : op.isOrdering <;>
    simp only [overloads, hord, Bool.false_eq_true, ↓reduceIte, Overload.equality,
      Overload.ordering, List.mem_cons, List.not_mem_nil, or_false] at ho
  · rcases ho with rfl | rfl | rfl | rfl <;> exact ⟨rfl, _, rfl, fun _ => rfl⟩
  · rcases ho with rfl | rfl | rfl <;> exact ⟨rfl, _, rfl, by decide⟩

/-- `&` and `|` are between values of the type of the result. -/
theorem Overload.arguments_eq_results {o : Overload} (ho : o ∈ ofLogical) :
    o.arguments = [o.result, o.result] := by
  have key : ∀ o ∈ ofLogical, o.arguments = [o.result, o.result] := by decide
  exact key o ho

/-- `&` or `|` yields a Boolean only between Booleans. -/
theorem Overload.arguments_eq_booleans {o : Overload} (ho : o ∈ ofLogical)
    (hr : o.result = .boolean) : o.arguments = [.boolean, .boolean] := by
  rw [arguments_eq_results ho, hr]

namespace Evaluation

variable (formatters : Formatters)

theorem combine_ok {o : Overload} (ho : o ∈ Overload.combination) {v w : Value}
    (h : [v.type, w.type] = o.arguments) :
    ∃ u, combine formatters v w = .ok u ∧ u.type = o.result := by
  simp only [Overload.combination, List.mem_cons, List.not_mem_nil, or_false] at ho
  rcases ho with rfl | rfl | rfl | rfl | rfl | rfl | rfl | rfl | rfl <;>
    cases v <;> simp [Value.type] at h <;> cases w <;> simp at h <;> exact ⟨_, rfl, rfl⟩

/-- `&` and `|` cast numbers only. -/
theorem logical_ok (op : Logical) {o : Overload} (ho : o ∈ Overload.ofLogical)
    (hr : o.result ≠ .numeric) {v w : Value} (h : [v.type, w.type] = o.arguments) :
    ∃ u, logical op v w = .ok u ∧ u.type = o.result := by
  simp only [Overload.ofLogical, List.mem_cons, List.not_mem_nil, or_false] at ho
  rcases ho with rfl | rfl | rfl
  · obtain ⟨a, rfl⟩ := Value.exists_boolean (List.cons.inj h).1
    obtain ⟨b, rfl⟩ := Value.exists_boolean (List.cons.inj (List.cons.inj h).2).1
    exact ⟨_, rfl, rfl⟩
  · exact absurd rfl hr
  · obtain ⟨a, rfl⟩ := Value.exists_bytes (List.cons.inj h).1
    obtain ⟨b, rfl⟩ := Value.exists_bytes (List.cons.inj (List.cons.inj h).2).1
    exact ⟨_, rfl, rfl⟩

theorem logical_yields (op : Logical) (a b : Number) :
    Yields (logical op (.number a) (.number b)) .numeric :=
  .toInteger_bind a fun _ => .toInteger_bind b fun _ => .ok rfl

theorem shift_yields (op : Shift) {o : Overload} (ho : o ∈ Overload.ofShift) {v w : Value}
    (h : [v.type, w.type] = o.arguments) : Yields (shift op v w) o.result := by
  simp only [Overload.ofShift, List.mem_cons, List.not_mem_nil, or_false] at ho
  rcases ho with rfl | rfl <;>
    cases v <;> simp [Value.type] at h <;> cases w <;> simp at h
  case inl n k => exact .toInteger_bind k fun _ => .toInteger_bind n fun _ => .ok rfl
  case inr bs k => exact .toInteger_bind k fun _ => .ok rfl

/-- Operands of an overload of a comparison can be compared. -/
theorem compare_ok {op : Comparison} {o : Overload} (ho : o ∈ op.overloads) {v w : Value}
    (h : [v.type, w.type] = o.arguments) : ∃ b, compare op v w = .ok b := by
  obtain ⟨-, t, ht, hb⟩ := Comparison.of_mem_overloads ho
  rw [ht, List.cons.injEq, List.cons.injEq] at h
  obtain ⟨hv, hw, -⟩ := h
  cases t with
  | numeric =>
    obtain ⟨a, rfl⟩ := Value.exists_number hv
    obtain ⟨b, rfl⟩ := Value.exists_number hw
    cases hc : a.compare? b with
    | some r => exact ⟨op.holds r, by simp only [compare, hc]⟩
    | none => exact ⟨decide (op = .ne), by simp only [compare, hc]⟩
  | string =>
    obtain ⟨a, rfl⟩ := Value.exists_string hv
    obtain ⟨b, rfl⟩ := Value.exists_string hw
    exact ⟨_, rfl⟩
  | boolean =>
    obtain ⟨a, rfl⟩ := Value.exists_boolean hv
    obtain ⟨b, rfl⟩ := Value.exists_boolean hw
    exact ⟨op.holds (Ord.compare a b), by simp [compare, hb rfl]⟩
  | byteSequence =>
    obtain ⟨a, rfl⟩ := Value.exists_bytes hv
    obtain ⟨b, rfl⟩ := Value.exists_bytes hw
    exact ⟨_, rfl⟩

theorem compareTolerant_ok (t : Tolerance) {op : Comparison} {o : Overload}
    (ho : o ∈ op.overloads) {v w : Value} (h : [v.type, w.type] = o.arguments) :
    ∃ b, compareTolerant t op v w = .ok b := by
  unfold compareTolerant
  split
  · exact ⟨_, rfl⟩
  · exact compare_ok ho h

end Evaluation

namespace Builtin

variable (formatters : Formatters)

/-- On arguments of one of its overloads a function yields a value of the result type. -/
theorem apply_ok (f : Builtin) {o : Overload} (ho : o ∈ f.overloads) {vs : List Value}
    (h : vs.map Value.type = o.arguments) :
    ∃ v, f.apply formatters vs = .ok v ∧ v.type = o.result := by
  cases f <;> simp only [overloads, Overload.negation, Overload.numeric, List.mem_cons,
    List.not_mem_nil, or_false] at ho
  case atan2 | log | max | min | pow =>
    subst ho
    obtain ⟨a, b, rfl⟩ := Value.eq_numbers_of_types h
    exact ⟨_, rfl, rfl⟩
  case len =>
    rcases ho with rfl | rfl <;> obtain ⟨v, rfl, hv⟩ := Value.eq_singleton_of_types h
    · obtain ⟨s, rfl⟩ := Value.exists_string hv
      exact ⟨_, rfl, rfl⟩
    · obtain ⟨bs, rfl⟩ := Value.exists_bytes hv
      exact ⟨_, rfl, rfl⟩
  case lower | upper =>
    subst ho
    obtain ⟨v, rfl, hv⟩ := Value.eq_singleton_of_types h
    obtain ⟨s, rfl⟩ := Value.exists_string hv
    exact ⟨_, rfl, rfl⟩
  case trim =>
    rcases ho with rfl | rfl
    · obtain ⟨v, rfl, hv⟩ := Value.eq_singleton_of_types h
      obtain ⟨s, rfl⟩ := Value.exists_string hv
      exact ⟨_, rfl, rfl⟩
    · obtain ⟨v, w, rfl, hv, hw⟩ := Value.eq_pair_of_types h
      obtain ⟨s, rfl⟩ := Value.exists_string hv
      obtain ⟨drops, rfl⟩ := Value.exists_string hw
      exact ⟨_, rfl, rfl⟩
  case str =>
    rcases ho with rfl | rfl | rfl | rfl <;>
      obtain ⟨v, rfl, -⟩ := Value.eq_singleton_of_types h <;> exact ⟨_, rfl, rfl⟩
  all_goals
    subst ho
    obtain ⟨v, rfl, hv⟩ := Value.eq_singleton_of_types h
    obtain ⟨n, rfl⟩ := Value.exists_number hv
    exact ⟨_, rfl, rfl⟩

end Builtin

/-- Every table that an operator or a function may have. -/
def Overload.tables : List (List Overload) :=
  [negation, combination, numeric, ofShift, ofLogical, equality, ordering, Builtin.len.overloads,
    Builtin.lower.overloads, Builtin.trim.overloads, Builtin.str.overloads]

/-- An operator takes two operands. -/
theorem BinaryOperator.arguments_eq_pair {op : BinaryOperator} {o : Overload}
    (ho : o ∈ op.overloads) : ∃ a b, o.arguments = [a, b] := by
  have key : ∀ os ∈ [Overload.combination, Overload.numeric, Overload.ofShift, Overload.ofLogical,
      Overload.equality, Overload.ordering], ∀ o ∈ os, o.arguments.length = 2 := by decide
  have hmem : op.overloads ∈ [Overload.combination, Overload.numeric, Overload.ofShift,
      Overload.ofLogical, Overload.equality, Overload.ordering] := by
    rcases op with op | op | op | op <;> cases op <;> decide
  exact List.length_eq_two.mp (key _ hmem o ho)

namespace Operation

theorem overloads_mem_tables (op : Operation) : op.overloads ∈ Overload.tables := by
  cases op with
  | negate => decide
  | binary op => rcases op with op | op | op | op <;> cases op <;> decide
  | call f => cases f <;> decide

/-- No table lists the same arguments twice. -/
theorem overload_unique (op : Operation) {o p : Overload} (ho : o ∈ op.overloads)
    (hp : p ∈ op.overloads) (h : o.arguments = p.arguments) : o = p := by
  have key : ∀ os ∈ Overload.tables, ∀ o ∈ os, ∀ p ∈ os, o.arguments = p.arguments → o = p := by
    decide
  exact key _ op.overloads_mem_tables o ho p hp h

/-- Whether an operation takes the numbers among its operands for integers. A shift does, and so
do `&` and `|` between numbers. -/
def Casts (op : Operation) (result : Option ValueType) : Prop :=
  match op with
  | binary (.shift _) => True
  | binary (.logical _) => result = some .numeric
  | _ => False

/-- An operation that casts nothing yields a value of the result type. -/
theorem apply_ok (formatters : Formatters) (op : Operation) {o : Overload} (ho : o ∈ op.overloads)
    (hcasts : ¬op.Casts (some o.result)) {vs : List Value} (h : vs.map Value.type = o.arguments) :
    ∃ v, op.apply formatters vs = .ok v ∧ v.type = o.result := by
  match op with
  | negate =>
    obtain rfl : o = ⟨[.numeric], .numeric⟩ := by simpa [overloads, Overload.negation] using ho
    obtain ⟨v, rfl, hv⟩ := Value.eq_singleton_of_types h
    obtain ⟨n, rfl⟩ := Value.exists_number hv
    cases n <;> exact ⟨_, rfl, rfl⟩
  | binary op =>
    obtain ⟨a, b, hab⟩ := BinaryOperator.arguments_eq_pair ho
    obtain ⟨v, w, rfl, rfl, rfl⟩ := Value.eq_pair_of_types (h.trans hab)
    match op with
    | .arithmetic .add => exact Evaluation.combine_ok formatters ho h
    | .arithmetic .sub | .arithmetic .mul | .arithmetic .div | .arithmetic .pow =>
      obtain rfl : o = ⟨[.numeric, .numeric], .numeric⟩ := by
        simpa [overloads, BinaryOperator.overloads, Arithmetic.overloads, Overload.numeric] using ho
      obtain ⟨a, b, hvw⟩ := Value.eq_numbers_of_types h
      obtain ⟨rfl, rfl⟩ : v = .number a ∧ w = .number b := by simpa using hvw
      exact ⟨_, rfl, rfl⟩
    | .logical op =>
      exact Evaluation.logical_ok op ho (fun hr => hcasts (congrArg some hr)) h
    | .shift op => exact absurd trivial hcasts
    | .comparison op =>
      obtain ⟨c, hc⟩ := Evaluation.compare_ok ho h
      rw [(Comparison.of_mem_overloads ho).1]
      exact ⟨.boolean c, by simp only [apply, hc]; rfl, rfl⟩
  | call f => exact f.apply_ok formatters ho h

/-- On operands of one of its overloads an operation yields a value of the result type, up to
a cast. -/
theorem apply_yields (formatters : Formatters) (op : Operation) {o : Overload}
    (ho : o ∈ op.overloads) {vs : List Value} (h : vs.map Value.type = o.arguments) :
    Yields (op.apply formatters vs) o.result := by
  by_cases hcasts : op.Casts (some o.result)
  · match op with
    | binary (.logical op) =>
      obtain hr : o.result = .numeric := Option.some.inj hcasts
      rw [Overload.arguments_eq_results ho, hr] at h
      obtain ⟨a, b, rfl⟩ := Value.eq_numbers_of_types h
      rw [hr]
      exact Evaluation.logical_yields op a b
    | binary (.shift op) =>
      change o ∈ (BinaryOperator.shift op).overloads at ho
      obtain ⟨a, b, hab⟩ := BinaryOperator.arguments_eq_pair ho
      obtain ⟨v, w, rfl, rfl, rfl⟩ := Value.eq_pair_of_types (h.trans hab)
      exact Evaluation.shift_yields op ho h
  · exact .inl (op.apply_ok formatters ho hcasts h)

end Operation

end TolerantExpr
