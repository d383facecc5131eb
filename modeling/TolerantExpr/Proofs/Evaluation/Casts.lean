import TolerantExpr.Proofs.Evaluation.Meaning
import TolerantExpr.Proofs.Typing.Tables

/-!
# Casts are decided when arguments are bound

A shift, and `&` and `|` between numbers, take numbers for integers, and fail on a double that is
none. Where each number that they meet is a parameter, a constant integer or the result of such an
operation, no call can fail in that way: every such parameter prefers integers, so an argument that
is no integer is refused when it is bound. No other operation fails on values of the right types,
and plain values involve no producers; so no evaluation fails at all.
-/

namespace TolerantExpr

/-- A value that, if it is a number, is a 64-bit integer. -/
def Value.Integral : Value → Prop
  | .number n => ∃ i, n.toInt = .ok i
  | _ => True

theorem Value.integral_of_type_ne {v : Value} (h : v.type ≠ .numeric) : v.Integral := by
  cases v with
  | number n => exact absurd rfl h
  | _ => trivial

/-- A value of a type, and an integer if it is to be cast. -/
def Value.Suits (cast : Prop) (v : Value) (t : ValueType) : Prop := v.type = t ∧ (cast → v.Integral)

/-! ### Operations on integers -/

namespace Evaluation

theorem toInteger_of_toInt {n : Number} {i : Int64} (h : n.toInt = .ok i) : toInteger n = .ok i := by
  unfold toInteger
  rw [h]

end Evaluation

namespace Operation

variable {op : Operation} {o : Overload}

/-- An operation that casts yields an integer or a byte sequence, if all numbers are integers. -/
theorem apply_integral (formatters : Formatters) (ho : o ∈ op.overloads)
    (hcasts : op.Casts (some o.result)) {vs : List Value} (h : vs.map Value.type = o.arguments)
    (hvs : ∀ v ∈ vs, v.Integral) :
    ∃ v, op.apply formatters vs = .ok v ∧ v.type = o.result ∧ v.Integral := by
  match op with
  | binary (.logical op) =>
    obtain hr : o.result = .numeric := Option.some.inj hcasts
    rw [Overload.arguments_eq_results ho, hr] at h
    obtain ⟨a, b, rfl⟩ := Value.eq_numbers_of_types h
    obtain ⟨i, hi⟩ := hvs (.number a) (by simp)
    obtain ⟨j, hj⟩ := hvs (.number b) (by simp)
    refine ⟨.int (op.onIntegers i j), ?_, hr.symm, _, rfl⟩
    simp only [apply, Evaluation.logical, Evaluation.toInteger_of_toInt hi,
      Evaluation.toInteger_of_toInt hj]
    rfl
  | binary (.shift op) =>
    change o ∈ Overload.ofShift at ho
    simp only [Overload.ofShift, List.mem_cons, List.not_mem_nil, or_false] at ho
    rcases ho with rfl | rfl
    · obtain ⟨a, b, rfl⟩ := Value.eq_numbers_of_types h
      obtain ⟨i, hi⟩ := hvs (.number a) (by simp)
      obtain ⟨j, hj⟩ := hvs (.number b) (by simp)
      refine ⟨.int (op.onIntegers i j), ?_, rfl, _, rfl⟩
      simp only [apply, Evaluation.shift, Evaluation.toInteger_of_toInt hi,
        Evaluation.toInteger_of_toInt hj]
      rfl
    · obtain ⟨v, w, rfl, hv, hw⟩ := Value.eq_pair_of_types h
      obtain ⟨bs, rfl⟩ := Value.exists_bytes hv
      obtain ⟨k, rfl⟩ := Value.exists_number hw
      obtain ⟨j, hj⟩ := hvs (.number k) (by simp)
      refine ⟨.bytes (op.onBytes bs j), ?_, rfl, trivial⟩
      simp only [apply, Evaluation.shift, Evaluation.toInteger_of_toInt hj]
      rfl

/-- Operands that suit an operation make it yield a value. -/
theorem apply_suits (formatters : Formatters) (ho : o ∈ op.overloads) {vs : List Value}
    (h : List.Forall₂ (Value.Suits (op.Casts (some o.result))) vs o.arguments) :
    ∃ v, op.apply formatters vs = .ok v ∧ v.Suits (op.Casts (some o.result)) o.result := by
  have htypes : List.Forall₂ Eq (vs.map Value.type) o.arguments :=
    List.forall₂_map_left_iff.mpr (h.imp fun _ _ hv => hv.1)
  rw [List.forall₂_eq_eq_eq] at htypes
  by_cases hcasts : op.Casts (some o.result)
  · have hvs : ∀ v ∈ vs, v.Integral := by
      intro v hv
      obtain ⟨t, -, -, hi⟩ := exists_of_forall₂_of_mem_right h.flip hv
      exact hi hcasts
    obtain ⟨v, hv, ht, hi⟩ := apply_integral formatters ho hcasts htypes hvs
    exact ⟨v, hv, ht, fun _ => hi⟩
  · obtain ⟨v, hv, ht⟩ := op.apply_ok formatters ho hcasts htypes
    exact ⟨v, hv, ht, fun h => absurd h hcasts⟩

end Operation

/-! ### Evaluation without errors -/

theorem Run.inTurn_ends {ε α β : Type} {P : α → β → Prop} {E : ε → History → Prop}
    {ms : List (Run ε α)} {ts : List β} (h : List.Forall₂ (fun m t => m.Ends (P · t) E) ms ts) :
    (inTurn ms).Ends (fun as => List.Forall₂ P as ts) E := by
  induction h with
  | nil => exact ends_pure .nil
  | cons hm _ ih =>
    unfold inTurn
    exact hm.bind fun a ha => ih.bind fun as has => ends_pure (.cons ha has)

theorem Evaluation.compareUnder_ok (t : Tolerance) {op : Comparison} {o : Overload}
    (ho : o ∈ op.overloads) {v w : Value} (h : [v.type, w.type] = o.arguments) :
    ∃ b, compareUnder t op v w = .ok b := by
  unfold compareUnder
  split
  · exact compare_ok ho h
  · exact compareTolerant_ok t ho h

namespace Operation

variable {op : Operation} {o : Overload} {scope : Scope} {E : EvalError → History → Prop}

/-- An operation is performed on operands that suit it without an error of its own. -/
theorem perform_ends (ho : o ∈ op.overloads) {ms : List (Run EvalError Value)}
    (h : List.Forall₂ (fun m t => m.Ends (Value.Suits (op.Casts (some o.result)) · t) E) ms
      o.arguments) :
    (op.perform scope ms).Ends (Value.Suits (op.Casts (some o.result)) · o.result) E := by
  have happly (vs : List Value)
      (hvs : List.Forall₂ (Value.Suits (op.Casts (some o.result))) vs o.arguments) :
      (ofExcept (op.apply scope.formatters vs)).Ends
        (Value.Suits (op.Casts (some o.result)) · o.result) E := by
    obtain ⟨v, hv, hsuits⟩ := apply_suits scope.formatters ho hvs
    rw [hv]
    exact Run.ends_pure hsuits
  have hgeneral : (do
      let vs ← Run.inTurn ms
      ofExcept (op.apply scope.formatters vs)).Ends
        (Value.Suits (op.Casts (some o.result)) · o.result) E :=
    (Run.inTurn_ends h).bind happly
  match op, ms with
  | binary (.logical op), [l, r] =>
    rw [Overload.arguments_eq_results ho] at h
    obtain _ | ⟨hl, _ | ⟨hr, -⟩⟩ := h
    refine hl.bind fun v hv => ?_
    split
    · exact Run.ends_pure hv
    · refine hr.bind fun w hw => happly [v, w] ?_
      rw [Overload.arguments_eq_results ho]
      exact .cons hv (.cons hw .nil)
  | binary (.comparison op), [l, r] =>
    obtain ⟨hresult, t, harguments, -⟩ := Comparison.of_mem_overloads ho
    rw [harguments] at h
    obtain _ | ⟨hl, _ | ⟨hr, -⟩⟩ := h
    refine hl.bind fun v hv => hr.bind fun w hw => ?_
    obtain ⟨b, hb⟩ := Evaluation.compareUnder_ok scope.tolerance ho (v := v) (w := w)
      (by rw [harguments, hv.1, hw.1])
    rw [hb]
    exact Run.ends_pure ⟨hresult.symm, fun hcasts => absurd hcasts id⟩
  | binary (.logical o), [] | binary (.logical o), [_] | binary (.logical o), _ :: _ :: _ :: _
  | binary (.comparison o), [] | binary (.comparison o), [_]
  | binary (.comparison o), _ :: _ :: _ :: _ | binary (.arithmetic o), _ | binary (.shift o), _
  | negate, _ | call f, _ => exact hgeneral

end Operation

namespace Node

/-- An operand that is an integer in every call whose arguments can be bound: a parameter,
a constant that is integral and in the range, or the number that a shift, `&` or `|` yields. -/
inductive Whole : Node → Prop where
  | constant {n : Number} {i : Int64} (h : n.toInt = .ok i) (s : Span) :
    Whole (constant (.number n) s)
  | parameter (name : String) (producer : Bool) (s : Span) (ts : TypeSet) :
    Whole (parameter name producer s ts)
  | operation {op : Operation} (h : op.Casts (some .numeric)) (xs : List Node) (s : Span) :
    Whole (operation op xs s (.only .numeric))

/-- Every operand that is taken for an integer is one, byte sequences that are shifted apart. -/
def CastsWhole (n : Node) : Prop :=
  ∀ op xs s ts, (operation op xs s ts).Subtree n → op.Casts ts.single? →
    ∀ x ∈ xs, x.type? = some .byteSequence ∨ x.Whole

theorem CastsWhole.of_operation {op : Operation} {xs : List Node} {s : Span} {ts : TypeSet}
    (h : (operation op xs s ts).CastsWhole) {x : Node} (hx : x ∈ xs) : x.CastsWhole :=
  fun op ys t us hm => h op ys t us (.operand hx hm)

/-- A node whose value an operation may take for an integer. -/
def Integral (table : ParameterTable) : Node → Prop
  | constant v _ => v.Integral
  | parameter name _ _ _ => ∀ f ∈ table, f.name = name → f.preference = .integer
  | operation op _ _ ts => op.Casts ts.single?

end Node

/-! ### Demands -/

/-- An operation that casts demands that its parameters are bound to integers. -/
theorem Operation.operandPreference_of_casts {op : Operation} {result : Option ValueType}
    (h : op.Casts result) : Analysis.operandPreference op result = .integer := by
  match op with
  | .binary (.shift op) => rfl
  | .binary (.logical op) => exact if_pos h

namespace Node

/-- The parameters of which a tree demands integers are bound to integers. -/
def DemandsMet (table : ParameterTable) (n : Node) : Prop :=
  ∀ f ∈ table, (f.name, Preference.integer) ∈ n.demands → f.preference = .integer

variable {table : ParameterTable} {op : Operation} {xs : List Node} {x : Node} {s : Span}
  {ts : TypeSet}

theorem DemandsMet.of_operation (h : (operation op xs s ts).DemandsMet table) (hx : x ∈ xs) :
    x.DemandsMet table := by
  intro f hf hd
  refine h f hf ?_
  rw [demands, List.mem_append]
  exact .inr (mem_demandsAll_iff.mpr ⟨x, hx, hd⟩)

/-- A number that an operation takes for an integer is one. -/
theorem DemandsMet.integral (h : (operation op xs s ts).DemandsMet table)
    (hwhole : (operation op xs s ts).CastsWhole) (hcasts : op.Casts ts.single?) (hx : x ∈ xs)
    (hnumeric : x.types = .only .numeric) : x.Integral table := by
  have htype : x.type? = some .numeric := by rw [type?, hnumeric, TypeSet.single?_only]
  obtain hx' : x.Whole := by
    refine (hwhole op xs s ts .refl hcasts x hx).resolve_left fun hbytes => ?_
    rw [htype] at hbytes
    cases hbytes
  cases hx' with
  | constant h t => exact ⟨_, h⟩
  | operation h ys t =>
    rw [Integral, TypeSet.single?_only]
    exact h
  | parameter name producer t us =>
    rintro f hf rfl
    refine h f hf ?_
    rw [demands, List.mem_append, List.mem_flatMap]
    refine .inl ⟨_, hx, ?_⟩
    have hsingle : us.single? = some .numeric := htype
    rw [demandAt, Operation.operandPreference_of_casts hcasts, if_pos hsingle]
    exact List.mem_singleton_self _

end Node

/-! ### Slots -/

/-- A slot that holds a value of a parameter's type, and an integer if the parameter prefers
integers. -/
def Slot.Holds (f : FixedParameter) (s : Slot) : Prop :=
  ∃ v, s = .known v ∧ v.Suits (f.preference = .integer) f.type

theorem Slot.Holds.fits {find : Finder} {i : Nat} {f : FixedParameter} {s : Slot}
    (h : s.Holds f) : s.Fits find i f := by
  obtain ⟨v, rfl, hv⟩ := h
  exact .known hv.1

namespace FixedParameter

/-- What a parameter takes suits it. -/
theorem suits_of_accept {f : FixedParameter} {v w : Value} (h : f.accept v = .ok w) :
    w.Suits (f.preference = .integer) f.type := by
  refine ⟨type_of_accept h, fun hinteger => ?_⟩
  unfold accept at h
  split at h
  · cases h
  split at h
  · rename_i n _
    rw [hinteger, Number.coerce] at h
    cases hi : n.toInt with
    | error cause =>
      rw [hi] at h
      cases h
    | ok i =>
      rw [hi] at h
      cases h
      exact ⟨i, rfl⟩
  · rename_i hnumber
    cases h
    refine Value.integral_of_type_ne fun htype => ?_
    obtain ⟨n, rfl⟩ := Value.exists_number htype
    exact hnumber n rfl

/-- A plain value is bound, or refused. -/
theorem bind_value_ends (f : FixedParameter) (i : Nat) (v : Value) :
    (f.bind i (.value v)).Ends (Slot.Holds f) fun err _ => ∀ e, err ≠ .evaluation e := by
  refine Run.ends_ofExcept (fun s hs => ?_) fun err history herr => ?_
  · unfold bindValue at hs
    split at hs
    · rename_i w hw
      cases hs
      exact ⟨w, rfl, suits_of_accept hw⟩
    all_goals cases hs
  · unfold bindValue at herr
    split at herr <;> cases herr <;> exact fun e h => by cases h

end FixedParameter

namespace Node

variable {table : ParameterTable} {scope : Scope} {E : EvalError → History → Prop}

/-- A tree whose casts are decided yields a value of its type, whatever the errors are that may be
met. -/
theorem evaluate_ends {n : Node} (hn : n.Resolved)
    (href : n.EveryReference fun name ts => ∃ f ∈ table, f.name = name ∧ ts = .only f.type)
    (hnames : table.names.Nodup)
    (hslots : ∀ (i : Nat) (f : FixedParameter), table[i]? = some f →
      ∃ s, scope.slots[i]? = some s ∧ s.Holds f)
    (hwhole : n.CastsWhole) (hdemands : n.DemandsMet table) {t : ValueType}
    (ht : n.types = .only t) :
    (n.evaluate table scope).Ends (Value.Suits (n.Integral table) · t) E := by
  induction hn generalizing t with
  | constant v s => exact Run.ends_pure ⟨TypeSet.only_injective ht, id⟩
  | parameter name producer s u =>
    obtain ⟨f, hf, rfl, hu⟩ := href.of_parameter
    obtain rfl := TypeSet.only_injective hu
    obtain rfl := TypeSet.only_injective ht
    obtain ⟨i, hi⟩ := ParameterTable.exists_slot? (List.mem_map_of_mem hf)
    obtain ⟨slot, hslot, v, rfl, hv⟩ := hslots i f (ParameterTable.getElem?_of_slot? hnames hf hi)
    rw [evaluate, hi]
    unfold Scope.argument
    dsimp only
    rw [hslot]
    exact Run.ends_pure ⟨hv.1, fun h => hv.2 (h f hf rfl)⟩
  | @operation op xs o s ho types operands ih =>
    obtain rfl := TypeSet.only_injective ht
    have hoperands : List.Forall₂
        (fun m t => m.Ends (Value.Suits (op.Casts (some o.result)) · t) E)
        (evaluateAll table scope xs) o.arguments := by
      rw [evaluateAll_eq_map, List.forall₂_map_left_iff]
      refine forall₂_imp_of_mem (map_eq_map_iff.mp types) fun x hx t _ ht => ?_
      have hends := ih x hx (href.of_operation x hx) (hwhole.of_operation hx)
        (hdemands.of_operation hx) ht
      refine hends.imp fun v hv => ⟨hv.1, fun hcasts => ?_⟩
      by_cases hnumeric : v.type = .numeric
      · refine hv.2 (hdemands.integral hwhole ?_ hx ?_)
        · rwa [TypeSet.single?_only]
        · rw [ht, ← hv.1, hnumeric]
      · exact Value.integral_of_type_ne hnumeric
    rw [evaluate, Integral, TypeSet.single?_only]
    exact op.perform_ends ho hoperands

end Node

/-! ### Calls -/

/-- The demands of an analyzed tree are met by its table. -/
theorem Analysis.demandsMet_of_ofExpr {e : Expr} {x : Extraction} {source : String} {r : Registry}
    {formatters : Formatters} {a : Analysis} (hr : r.Distinct)
    (h : ofExpr e x source r formatters = .ok a) : a.root.DemandsMet a.parameters := by
  obtain ⟨s, hfinal⟩ := exists_final_of_ofExpr hr h
  intro f hf hd
  rw [← hfinal.preference_eq f hf]
  exact (hfinal.demands _ hd).resolve_left fun hunset => by cases hunset

namespace Engine

variable {engine : Engine} {source : String} {table : ParameterTable} {e : Compiled} {expr : Expr}
  {a : Analysis}

/-- Where every operand that is taken for an integer is a parameter, a constant integer or again
the number of such an operation, a call with plain values yields a value or is refused when the
arguments are bound. Its evaluation never fails. -/
theorem call_casts_at_binding (h : (engine.compileWith source table).1 = .ok e)
    (hexpr : engine.parse source = .ok expr)
    (ha : Analysis.ofExpr expr (engine.extract source) source (.ofTable table) engine.formatters =
      .ok a)
    (hwhole : a.root.CastsWhole) (t : Tolerance) (values : List Value) :
    (e.call t (values.map .value)).Ends (fun v => v.type = e.type)
      fun err _ => ∀ fault, err ≠ .evaluation fault := by
  have hr := Registry.distinct_ofTable table
  have hwell := Analysis.ofExpr_wellTyped hr ha
  rw [compileWith, count_fst] at h
  obtain ⟨expr', a', hexpr', ha', hparameters, hexact, htolerant, htype⟩ :=
    exists_stages_of_compileText h
  obtain rfl := Except.ok.inj (hexpr.symm.trans hexpr')
  obtain rfl := Except.ok.inj (ha.symm.trans ha')
  unfold Compiled.call ParameterTable.bindInOrder
  rw [hparameters]
  split
  · have hbind : ∀ {i : Nat} {f : FixedParameter} {b : Argument}, a.parameters[i]? = some f →
        (values.map Argument.value)[i]? = some b →
        (f.bind i b).Ends (Slot.Holds f) fun err _ => ∀ fault, err ≠ .evaluation fault := by
      intro i f b _ hb
      rw [List.getElem?_map, Option.map_eq_some_iff] at hb
      obtain ⟨v, -, rfl⟩ := hb
      exact f.bind_value_ends i v
    refine (bindAll_ends (fun _ _ _ h => by cases h) hbind).bind fun slots hslots => ?_
    have hfit : SlotsFit a.parameters (fun i _ => (values.map Argument.value)[i]?) slots := by
      intro i f hf
      obtain ⟨s, hs, hholds⟩ := hslots i f hf
      exact ⟨s, hs, hholds.fits⟩
    rw [e.runCode_eq_evaluate hwell hexact htolerant t hfit]
    have hends : (a.root.evaluate a.parameters ⟨slots, t, e.formatters⟩).Ends
        (Value.Suits (a.root.Integral a.parameters) · e.type) fun _ _ => False :=
      Node.evaluate_ends hwell.resolved hwell.references hwell.distinct hslots hwhole
        (Analysis.demandsMet_of_ofExpr hr ha) (TypeSet.single?_eq_some_iff.mp htype)
    exact (hends.imp fun v hv => hv.1).adapt fun _ _ h => h.elim
  · exact fun _ => meets_throw fun _ h => by cases h

/-- How `a << 1 | b` is read. -/
def shiftedUnion : Expr :=
  .binary (.logical .or)
    (.binary (.shift .left) (.name "a" ⟨0, 1⟩) (.literal (.int 1) ⟨5, 6⟩) ⟨0, 6⟩)
    (.name "b" ⟨9, 10⟩) ⟨0, 10⟩

/-- The analyzed tree of `a << 1 | b`. -/
def shiftedUnionRoot : Node :=
  .operation (.binary (.logical .or))
    [.operation (.binary (.shift .left))
        [.parameter "a" false ⟨0, 1⟩ (.only .numeric), .constant (.int 1) ⟨5, 6⟩] ⟨0, 6⟩
        (.only .numeric),
      .parameter "b" false ⟨9, 10⟩ (.only .numeric)] ⟨0, 10⟩ (.only .numeric)

theorem shiftedUnionRoot_castsWhole : shiftedUnionRoot.CastsWhole := by
  intro op xs s ts hm _ x hx
  right
  rcases hm with _ | ⟨hy, hm⟩
  · simp only [List.mem_cons, List.not_mem_nil, or_false] at hx
    rcases hx with rfl | rfl
    · have hshift : (Operation.binary (.shift .left)).Casts (some .numeric) := trivial
      exact .operation hshift _ _
    · exact .parameter ..
  · simp only [List.mem_cons, List.not_mem_nil, or_false] at hy
    rcases hy with rfl | rfl
    · rcases hm with _ | ⟨hy, hm⟩
      · simp only [List.mem_cons, List.not_mem_nil, or_false] at hx
        rcases hx with rfl | rfl
        · exact .parameter ..
        · exact .constant rfl _
      · simp only [List.mem_cons, List.not_mem_nil, or_false] at hy
        rcases hy with rfl | rfl <;> cases hm
    · cases hm

/-- Half of one cannot be shifted; it is refused, like a string, when it is bound. -/
theorem call_casts_at_binding_union :
    ∃ e, (({ options := {} } : Engine).compileWith "a << 1 | b" []).1 = .ok e ∧
      (e.call .exact ([.float (Binary64.nearest false 1 2), .string "b"].map .value)).Ends
        (fun v => v.type = e.type) fun err _ => ∀ fault, err ≠ .evaluation fault := by
  have hexpr : ({ options := {} } : Engine).parse "a << 1 | b" = .ok shiftedUnion := by cbv
  have ha : Analysis.ofExpr shiftedUnion (({ options := {} } : Engine).extract "a << 1 | b")
      "a << 1 | b" (.ofTable []) [] = .ok ⟨shiftedUnionRoot,
        [⟨"a", .numeric, .integer, false, 0⟩, ⟨"b", .numeric, .integer, false, 1⟩]⟩ := by
    cbv
  have hok : (({ options := {} } : Engine).compileWith "a << 1 | b" []).1.isOk = true := by cbv
  cases h : (({ options := {} } : Engine).compileWith "a << 1 | b" []).1 with
  | ok e =>
    exact ⟨e, rfl, call_casts_at_binding h hexpr ha shiftedUnionRoot_castsWhole .exact _⟩
  | error failure =>
    rw [h] at hok
    cases hok

end Engine
end TolerantExpr
