import TolerantExpr.Engine.Basic
import TolerantExpr.Proofs.Evaluation.Programs
import TolerantExpr.Proofs.Typing.Analyses
import Mathlib

/-!
# Compiled expressions yield what they promise

A call of a compiled expression yields a value of the type of the expression, or it fails for
a reason that lies with its arguments: they do not fit the parameters, a double is no integer where
one is needed, or the producer that was asked last failed or answered with a value of another type.
Operators and functions never meet operands that they are not defined for, and no slot is ever
empty. This holds of both programs.
-/

namespace TolerantExpr

/-- How the argument of a slot is found. -/
abbrev Finder := Nat → FixedParameter → Option Argument

/-- The errors that evaluation may meet, with the history that they leave behind: casts, and what
a producer answers when it is asked last. -/
inductive EvalError.Excused (table : ParameterTable) (find : Finder) :
    EvalError → History → Prop where
  | cast (cause : CastError) (history : History) : Excused table find (.invalidCast cause) history
  | mismatch {slot : Nat} {f : FixedParameter} {p : Producer} {history : History} {v : Value}
    (hf : table[slot]? = some f) (hp : find slot f = some (.producer p))
    (hv : p history = .ok v) (ht : v.type ≠ f.type) :
    Excused table find (.typeMismatch f.name f.type v.type) (history ++ [slot])
  | reported {slot : Nat} {f : FixedParameter} {p : Producer} {history : History} {e : EvalError}
    (hf : table[slot]? = some f) (hp : find slot f = some (.producer p))
    (he : p history = .error e) : Excused table find e (history ++ [slot])

/-- The errors that a call may meet: arguments that do not fit, and excused errors of evaluation. -/
def CallError.Excused (table : ParameterTable) (find : Finder) (history : History) :
    CallError → Prop
  | .evaluation e => e.Excused table find history
  | _ => True

/-! ### Slots -/

/-- A slot that fits a parameter: a value of its type, or the producer that was given for it. -/
inductive Slot.Fits (find : Finder) (slot : Nat) (f : FixedParameter) : Slot → Prop where
  | known {v : Value} (h : v.type = f.type) : Fits find slot f (.known v)
  | asked {p : Producer} (h : find slot f = some (.producer p)) : Fits find slot f (.asked p f)

/-- Every parameter of a table has a slot that fits it. -/
def SlotsFit (table : ParameterTable) (find : Finder) (slots : List Slot) : Prop :=
  ∀ (i : Nat) (f : FixedParameter), table[i]? = some f → ∃ s, slots[i]? = some s ∧ s.Fits find i f

section Slots

variable {table : ParameterTable} {find : Finder} {f : FixedParameter} {i : Nat}

theorem FixedParameter.type_of_accept {v w : Value} (h : f.accept v = .ok w) : w.type = f.type := by
  unfold accept at h
  split at h
  · cases h
  · rename_i ht
    rw [not_not] at ht
    split at h
    · split at h
      · cases h
        exact ht
      · cases h
    · cases h
      exact ht

theorem FixedParameter.misfit_of_accept {v : Value} {t : ValueType}
    (h : f.accept v = .error (.type t)) : t = v.type ∧ v.type ≠ f.type := by
  unfold accept at h
  split at h
  · rename_i ht
    cases h
    exact ⟨rfl, ht⟩
  · split at h
    · split at h <;> cases h
    · cases h

theorem Producer.ask_run (p : Producer) (slot : Nat) (history : History) :
    (p.ask slot).run history = (p history, history ++ [slot]) := by
  unfold ask
  rw [run_bind]
  change ((do set (history ++ [slot]); _ : Run EvalError Value)).run history = _
  rw [run_bind]
  change ExceptT.run (_ : Run EvalError Value) (history ++ [slot]) = _
  cases p history <;> rfl

theorem Slot.Fits.read_ends {s : Slot} (h : s.Fits find i f) (hf : table[i]? = some f) :
    (s.read i).Ends (fun v => v.type = f.type) (EvalError.Excused table find) := by
  cases h with
  | known h => exact Run.ends_pure h
  | @asked p hp =>
    intro history
    unfold Meets Slot.read
    rw [run_bind, Producer.ask_run]
    cases hv : p history with
    | error e => exact .reported hf hp hv
    | ok v =>
      dsimp only
      cases hw : f.accept v with
      | ok w => exact FixedParameter.type_of_accept hw
      | error misfit =>
        cases misfit with
        | type found =>
          obtain ⟨rfl, ht⟩ := FixedParameter.misfit_of_accept hw
          exact .mismatch hf hp hv ht
        | cast cause => exact .cast cause _

/-! ### Binding -/

theorem FixedParameter.bindValue_ends (v : Value) :
    (FixedParameter.bind.liftExcept (f.bindValue v)).Ends (Slot.Fits find i f)
      fun e history => e.Excused table find history := by
  refine Run.ends_ofExcept (fun s hs => ?_) fun e history he => ?_
  · unfold bindValue at hs
    cases hw : f.accept v with
    | ok w =>
      rw [hw] at hs
      cases hs
      exact .known (type_of_accept hw)
    | error misfit =>
      rw [hw] at hs
      cases misfit <;> cases hs
  · unfold bindValue at he
    cases hw : f.accept v with
    | ok w =>
      rw [hw] at he
      cases he
    | error misfit =>
      rw [hw] at he
      cases misfit <;> cases he <;> trivial

theorem FixedParameter.bind_ends {a : Argument} (hf : table[i]? = some f) (ha : find i f = some a) :
    (f.bind i a).Ends (Slot.Fits find i f) fun e history => e.Excused table find history := by
  cases a with
  | value v => exact bindValue_ends v
  | producer p =>
    rw [bind]
    by_cases hproducer : f.producer = true
    · rw [if_pos hproducer]
      exact Run.ends_pure (Slot.Fits.asked ha)
    · rw [if_neg hproducer]
      have hask : (p.ask i).Ends (fun _ => True) (EvalError.Excused table find) := by
        intro history
        unfold Meets
        rw [Producer.ask_run]
        cases hv : p history with
        | ok v => trivial
        | error e => exact .reported hf ha hv
      have hadapt := hask.adapt (f := CallError.evaluation)
        (F := fun e history => e.Excused table find history) fun e history he => he
      exact hadapt.bind fun v _ => bindValue_ends v

/-- What binding does for each parameter of a table, it does for the whole table. -/
theorem bindAll_ends_of {Q : Nat → FixedParameter → Slot → Prop} {E : CallError → History → Prop}
    (hmissing : ∀ (f : FixedParameter) (history : History), E (.missing f.name) history)
    (hbind : ∀ {i : Nat} {f : FixedParameter} {a : Argument}, table[i]? = some f →
      find i f = some a → (f.bind i a).Ends (Q i f) E) (ps : List FixedParameter)
    (hps : ∀ (j : Nat) (f : FixedParameter), ps[j]? = some f → table[i + j]? = some f) :
    (bindAll find i ps).Ends
      (fun slots => ∀ (j : Nat) (f : FixedParameter), ps[j]? = some f →
        ∃ s, slots[j]? = some s ∧ Q (i + j) f s) E := by
  induction ps generalizing i with
  | nil => exact Run.ends_pure (by simp)
  | cons p ps ih =>
    unfold bindAll
    cases ha : find i p with
    | none => exact fun history => meets_throw (hmissing p history)
    | some a =>
      refine (hbind (hps 0 p rfl) ha).bind fun s hs => ?_
      have hrest : ∀ (j : Nat) (f : FixedParameter), ps[j]? = some f →
          table[i + 1 + j]? = some f := by
        intro j f hj
        rw [show i + 1 + j = i + (j + 1) by omega]
        exact hps (j + 1) f hj
      refine (ih hrest).bind fun slots hslots => Run.ends_pure fun j f hj => ?_
      cases j with
      | zero =>
        obtain rfl := Option.some.inj hj
        exact ⟨s, rfl, hs⟩
      | succ j =>
        rw [show i + (j + 1) = i + 1 + j by omega]
        exact hslots j f hj

theorem bindAll_ends {Q : Nat → FixedParameter → Slot → Prop} {E : CallError → History → Prop}
    (hmissing : ∀ (f : FixedParameter) (history : History), E (.missing f.name) history)
    (hbind : ∀ {i : Nat} {f : FixedParameter} {a : Argument}, table[i]? = some f →
      find i f = some a → (f.bind i a).Ends (Q i f) E) :
    (bindAll find 0 table).Ends
      (fun slots => ∀ (i : Nat) (f : FixedParameter), table[i]? = some f →
        ∃ s, slots[i]? = some s ∧ Q i f s) E := by
  have hget : ∀ (j : Nat) (f : FixedParameter), table[j]? = some f → table[0 + j]? = some f := by
    intro j f hj
    rw [Nat.zero_add]
    exact hj
  have h : (bindAll find 0 table).Ends _ _ := bindAll_ends_of hmissing hbind table hget
  simp only [Nat.zero_add] at h
  exact h

end Slots

/-! ### Programs -/

namespace Code

variable {mode : Mode} {table : ParameterTable} {find : Finder} {scope : Scope}

/-- Code that ends with a value of a type or with an excused error. -/
def EndsWith (table : ParameterTable) (find : Finder) (scope : Scope) (c : Code) (t : ValueType) :
    Prop :=
  (c.run scope).Ends (fun v => v.type = t) (EvalError.Excused table find)

theorem runAll_ends {cs : List Code} {ts : List ValueType}
    (h : List.Forall₂ (EndsWith table find scope) cs ts) :
    (runAll scope cs).Ends (fun vs => vs.map Value.type = ts) (EvalError.Excused table find) := by
  induction h with
  | nil => exact Run.ends_pure rfl
  | @cons c t cs ts hc _ ih =>
    unfold runAll
    refine hc.bind fun v hv => ih.bind fun vs hvs => Run.ends_pure ?_
    rw [List.map_cons, hv, hvs]

/-- Applying an operation to operands of one of its overloads. -/
theorem operation_ends {op : Operation} {o : Overload} (ho : o ∈ op.overloads) {cs : List Code}
    (h : List.Forall₂ (EndsWith table find scope) cs o.arguments) :
    EndsWith table find scope (operation op cs) o.result := by
  unfold EndsWith run
  refine (runAll_ends h).bind fun vs hvs => ?_
  rcases op.apply_yields scope.formatters ho hvs with ⟨v, hv, ht⟩ | ⟨cause, hcause⟩
  · rw [hv]
    exact Run.ends_pure ht
  · rw [hcause]
    exact Run.ends_ofExcept (by simp) fun e history he => Except.error.inj he ▸ .cast cause history

/-- A Boolean `&` or `|` has Boolean operands. -/
theorem shortCircuit_ends {op : Logical} {o : Overload} (ho : o ∈ Overload.ofLogical)
    (hr : o.result = .boolean) {l r : Code}
    (h : List.Forall₂ (EndsWith table find scope) [l, r] o.arguments) :
    EndsWith table find scope (shortCircuit op l r) .boolean := by
  rw [Overload.arguments_eq_booleans ho hr] at h
  obtain _ | ⟨hl, _ | ⟨hr, -⟩⟩ := h
  unfold EndsWith run
  refine hl.bind fun v hv => ?_
  obtain ⟨b, rfl⟩ := Value.exists_boolean hv
  dsimp only
  split
  · exact Run.ends_pure rfl
  · exact hr

theorem tolerant_ends {op : Comparison} {o : Overload} (ho : o ∈ op.overloads) {l r : Code}
    (h : List.Forall₂ (EndsWith table find scope) [l, r] o.arguments) :
    EndsWith table find scope (tolerant op l r) .boolean := by
  obtain ⟨-, t, harg, -⟩ := Comparison.of_mem_overloads ho
  have hargs := harg
  rw [harg] at h
  obtain _ | ⟨hl, _ | ⟨hr, -⟩⟩ := h
  unfold EndsWith run
  refine hl.bind fun v hv => hr.bind fun w hw => ?_
  obtain ⟨b, hb⟩ := Evaluation.compareTolerant_ok scope.tolerance ho
    (v := v) (w := w) (by rw [hargs, hv, hw])
  rw [hb]
  exact Run.ends_pure rfl

/-- The code of operands, each of which ends with a value of its type. -/
theorem ofNodes_ends {xs : List Node} {cs : List Code} {ts : List ValueType}
    (hcs : ofNodes mode table xs = .ok cs) (types : xs.map Node.types = ts.map TypeSet.only)
    (h : ∀ x ∈ xs, ∀ c t, ofNode mode table x = .ok c → x.types = .only t →
      EndsWith table find scope c t) : List.Forall₂ (EndsWith table find scope) cs ts := by
  have htypes : List.Forall₂ (fun x t => x ∈ xs ∧ x.types = .only t) xs ts :=
    forall₂_imp_of_mem (map_eq_map_iff.mp types) fun x hx t _ ht => ⟨hx, ht⟩
  exact forall₂_comp_of_mem (ofNodes_eq_ok_iff.mp hcs).flip htypes fun c _ x t hc hx =>
    h x hx.1 c t hc hx.2

/-- The code of a resolved tree ends with a value of the type of the tree. -/
theorem ofNode_ends {n : Node} (hn : n.Resolved)
    (href : n.EveryReference fun name ts => ∃ f ∈ table, f.name = name ∧ ts = .only f.type)
    (hnames : table.names.Nodup) (hslots : SlotsFit table find scope.slots) {c : Code}
    (hc : ofNode mode table n = .ok c) {t : ValueType} (ht : n.types = .only t) :
    EndsWith table find scope c t := by
  induction hn generalizing c t with
  | constant v s =>
    obtain rfl := Except.ok.inj hc
    exact Run.ends_pure (TypeSet.only_injective ht)
  | parameter name producer s u =>
    obtain ⟨f, hf, rfl, hu⟩ := href.of_parameter
    obtain rfl := TypeSet.only_injective hu
    obtain rfl := TypeSet.only_injective ht
    obtain ⟨i, hi, rfl⟩ := ofNode_parameter_eq_ok_iff.mp hc
    have hget := ParameterTable.getElem?_of_slot? hnames hf hi
    obtain ⟨slot, hslot, hfits⟩ := hslots i f hget
    unfold EndsWith run Scope.argument
    rw [hslot]
    exact hfits.read_ends hget
  | @operation op xs o s ho types operands ih =>
    obtain ⟨u, cs, hu, hcs, rfl⟩ := ofNode_operation_eq_ok_iff.mp hc
    obtain rfl := TypeSet.only_injective hu
    obtain rfl := TypeSet.only_injective ht
    have hends : List.Forall₂ (EndsWith table find scope) cs o.arguments :=
      ofNodes_ends hcs types fun x hx c t hc ht => ih x hx (href.of_operation x hx) hc ht
    rcases ofOperation_cases mode op (some o.result) (xs.head?.bind Node.type?) cs with
      h | ⟨l, cl, cr, rfl, rfl, hres, h⟩ | ⟨l, cl, cr, rfl, rfl, -, -, h⟩ <;> rw [h]
    · exact operation_ends ho hends
    · rw [Option.some.inj hres]
      exact shortCircuit_ends ho (Option.some.inj hres) hends
    · rw [(Comparison.of_mem_overloads ho).1]
      exact tolerant_ends ho hends

end Code

/-! ### Calls -/

/-- A call of a well-typed analysis' programs, with slots that fit. -/
theorem Compiled.runCode_ends {a : Analysis} (ha : a.WellTyped) {e : Compiled}
    (hexact : Code.ofNode .exact a.parameters a.root = .ok e.exact)
    (htolerant : Code.ofNode .tolerant a.parameters a.root = .ok e.tolerant)
    (htype : a.root.type? = some e.type) {find : Finder} {slots : List Slot} (t : Tolerance)
    (hslots : SlotsFit a.parameters find slots) :
    (e.runCode t slots).Ends (fun v => v.type = e.type)
      fun err history => err.Excused a.parameters find history := by
  have ht := TypeSet.single?_eq_some_iff.mp htype
  have hcode : Code.EndsWith a.parameters find ⟨slots, t, e.formatters⟩
      (if t.isExact then e.exact else e.tolerant) e.type := by
    by_cases hexactly : t.isExact = true
    · rw [if_pos hexactly]
      exact Code.ofNode_ends ha.resolved ha.references ha.distinct hslots hexact ht
    · rw [if_neg hexactly]
      exact Code.ofNode_ends ha.resolved ha.references ha.distinct hslots htolerant ht
  exact hcode.adapt fun err history herr => herr

/-- Slots that were bound for a whole table fit it. -/
theorem slotsFit_of_bindAll {table : ParameterTable} {find : Finder} :
    (bindAll find 0 table).Ends (SlotsFit table find)
      fun err history => err.Excused table find history :=
  bindAll_ends (fun _ _ => trivial) FixedParameter.bind_ends

namespace Engine

variable {engine : Engine} {source : String} {table : ParameterTable} {e : Compiled}

/-- The stages that a compiled expression went through. -/
theorem exists_stages_of_compileText {r : Registry} (h : engine.compileText source r = .ok e) :
    ∃ (expr : Expr) (a : Analysis),
      Expr.parse (Extraction.ofText engine.options.delimiters source).skeleton
        engine.options.maxDepth = .ok expr ∧
      Analysis.ofExpr expr (Extraction.ofText engine.options.delimiters source) source r
        engine.formatters = .ok a ∧
      e.parameters = a.parameters ∧
      Code.ofNode .exact a.parameters a.root = .ok e.exact ∧
      Code.ofNode .tolerant a.parameters a.root = .ok e.tolerant ∧
      a.root.type? = some e.type := by
  unfold compileText at h
  obtain ⟨expr, hexpr, h⟩ := except_bind_eq_ok_iff.mp h
  obtain ⟨a, ha, h⟩ := except_bind_eq_ok_iff.mp h
  rw [except_mapError_eq_ok_iff] at hexpr ha
  obtain ⟨exact, hexact, h⟩ := except_bind_eq_ok_iff.mp h
  obtain ⟨tolerant, htolerant, h⟩ := except_bind_eq_ok_iff.mp h
  rw [except_mapError_eq_ok_iff] at hexact htolerant
  refine ⟨expr, a, hexpr, ha, ?_⟩
  cases htype : a.root.type? with
  | none =>
    rw [htype] at h
    cases h
  | some type =>
    rw [htype] at h
    cases h
    exact ⟨rfl, hexact, htolerant, rfl⟩

/-- What a compiled expression is made of. -/
theorem exists_analysis_of_compileText {r : Registry} (hr : r.Distinct)
    (h : engine.compileText source r = .ok e) :
    ∃ a : Analysis, a.WellTyped ∧ e.parameters = a.parameters ∧
      Code.ofNode .exact a.parameters a.root = .ok e.exact ∧
      Code.ofNode .tolerant a.parameters a.root = .ok e.tolerant ∧
      a.root.type? = some e.type := by
  obtain ⟨expr, a, -, ha, hcode⟩ := exists_stages_of_compileText h
  exact ⟨a, Analysis.ofExpr_wellTyped hr ha, hcode⟩

theorem count_fst (engine : Engine) (result : Except Failure Compiled) :
    (engine.count result).1 = result := by
  cases result <;> rfl

/-- Running the program that fits the tolerance, with slots bound by any finder. -/
theorem run_sound {r : Registry} (hr : r.Distinct) (h : engine.compileText source r = .ok e)
    (find : Finder) (t : Tolerance) :
    (bindAll find 0 e.parameters >>= e.runCode t).Ends (fun v => v.type = e.type)
      fun err history => err.Excused e.parameters find history := by
  obtain ⟨a, ha, hparameters, hexact, htolerant, htype⟩ := exists_analysis_of_compileText hr h
  rw [hparameters]
  exact slotsFit_of_bindAll.bind fun slots hslots =>
    e.runCode_ends ha hexact htolerant htype t hslots

/-- An expression compiled with the parameters of any table, called with any tolerance and
arguments, yields a value of its type or fails with an excused error. -/
theorem call_sound (h : (engine.compileWith source table).1 = .ok e) (t : Tolerance)
    (arguments : List Argument) :
    (e.call t arguments).Ends (fun v => v.type = e.type)
      fun err history => err.Excused e.parameters (fun slot _ => arguments[slot]?) history := by
  unfold compileWith at h
  rw [count_fst] at h
  unfold Compiled.call ParameterTable.bindInOrder
  by_cases hlength : arguments.length = e.parameters.length
  · rw [if_pos hlength]
    exact run_sound (Registry.distinct_ofTable table) h _ t
  · rw [if_neg hlength]
    exact fun _ => meets_throw trivial

/-- A comparison with a producer compiles, and its calls end as they should. -/
theorem call_sound_comparison :
    ∃ e, (({ options := {} } : Engine).compileWith "x < f() + 1" []).1 = .ok e ∧
      (e.call .exact [.value (.int 1), .producer fun _ => .ok (.int 2)]).Ends
        (fun v => v.type = e.type) fun err history => err.Excused e.parameters
          (fun slot _ => [Argument.value (.int 1), .producer fun _ => .ok (.int 2)][slot]?)
          history := by
  have hok : (({ options := {} } : Engine).compileWith "x < f() + 1" []).1.isOk = true := by cbv
  cases h : (({ options := {} } : Engine).compileWith "x < f() + 1" []).1 with
  | ok e => exact ⟨e, rfl, call_sound h .exact _⟩
  | error failure =>
    rw [h] at hok
    cases hok

/-- The same of a call that looks its arguments up by name. -/
theorem callByName_sound (h : (engine.compileWith source table).1 = .ok e) (t : Tolerance)
    (find : String → Option Argument) :
    (e.callByName t find).Ends (fun v => v.type = e.type)
      fun err history => err.Excused e.parameters (fun _ f => find f.name) history := by
  unfold compileWith at h
  rw [count_fst] at h
  exact run_sound (Registry.distinct_ofTable table) h _ t

end Engine
end TolerantExpr
