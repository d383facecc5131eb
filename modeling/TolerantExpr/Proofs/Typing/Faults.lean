import TolerantExpr.Proofs.Typing.Building
import TolerantExpr.Proofs.Typing.Determination

/-!
# Where faults come from

Narrowing meets three kinds of faults: a node cannot have any of the types that are asked of it, an
operation has no overload for its operands, or a parameter refuses. To these the build adds those
of folding, and those of names that are called like a function that does not exist or does not take
as many arguments. No other step looks at the name of a function. Every fault is at the span of
a node, or, if it concerns a parameter that no node refers to, at the default span.
-/

namespace TolerantExpr

namespace TypeFault

variable {P : Span → Prop}

@[simp] theorem span_conflict (n : Node) (allowed : TypeSet) : (n.conflict allowed).span = n.span := by
  cases n <;> rfl

@[simp] theorem span_mismatch (op : Operation) (xs : List Node) (s : Span) (ts : TypeSet) :
    (Node.mismatch op xs s ts).span = s := by
  unfold Node.mismatch
  dsimp only
  split <;> rfl

@[simp] theorem span_ofParameter (e : ParameterError) (s : Span) : (ofParameter e s).span = s := by
  cases e <;> rfl

/-- The faults of narrowing, at spans of which `P` holds. -/
inductive OfNarrowing (P : Span → Prop) : TypeFault → Prop where
  | conflict {n : Node} (h : P n.span) (allowed : TypeSet) : OfNarrowing P (n.conflict allowed)
  | mismatch (op : Operation) (xs : List Node) {s : Span} (h : P s) (ts : TypeSet) :
    OfNarrowing P (Node.mismatch op xs s ts)
  | refused (e : ParameterError) {s : Span} (h : P s) : OfNarrowing P (.ofParameter e s)

/-- The faults of building an expression that calls the given names. -/
inductive OfBuild (P : Span → Prop) (called : List String) : TypeFault → Prop where
  | narrowing {fault : TypeFault} (h : fault.OfNarrowing P) : OfBuild P called fault
  | fold {fault : TypeFault} (h : Analysis.IsFold fault) (hs : P fault.span) :
    OfBuild P called fault
  | unknownFunction {f : String} (h : f ∈ called) {s : Span} (hs : P s) :
    OfBuild P called ⟨.unknownFunction f, s⟩
  | arityMismatch {f : String} (h : f ∈ called) (expected : String) (found : Nat) {s : Span}
    (hs : P s) : OfBuild P called ⟨.arityMismatch f expected found, s⟩

theorem OfBuild.mono {xs ys : List String} {fault : TypeFault} (h : OfBuild P xs fault)
    (hxy : xs ⊆ ys) : OfBuild P ys fault := by
  cases h with
  | narrowing h => exact .narrowing h
  | fold h hs => exact .fold h hs
  | unknownFunction h hs => exact .unknownFunction (hxy h) hs
  | arityMismatch h expected found hs => exact .arityMismatch (hxy h) expected found hs

theorem OfNarrowing.span {fault : TypeFault} (h : fault.OfNarrowing P) : P fault.span := by
  cases h with
  | conflict h => simpa using h
  | mismatch _ _ h => simpa using h
  | refused _ h => simpa using h

theorem OfBuild.span {called : List String} {fault : TypeFault} (h : fault.OfBuild P called) :
    P fault.span := by
  cases h with
  | narrowing h => exact h.span
  | fold _ hs | unknownFunction _ hs | arityMismatch _ _ _ hs => exact hs

/-- The reasons that narrowing gives name an operator, a function, a parameter or a constant. None
of them is about the expression as a whole. -/
theorem OfNarrowing.cause_cases {fault : TypeFault} (h : fault.OfNarrowing P) :
    (∃ name, fault.cause = .frozenParameter name) ∨
      ∃ reason p, fault.cause = .invalid reason p ∧
        ¬"the expression".toList <+: reason.toList := by
  cases h with
  | @conflict n _ allowed =>
    right
    cases n with
    | constant v s => exact ⟨_, _, rfl, by simp⟩
    | parameter name producer s ts => exact ⟨_, _, rfl, by simp⟩
    | operation op xs s ts =>
      refine ⟨_, _, rfl, ?_⟩
      cases op <;> simp [Node.title, Operation.title]
  | mismatch op xs _ ts =>
    right
    unfold Node.mismatch
    dsimp only
    split <;> refine ⟨_, _, rfl, ?_⟩ <;> cases op <;> simp [Operation.title]
  | refused e _ =>
    cases e with
    | frozen name => exact .inl ⟨name, rfl⟩
    | _ =>
      refine .inr ⟨_, _, rfl, ?_⟩
      unfold ParameterError.message
      simp

end TypeFault

namespace Node

variable {P : Span → Prop}

/-! ### Narrowing -/

private theorem narrowing_faults :
    (∀ n r, r.Distinct → n.EverySpan P →
      ∀ fault ∈ (stabilize n r).fault, fault.OfNarrowing P) ∧
    (∀ os i xs r, r.Distinct → (∀ x ∈ xs, x.EverySpan P) →
      ∀ fault ∈ (narrowOperands os i xs r).fault, fault.OfNarrowing P) ∧
    (∀ allowed n r, r.Distinct → n.EverySpan P →
      ∀ fault ∈ (restrict allowed n r).fault, fault.OfNarrowing P) := by
  apply stabilize.mutual_induct
  case case1 =>
    intro r v s _ _ fault h
    rw [stabilize] at h
    cases h
  case case2 =>
    intro r name producer s ts e left he _ hP fault h
    rw [stabilize_parameter_error he] at h
    cases h
    exact .refused e hP.span
  case case3 =>
    intro r name producer s ts r' hr' _ _ fault h
    rw [stabilize_parameter_ok hr'] at h
    cases h
  case case4 =>
    intro r op xs s ts os hos _ hP fault h
    rw [stabilize_mismatch hos] at h
    cases h
    exact .mismatch op xs hP.span ts
  case case5 =>
    intro r op xs s ts os hos narrowed next hlt _ _ ih hr hP
    obtain ⟨hxs, hreg⟩ := narrowOperands_le os 0 xs hr
    rw [stabilize_again hos hlt]
    exact ih (Registry.distinct_of_le hreg hr)
      (hP.of_le (.operation hxs (results_viable_le op xs ts)))
  case case6 =>
    intro r op xs s ts os hos narrowed next hlt ihxs hr hP
    rw [stabilize_stop hos hlt]
    exact ihxs hr hP.of_operation
  case case7 =>
    intro os i r _ _ fault h
    rw [narrowOperands] at h
    cases h
  case case8 =>
    intro os i r x xs first fault hf ih hr hP
    rw [narrowOperands_fault hf]
    have hx := ih hr (hP x List.mem_cons_self)
    rw [hf] at hx
    exact hx
  case case9 =>
    intro os i r x xs first hf _ ihxs hr hP
    rw [narrowOperands_cons hf]
    exact ihxs (Registry.distinct_of_le (restrict_le _ x hr).2 hr)
      fun y hy => hP y (List.mem_cons_of_mem _ hy)
  case case10 =>
    intro allowed n r ts hts _ hP fault h
    rw [restrict_conflict hts] at h
    cases h
    exact .conflict hP.span allowed
  case case11 =>
    intro allowed n r ts hne hts _ _ fault h
    rw [restrict_unchanged hne hts] at h
    cases h
  case case12 =>
    intro allowed n r ts hne hts ih hr hP
    rw [restrict_narrower hne hts]
    exact ih hr (hP.of_le (withTypes_le (TypeSet.inter_le_left _ _)))

theorem stabilize_faults {n : Node} {r : Registry} (hr : r.Distinct) (hP : n.EverySpan P) :
    ∀ fault ∈ (stabilize n r).fault, fault.OfNarrowing P :=
  narrowing_faults.1 n r hr hP

mutual

theorem sweep_faults (n : Node) {r : Registry} (hr : r.Distinct) (hP : n.EverySpan P) :
    ∀ fault ∈ (sweep n r).fault, fault.OfNarrowing P := by
  match n with
  | .constant v s => exact stabilize_faults hr hP
  | .parameter name producer s ts => exact stabilize_faults hr hP
  | .operation op xs s ts =>
    cases hf : (sweepAll xs r).fault with
    | some fault =>
      rw [sweep_operation_fault hf, ← hf]
      exact sweepAll_faults xs hr hP.of_operation
    | none =>
      obtain ⟨hxs, hreg⟩ := sweepAll_le xs hr
      rw [sweep_operation hf]
      exact stabilize_faults (Registry.distinct_of_le hreg hr)
        (hP.of_le (.operation hxs le_rfl))

theorem sweepAll_faults (xs : List Node) {r : Registry} (hr : r.Distinct)
    (hP : ∀ x ∈ xs, x.EverySpan P) : ∀ fault ∈ (sweepAll xs r).fault, fault.OfNarrowing P := by
  match xs with
  | [] => simp [sweepAll]
  | x :: xs =>
    cases hf : (sweep x r).fault with
    | some fault =>
      rw [sweepAll_fault hf, ← hf]
      exact sweep_faults x hr (hP x List.mem_cons_self)
    | none =>
      rw [sweepAll_cons hf]
      exact sweepAll_faults xs (Registry.distinct_of_le (sweep_le x hr).2 hr)
        fun y hy => hP y (List.mem_cons_of_mem _ hy)

end

theorem propagate_faults (n : Node) {r : Registry} (hr : r.Distinct) (hP : n.EverySpan P) :
    ∀ fault ∈ (propagate n r).fault, fault.OfNarrowing P := by
  induction n, r using propagate.induct with
  | case1 n r next hlt ih =>
    obtain ⟨hsub, hreg⟩ := sweep_le n hr
    rw [propagate]
    rw [if_pos hlt]
    exact ih (Registry.distinct_of_le hreg hr) (hP.of_le hsub)
  | case2 n r next hlt =>
    rw [propagate]
    rw [if_neg hlt]
    exact sweep_faults n hr hP

theorem Pins.faults {name : String} {t : ValueType} {r : Registry} {n : Node}
    {next : Narrowed Node} (h : Pins name t r n next) (hr : r.Distinct) (hP : n.EverySpan P) :
    ∀ fault ∈ next.fault, fault.OfNarrowing P := by
  induction h with
  | here producer s ts => exact narrowing_faults.2.2 _ _ _ hr hP
  | under _ ih => exact ih (hP.of_operation _ (by simp))

end Node

namespace Analysis

variable {P : Span → Prop}

/-! ### Determination -/

theorem assume_faults {p : OpenParameter} {t : ValueType} {root : Node} {r : Registry}
    (hr : r.Distinct) (hP : root.EverySpan P) (hdefault : P default) :
    ∀ fault ∈ (assume p t root r).fault, fault.OfNarrowing P := by
  unfold assume
  cases hpin : root.pinFirst? p.name t r with
  | some next => exact (Node.pins_of_pinFirst? hpin).faults hr hP
  | none =>
    intro fault h
    dsimp only at h
    cases hr : r.pin p.name t with
    | ok s =>
      rw [hr] at h
      cases h
    | error e left =>
      rw [hr] at h
      cases h
      exact .refused e hdefault

/-- Determining types meets faults of narrowing only. -/
theorem determine_fault {root : Node} {r : Registry} {d : Dispute} (hr : r.Distinct)
    (hP : root.EverySpan P) (hdefault : P default) (h : determine root r = .error d) :
    d.fault.OfNarrowing P := by
  induction root, r using determine.induct with
  | case1 root r spread fault hf =>
    rw [determine_of_fault hf] at h
    cases h
    exact Node.propagate_faults root hr hP fault hf
  | case2 root r spread hf hu =>
    rw [determine_of_decided hf hu] at h
    cases h
  | case3 root r spread hf p hu logical t next fault hnext =>
    obtain ⟨hsub, hreg⟩ := Node.propagate_le root hr
    rw [determine_of_refused hf hu hnext] at h
    cases h
    exact assume_faults (Registry.distinct_of_le hreg hr) (hP.of_le hsub) hdefault fault hnext
  | case4 root r spread hf p hu logical t next hnext hlt ih =>
    obtain ⟨hsub, hreg⟩ := Node.propagate_le root hr
    have hr' := Registry.distinct_of_le hreg hr
    have hnext' : next.subject ≤ spread.subject ∧ next.registry ≤ spread.registry := assume_le hr'
    obtain ⟨hsub', hreg'⟩ := hnext'
    rw [determine_of_presumed hf hu hnext hlt] at h
    exact ih (Registry.distinct_of_le hreg' hr') (hP.of_le (hsub'.trans hsub)) h
  | case5 root r spread hf p hu logical t next hnext hlt =>
    rw [determine_of_stuck hf hu hnext hlt] at h
    cases h

end Analysis

/-! ### Building -/

namespace Expr

mutual

/-- The names that are called in an expression. -/
def called : Expr → List String
  | literal _ _ => []
  | name _ _ => []
  | negate e _ => called e
  | binary _ l r _ => called l ++ called r
  | call f es _ => f :: calledAll es

def calledAll : List Expr → List String
  | [] => []
  | e :: es => called e ++ calledAll es

end

/-- `P` holds of the span of every part of an expression. -/
inductive EverySpan (P : Span → Prop) : Expr → Prop where
  | literal (l : Literal) {s : Span} (h : P s) : EverySpan P (literal l s)
  | name (n : String) {s : Span} (h : P s) : EverySpan P (name n s)
  | negate {e : Expr} {s : Span} (h : P s) (he : EverySpan P e) : EverySpan P (negate e s)
  | binary (op : BinaryOperator) {l r : Expr} {s : Span} (h : P s) (hl : EverySpan P l)
    (hr : EverySpan P r) : EverySpan P (binary op l r s)
  | call (f : String) {es : List Expr} {s : Span} (h : P s) (hes : ∀ e ∈ es, EverySpan P e) :
    EverySpan P (call f es s)

theorem everySpan_true (e : Expr) : e.EverySpan fun _ => True := by
  induction e with
  | literal l => exact .literal l trivial
  | name n => exact .name n trivial
  | negate e s ih => exact .negate trivial ih
  | binary op l r s ihl ihr => exact .binary op trivial ihl ihr
  | call f es s ih => exact .call f trivial ih

end Expr

namespace Analysis

variable {x : Extraction} {formatters : Formatters} {P : Span → Prop} {called : List String}
  {α β : Type} {Q : α → Prop} {R : β → Prop}

/-- A state of the build in which `P` holds of the places where parameters were introduced. -/
structure State.Sound (P : Span → Prop) (σ : State) : Prop where
  distinct : σ.registry.Distinct
  introduced : ∀ use ∈ σ.introduced, P use.2

theorem State.Sound.of_lookup {σ : State} {name : String} {s : Span} (h : σ.Sound P)
    (hs : σ.introduced.lookup name = some s) : P s := by
  obtain ⟨before, after, heq, -⟩ := List.lookup_eq_some_iff.mp hs
  exact h.introduced (name, s) (by simp [heq])

/-- A part of the build that leads to something of which `Q` holds, or to a fault at a span of which
`P` holds. -/
def Reports (P : Span → Prop) (called : List String) (m : Build α) (Q : α → Prop) : Prop :=
  ∀ σ : State, σ.Sound P →
    Meets m σ (fun a υ => Q a ∧ υ.Sound P) fun fault υ => fault.OfBuild P called ∧ υ.Sound P

theorem reports_pure {a : α} (h : Q a) : Reports P called (pure a) Q :=
  fun _ hσ => meets_pure ⟨h, hσ⟩

theorem reports_throw {fault : TypeFault} (h : fault.OfBuild P called) :
    Reports P called (throw fault) Q :=
  fun _ hσ => meets_throw ⟨h, hσ⟩

theorem Reports.bind {m : Build α} {k : α → Build β} (hm : Reports P called m Q)
    (hk : ∀ a, Q a → Reports P called (k a) R) : Reports P called (m >>= k) R :=
  fun σ hσ => (hm σ hσ).bind fun a υ h => hk a h.1 υ h.2

/-- A part of a build, with the names that the whole expression calls. -/
theorem Reports.mono {m : Build α} {xs : List String} (hm : Reports P xs m Q)
    (h : xs ⊆ called) : Reports P called m Q :=
  fun σ hσ => (hm σ hσ).imp (fun _ _ h => h) fun _ _ hf => ⟨hf.1.mono h, hf.2⟩

theorem reference_reports (name : String) (producer : Bool) {s : Span} (hs : P s) :
    Reports P called (reference name producer s) (Node.EverySpan P) := by
  intro σ hσ
  have hmention := Registry.distinct_mention hσ.distinct name
  unfold Meets
  rw [reference_run]
  cases hr : (σ.registry.mention name).recordUse name producer with
  | ok r =>
    have hdistinct := (Registry.recordUse_refines hr).2.1 hmention
    dsimp only
    split
    · exact ⟨.parameter hs, hdistinct, hσ.introduced⟩
    · refine ⟨.parameter hs, hdistinct, ?_⟩
      exact List.forall_mem_append.mpr ⟨hσ.introduced, List.forall_mem_singleton.mpr hs⟩
  | error e left =>
    obtain rfl := Registry.eq_of_recordUse_error hmention hr
    exact ⟨.narrowing (.refused e hs), hmention, hσ.introduced⟩

theorem complete_reports {op : Operation} {xs : List Node} {s : Span} (hs : P s)
    (hxs : ∀ x ∈ xs, x.EverySpan P) :
    Reports P called (complete formatters (.ofOperation op xs s)) (Node.EverySpan P) := by
  intro σ hσ
  have hP : (Node.ofOperation op xs s).EverySpan P := .operation hs hxs
  obtain ⟨hsub, hreg⟩ := Node.stabilize_le (.ofOperation op xs s) hσ.distinct
  have hυ : State.Sound P
      { σ with registry := (Node.stabilize (.ofOperation op xs s) σ.registry).registry } :=
    ⟨Registry.distinct_of_le hreg hσ.distinct, hσ.introduced⟩
  unfold Meets
  rw [complete_run]
  cases hf : (Node.stabilize (.ofOperation op xs s) σ.registry).fault with
  | some fault => exact ⟨.narrowing (Node.stabilize_faults hσ.distinct hP fault hf), hυ⟩
  | none =>
    dsimp only
    obtain ⟨ys, us, hsubject, -, -⟩ := Node.le_operation_iff.mp hsub
    have hP' := hP.of_le hsub
    rw [hsubject] at hP' ⊢
    cases hn : (Node.operation op ys s us).foldRoot formatters with
    | ok n =>
      rcases Node.foldRoot_cases hn with ⟨-, rfl⟩ | ⟨-, v, -, rfl⟩
      · exact ⟨hP', hυ⟩
      · exact ⟨.constant hs, hυ⟩
    | error fault =>
      obtain ⟨-, e, -, rfl⟩ := Node.foldRoot_eq_error hn
      exact ⟨.fold ⟨_, rfl⟩ hs, hυ⟩

theorem buildAll_reports (es : List Expr)
    (ih : ∀ e ∈ es, Reports P e.called (build x formatters e) (Node.EverySpan P)) :
    Reports P (Expr.calledAll es) (buildAll x formatters es) fun xs => ∀ n ∈ xs, n.EverySpan P := by
  induction es with
  | nil => exact reports_pure (by simp)
  | cons e es ihes =>
    rw [buildAll, Expr.calledAll]
    have he := ih e List.mem_cons_self
    refine (he.mono (List.subset_append_left _ _)).bind fun n hn => ?_
    have hes := ihes fun f hf => ih f (List.mem_cons_of_mem _ hf)
    refine (hes.mono (List.subset_append_right _ _)).bind fun xs hxs => ?_
    exact reports_pure (List.forall_mem_cons.mpr ⟨hn, hxs⟩)

/-- Building an expression meets no faults but these. -/
theorem build_reports (e : Expr) (he : e.EverySpan fun s => P (x.sourceSpan s)) :
    Reports P e.called (build x formatters e) (Node.EverySpan P) := by
  induction e with
  | literal l s =>
    cases he with
    | literal _ h => exact reports_pure (.constant h)
  | name n s =>
    cases he with
    | name _ h =>
      rw [build]
      cases x.excerptAt? s with
      | some y => exact reports_pure (.constant h)
      | none => exact reference_reports n false h
  | negate e s ih =>
    cases he with
    | negate h he =>
      rw [build, Expr.called]
      refine (ih he).bind fun n hn => ?_
      exact complete_reports h (List.forall_mem_singleton.mpr hn)
  | binary op l r s ihl ihr =>
    cases he with
    | binary _ h hl hr =>
      rw [build, Expr.called]
      refine ((ihl hl).mono (List.subset_append_left _ _)).bind fun n hn => ?_
      refine ((ihr hr).mono (List.subset_append_right _ _)).bind fun m hm => ?_
      exact complete_reports h (List.forall_mem_cons.mpr ⟨hn, List.forall_mem_singleton.mpr hm⟩)
  | call f es s ih =>
    cases he with
    | call _ h hes =>
      rw [build, Expr.called]
      cases Builtin.ofName? f with
      | some b =>
        dsimp only
        split
        · have hall := buildAll_reports es fun e he => ih e he (hes e he)
          refine (hall.mono (List.subset_cons_self _ _)).bind fun xs hxs => ?_
          exact complete_reports h hxs
        · exact reports_throw (.arityMismatch List.mem_cons_self _ _ h)
      | none =>
        dsimp only
        split
        · exact reference_reports f true h
        · exact reports_throw (.unknownFunction List.mem_cons_self h)

end Analysis
end TolerantExpr
