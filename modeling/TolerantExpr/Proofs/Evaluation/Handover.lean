import TolerantExpr.Engine.Basic
import TolerantExpr.Proofs.Evaluation.Soundness
import TolerantExpr.Proofs.Typing.Completeness
import TolerantExpr.Proofs.Typing.Faults
import TolerantExpr.Proofs.Typing.Tables

/-!
# What code generation is given

An analysis hands over complete work: its tree is resolved, its table has the names in the tree and
no other ones, and both programs can be generated from it. The branches that would report something
else are never taken: no expression is left with several types, and a text fails to compile only
because it cannot be read or because its types do not fit.
-/

namespace TolerantExpr

/-- The fault of an expression that is left with several types. -/
def TypeFault.IsAmbiguity (fault : TypeFault) : Prop :=
  ∃ (ts : TypeSet) (p : Option String),
    fault.cause = .invalid ("the expression could be any of " ++ ts.text) p

theorem TypeFault.OfBuild.not_ambiguity {P : Span → Prop} {called : List String}
    {fault : TypeFault} (h : fault.OfBuild P called) : ¬fault.IsAmbiguity := by
  rintro ⟨ts, p, hcause⟩
  cases h with
  | narrowing h =>
    rcases h.cause_cases with ⟨name, h⟩ | ⟨reason, q, h, hreason⟩
    · rw [hcause] at h
      cases h
    · rw [hcause] at h
      cases h
      exact hreason (by simp)
  | fold h =>
    obtain ⟨report, h⟩ := h
    rw [hcause] at h
    cases h
  | unknownFunction => cases hcause
  | arityMismatch => cases hcause

namespace Analysis

variable {e : Expr} {x : Extraction} {source : String} {r : Registry} {formatters : Formatters}
  {a : Analysis}

/-! ### Failures -/

section Failures

variable {P : Span → Prop} {called : List String} {σ : State}

/-- A fault that the build or what comes after it meets, as it is reported: it refers to the whole
text, and its spans are places of which `P` holds. -/
structure Reported (P : Span → Prop) (called : List String) (source : String) (f : TypeFailure) :
    Prop where
  source : f.source = source
  fault : f.fault.OfBuild P called
  context : ∀ c ∈ f.context, P c.span

theorem reported_report {fault : TypeFault} (hσ : σ.Sound P) (h : fault.OfBuild P called) :
    Reported P called source (report source σ fault) := by
  refine ⟨rfl, h, ?_⟩
  unfold report
  dsimp only
  split
  · split
    · rename_i first hfirst
      split
      · simp
      · exact List.forall_mem_singleton.mpr (hσ.of_lookup hfirst)
    · simp
  · simp

theorem reported_dispute {d : Dispute} (hσ : σ.Sound P) (h : d.fault.OfBuild P called) :
    Reported P called source (d.report source σ) := by
  have hfault : Reported P called source (report source σ d.fault) := reported_report hσ h
  unfold Dispute.report
  dsimp only
  split
  · exact hfault
  · split
    · rename_i first hfirst
      refine ⟨hfault.source, hfault.fault, List.forall_mem_append.mpr ⟨hfault.context, ?_⟩⟩
      exact List.forall_mem_singleton.mpr (hσ.of_lookup hfirst)
    · exact hfault

/-- An analysis reports the faults of the build, and such as narrowing meets. -/
theorem ofExpr_fault (hr : r.Distinct) (he : e.EverySpan fun s => P (x.sourceSpan s))
    (hdefault : P default) {f : TypeFailure} (h : ofExpr e x source r formatters = .error f) :
    Reported P e.called source f := by
  have hreports : Meets (build x formatters e) { registry := r }
      (fun n σ => n.EverySpan P ∧ σ.Sound P) fun fault σ => fault.OfBuild P e.called ∧ σ.Sound P :=
    build_reports e he _ ⟨hr, by simp⟩
  unfold Meets at hreports
  rcases hb : (build x formatters e).run { registry := r } with ⟨fault | n, σ⟩
  · rw [hb] at hreports
    rw [ofExpr_of_build_error hb] at h
    cases h
    exact reported_report hreports.2 hreports.1
  rw [hb] at hreports
  obtain ⟨hP, hσ⟩ := hreports
  have hbuilt := built_of_run hr hb
  unfold ofExpr at h
  rw [hb] at h
  rcases except_bind_eq_error_iff.mp h with h | ⟨n', hn, h⟩
  · cases h
  obtain rfl := Except.ok.inj hn
  rcases except_bind_eq_error_iff.mp h with h | ⟨⟨root, s⟩, hd, h⟩
  · obtain ⟨d, hd, rfl⟩ := except_mapError_eq_error_iff.mp h
    exact reported_dispute hσ (.narrowing (determine_fault hbuilt.distinct hP hdefault hd))
  rw [except_mapError_eq_ok_iff] at hd
  dsimp only at h
  rw [Option.isNone_eq_false_iff.mpr (type?_of_determine hbuilt hd)] at h
  rcases except_bind_eq_error_iff.mp h with h | ⟨s', hs', h⟩
  · obtain ⟨fault, hp, rfl⟩ := except_mapError_eq_error_iff.mp h
    obtain ⟨hle, -, hcov, -⟩ := determine_spec hbuilt.distinct hbuilt.covered hd
    obtain ⟨⟨name, span, rfl⟩, hspan⟩ := preferences_fault hcov.knownTo (hP.of_le hle) hp
    exact reported_report hσ (.narrowing (.refused (.preferenceConflict name) hspan))
  · cases hf : s'.fix with
    | ok table =>
      rw [hf] at h
      cases h
    | error err =>
      rw [hf] at h
      cases h
      refine ⟨rfl, .narrowing (.refused err ?_), by simp⟩
      cases hfirst : σ.introduced.lookup err.name with
      | none => exact hdefault
      | some first => exact hσ.of_lookup hfirst

theorem ofExpr_not_ambiguity (hr : r.Distinct) {f : TypeFailure}
    (h : ofExpr e x source r formatters = .error f) : ¬f.fault.IsAmbiguity :=
  (ofExpr_fault (P := fun _ => True) hr e.everySpan_true trivial h).fault.not_ambiguity

end Failures

/-! ### Successes -/

/-- What code generation needs: a resolved tree, the types of its references in the table, no other
names in the table, and code for both programs. -/
structure Complete (a : Analysis) : Prop extends WellTyped a where
  names : ∀ name, name ∈ a.parameters.names ↔ name ∈ a.root.names
  code : ∀ mode, ∃ c, Code.ofNode mode a.parameters a.root = .ok c

theorem ofExpr_complete (hr : r.Distinct) (hused : r.used = [])
    (h : ofExpr e x source r formatters = .ok a) : a.Complete := by
  have hwell := ofExpr_wellTyped hr h
  have hnames := (names_of_ofExpr hr hused h).2
  refine ⟨hwell, hnames, fun mode => Code.exists_ofNode mode hwell.resolved ?_⟩
  refine hwell.references.imp fun name _ hf => ?_
  obtain ⟨f, hf, rfl, -⟩ := hf
  exact List.mem_map_of_mem hf

end Analysis

namespace Engine

open Analysis

/-- What an engine makes of a text without its literals. -/
def extract (engine : Engine) (source : String) : Extraction :=
  Extraction.ofText engine.options.delimiters source

def parse (engine : Engine) (source : String) : Except ParseFailure Expr :=
  Expr.parse (engine.extract source).skeleton engine.options.maxDepth

/-- What code generation makes of an analysis. -/
theorem compileText_of_stages {engine : Engine} {source : String} {r : Registry} {e : Expr}
    {a : Analysis} (he : engine.parse source = .ok e)
    (ha : ofExpr e (engine.extract source) source r engine.formatters = .ok a) {exact tolerant : Code}
    (hexact : Code.ofNode .exact a.parameters a.root = .ok exact)
    (htolerant : Code.ofNode .tolerant a.parameters a.root = .ok tolerant) {t : ValueType}
    (ht : a.root.type? = some t) :
    engine.compileText source r = .ok {
      serial := engine.compiledCount
      source := source
      exact := exact
      tolerant := tolerant
      parameters := a.parameters
      type := t
      formatters := engine.formatters
      tolerance := engine.options.tolerance } := by
  unfold compileText
  refine except_bind_eq_ok_iff.mpr ⟨e, except_mapError_eq_ok_iff.mpr he, ?_⟩
  refine except_bind_eq_ok_iff.mpr ⟨a, except_mapError_eq_ok_iff.mpr ha, ?_⟩
  dsimp only
  rw [hexact, htolerant, ht]
  rfl

/-- What cannot be parsed is reported in the coordinates of the source. -/
theorem compileText_of_parse_error {engine : Engine} {source : String} {r : Registry}
    {p : ParseFailure} (h : engine.parse source = .error p) :
    engine.compileText source r =
      .error (.ofParse (p.relocate source (engine.extract source).sourceSpan)) :=
  except_bind_eq_error_iff.mpr (.inl (except_mapError_eq_error_iff.mpr ⟨p, h, rfl⟩))

/-- An expression keeps the formatters that it was compiled with. -/
theorem formatters_of_compileText {engine : Engine} {source : String} {r : Registry} {c : Compiled}
    (h : engine.compileText source r = .ok c) : c.formatters = engine.formatters := by
  obtain ⟨e, a, he, ha, -, hexact, htolerant, htype⟩ := exists_stages_of_compileText h
  rw [compileText_of_stages he ha hexact htolerant htype] at h
  rw [← Except.ok.inj h]

/-- A text whose analysis succeeds compiles. -/
theorem compileText_error_cases {engine : Engine} {source : String} {r : Registry}
    (hr : r.Distinct) (hused : r.used = []) {f : Failure}
    (h : engine.compileText source r = .error f) :
    (∃ p : ParseFailure, engine.parse source = .error p ∧
      f = .ofParse (p.relocate source (engine.extract source).sourceSpan)) ∨
    ∃ (e : Expr) (t : TypeFailure), engine.parse source = .ok e ∧
      ofExpr e (engine.extract source) source r engine.formatters = .error t ∧ f = .ofType t := by
  unfold compileText at h
  rcases except_bind_eq_error_iff.mp h with h | ⟨e, he, h⟩
  · obtain ⟨p, hp, rfl⟩ := except_mapError_eq_error_iff.mp h
    exact .inl ⟨p, hp, rfl⟩
  rw [except_mapError_eq_ok_iff] at he
  rcases except_bind_eq_error_iff.mp h with h | ⟨a, ha, h⟩
  · obtain ⟨t, ht, rfl⟩ := except_mapError_eq_error_iff.mp h
    exact .inr ⟨e, t, he, ht, rfl⟩
  rw [except_mapError_eq_ok_iff] at ha
  have hcomplete := ofExpr_complete hr hused ha
  obtain ⟨exact, hexact⟩ := hcomplete.code .exact
  obtain ⟨tolerant, htolerant⟩ := hcomplete.code .tolerant
  obtain ⟨t, ht⟩ := hcomplete.resolved.exists_types_eq
  dsimp only at h
  rw [hexact, htolerant, Node.type?, ht, TypeSet.single?_only] at h
  cases h

theorem compileText_error {engine : Engine} {source : String} {r : Registry} (hr : r.Distinct)
    (hused : r.used = []) {f : Failure} (h : engine.compileText source r = .error f) :
    (∃ p : ParseFailure, f = .ofParse p) ∨
      ∃ t : TypeFailure, ¬t.fault.IsAmbiguity ∧ f = .ofType t := by
  rcases compileText_error_cases hr hused h with ⟨p, -, rfl⟩ | ⟨e, t, -, ht, rfl⟩
  · exact .inl ⟨_, rfl⟩
  · exact .inr ⟨t, ofExpr_not_ambiguity hr ht, rfl⟩

/-- Every analysis that succeeds, of any tree and with the parameters of any table, hands over
complete work, and none fails because several types are left. A text fails to compile only because
it cannot be parsed or analyzed, never because code generation misses a type or a parameter. -/
theorem analysis_handsOver (engine : Engine) (source : String) (table : ParameterTable) :
    (∀ (e : Expr) (x : Extraction),
      match ofExpr e x source (.ofTable table) engine.formatters with
      | .ok a => a.Complete
      | .error f => ¬f.fault.IsAmbiguity) ∧
    ∀ f, (engine.compileWith source table).1 = .error f →
      (∃ p : ParseFailure, f = .ofParse p) ∨
        ∃ t : TypeFailure, ¬t.fault.IsAmbiguity ∧ f = .ofType t := by
  have hr := Registry.distinct_ofTable table
  have hused := Registry.used_ofTable table
  constructor
  · intro e x
    cases h : ofExpr e x source (.ofTable table) engine.formatters with
    | ok a => exact ofExpr_complete hr hused h
    | error f => exact ofExpr_not_ambiguity hr h
  · intro f h
    rw [compileWith, count_fst] at h
    exact compileText_error hr hused h

/-- How `x < f() + 1` is read. -/
def producerComparison : Expr :=
  .binary (.comparison .lt) (.name "x" ⟨0, 1⟩)
    (.binary (.arithmetic .add) (.call "f" [] ⟨4, 7⟩) (.literal (.int 1) ⟨10, 11⟩) ⟨4, 11⟩) ⟨0, 11⟩

/-- With the table of an expression that has a string `y`, the analysis of a comparison with
a producer is complete. -/
theorem analysis_handsOver_seeded :
    ∃ a, ofExpr producerComparison (Extraction.ofText {} "x < f() + 1") "x < f() + 1"
      (.ofTable [⟨"y", .string, .unset, false, 0⟩]) [] = .ok a ∧ a.Complete := by
  have h := (analysis_handsOver { options := {} } "x < f() + 1"
    [⟨"y", .string, .unset, false, 0⟩]).1 producerComparison (Extraction.ofText {} "x < f() + 1")
  have hok : (ofExpr producerComparison (Extraction.ofText {} "x < f() + 1") "x < f() + 1"
      (.ofTable [⟨"y", .string, .unset, false, 0⟩]) []).isOk = true := by cbv
  dsimp only at h
  split at h
  · rename_i a ha
    exact ⟨a, ha, h⟩
  · rename_i f hf
    rw [hf] at hok
    cases hok

end Engine
end TolerantExpr
