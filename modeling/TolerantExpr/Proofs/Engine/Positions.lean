import TolerantExpr.Proofs.Engine.Sessions
import TolerantExpr.Proofs.Quotation.RoundTrip
import TolerantExpr.Proofs.Typing.Positions
import Mathlib

/-!
# Positions that are reported

Whatever an engine reports about a text, and wherever a node of an analyzed tree is said to stand,
the span lies in the text that was given, between characters, even though the parser never saw that
text but its skeleton. A parameter stands where its name is written.
-/

namespace TolerantExpr

/-! ### Diagnostics -/

section

variable {source : String} {x : Extraction}

theorem Extraction.Carries.within_ofParse (hx : x.Carries source) {p : ParseFailure}
    (hp : p.span.Aligned (Boundary x.skeleton.toList)) (hcontext : p.context = []) :
    (p.relocate source x.sourceSpan).diagnostic.Within source where
  span := Span.within_iff.mpr (hx.aligned hp)
  related := by simp [ParseFailure.diagnostic, ParseFailure.relocate, hcontext]

theorem Analysis.Reported.within {called : List String} {f : TypeFailure}
    (h : Reported (Span.Aligned (Boundary source.toList)) called source f) :
    f.diagnostic.Within source where
  span := Span.within_iff.mpr h.fault.span
  related := by
    intro note hnote
    obtain ⟨c, hc, rfl⟩ := List.mem_map.mp hnote
    have hspan : c.note.span = c.span := by cases c <;> rfl
    rw [hspan]
    exact Span.within_iff.mpr (h.context c hc)

end

namespace Engine

open Analysis

variable {engine : Engine} {source : String} {f : Failure}

theorem carries_extract (ho : engine.options.refusal? = none) (source : String) :
    (engine.extract source).Carries source :=
  Extraction.carries_ofText (Options.valid_delimiters ho).delimiter_ne_b source

/-- The skeleton is read as an expression with its names where they are written in the text, or not
at a place in the skeleton. -/
theorem parse_placed (hx : (engine.extract source).Carries source) :
    LeadsTo (engine.parse source)
      (Expr.Placed (Boundary (engine.extract source).skeleton.toList)
        (GoesHome (engine.extract source) source))
      fun p => p.span.Aligned (Boundary (engine.extract source).skeleton.toList) ∧
        p.context = [] := by
  refine Expr.parse_placed _ _ fun l hl n hname hnone => ?_
  rw [hx.token l hl hnone, Token.text_of_mem_scan hl hname]

/-- A text that does not compile is reported with places in it. -/
theorem compileText_within (ho : engine.options.refusal? = none) {r : Registry} (hr : r.Distinct)
    (hused : r.used = []) (h : engine.compileText source r = .error f) :
    ∃ diagnostics, f = .compilation diagnostics source ∧ ∀ d ∈ diagnostics, d.Within source := by
  have hx := carries_extract ho source
  have hplaced := parse_placed hx
  rcases compileText_error_cases hr hused h with ⟨p, hp, rfl⟩ | ⟨e, t, he, ht, rfl⟩
  · rw [hp] at hplaced
    exact ⟨_, rfl, List.forall_mem_singleton.mpr (hx.within_ofParse hplaced.1 hplaced.2)⟩
  · rw [he] at hplaced
    have hdefault : Span.Aligned (Boundary source.toList) default :=
      ⟨le_rfl, boundary_zero _, boundary_zero _⟩
    have hreported := ofExpr_fault hr (everySpan_of_placed hx hplaced) hdefault ht
    refine ⟨[t.diagnostic], ?_, List.forall_mem_singleton.mpr hreported.within⟩
    rw [Failure.ofType, hreported.source]

theorem compileText_of_fetch (h : (engine.fetch source).1 = .error f) :
    engine.compileText source {} = .error f := by
  have hoptions : (engine.reserve source).options = engine.options := by
    unfold reserve
    split <;> rfl
  have hformatters : (engine.reserve source).formatters = engine.formatters := by
    unfold reserve
    split <;> rfl
  have hsame : (engine.reserve source).compileText source {} = _ :=
    compileText_congr hoptions hformatters {}
  unfold fetch compile at h
  rw [hsame] at h
  split at h
  · cases h
  · cases he : engine.compileText source {} with
    | ok e =>
      rw [he] at h
      cases h
    | error f' =>
      rw [he] at h
      cases h
      rfl

/-- The requests that fail are those to compile a text, where the text does not compile. -/
theorem compileText_of_perform {request : Request}
    (h : (engine.perform request).1 = .expression (.error f)) :
    ∃ source table, request.text? = some (source, .ofTable table) ∧
      engine.compileText source (.ofTable table) = .error f := by
  cases request with
  | fetch source =>
    have hresult : (engine.fetch source).1 = .error f := Answer.expression.inj h
    exact ⟨source, [], rfl, compileText_of_fetch hresult⟩
  | compile source =>
    have hresult : (engine.compile source).1 = .error f := Answer.expression.inj h
    rw [compile, count_fst] at hresult
    exact ⟨source, [], rfl, hresult⟩
  | compileWith source table =>
    have hresult : (engine.compileWith source table).1 = .error f := Answer.expression.inj h
    rw [compileWith, count_fst] at hresult
    exact ⟨source, table, rfl, hresult⟩
  | contains | size | clear | addFormatter => cases h

/-- Every span that is reported lies in the text that was given. In a tree it contains those below
it, and that of a parameter is where its name is written. -/
theorem reported_positions (engine : Engine) (ho : engine.options.refusal? = none) :
    (∀ (request : Request) (f : Failure),
      (engine.perform request).1 = .expression (.error f) →
        ∃ source registry diagnostics, request.text? = some (source, registry) ∧
          f = .compilation diagnostics source ∧ ∀ d ∈ diagnostics, d.Within source) ∧
    ∀ (source : String) (table : ParameterTable) (e : Expr) (a : Analysis),
      engine.parse source = .ok e →
      ofExpr e (engine.extract source) source (.ofTable table) engine.formatters = .ok a →
        ∀ n : Node, n.Subtree a.root →
          n.span.Within source ∧ (∀ x ∈ n.operands, n.span.Covers x.span) ∧
            ∀ name s types, n = .parameter name false s types → s.textIn source = name := by
  constructor
  · intro request f h
    obtain ⟨source, table, htext, hf⟩ := compileText_of_perform h
    obtain ⟨diagnostics, rfl, hwithin⟩ := compileText_within ho (Registry.distinct_ofTable table)
      (Registry.used_ofTable table) hf
    exact ⟨source, _, diagnostics, htext, rfl, hwithin⟩
  · intro source table e a he ha n hn
    have hx := carries_extract ho source
    have hexpr := parse_placed hx
    rw [he] at hexpr
    obtain ⟨hspans, hplaced⟩ := ofExpr_placed (Registry.distinct_ofTable table) hx hexpr ha
    have hn' := hplaced n hn
    exact ⟨Span.within_iff.mpr (hspans n hn), hn'.covers, hn'.named⟩

/-- Behind a literal with a character of two bytes, another one is not expected, but a name is. -/
theorem reported_positions_literals :
    Options.refusal? {} = none ∧
    (∃ d : Diagnostic,
      (compile { options := {} } "\"ü\" + é").1 = .error (.compilation [d] "\"ü\" + é") ∧
        d.span = ⟨7, 7⟩ ∧ d.Within "\"ü\" + é") ∧
    ∃ (e : Expr) (a : Analysis), parse { options := {} } "\"ü\" + x" = .ok e ∧
      ofExpr e (extract { options := {} } "\"ü\" + x") "\"ü\" + x" (.ofTable []) [] = .ok a ∧
      ∀ n : Node, n.Subtree a.root →
        n.span.Within "\"ü\" + x" ∧ (∀ x ∈ n.operands, n.span.Covers x.span) ∧
          ∀ name s types, n = .parameter name false s types → s.textIn "\"ü\" + x" = name := by
  have ho : Options.refusal? {} = none := by decide
  obtain ⟨hreported, hanalyzed⟩ := reported_positions { options := {} } ho
  refine ⟨ho, ?_, ?_⟩
  · have hparse : (parse { options := {} } "\"ü\" + é").mapError (fun p =>
        (extract { options := {} } "\"ü\" + é").sourceSpan p.span) = .error ⟨7, 7⟩ := by cbv
    obtain ⟨p, hp, hspan⟩ := except_mapError_eq_error_iff.mp hparse
    have hcompile : (compile { options := {} } "\"ü\" + é").1 = .error (.ofParse
        (p.relocate "\"ü\" + é" (extract { options := {} } "\"ü\" + é").sourceSpan)) := by
      rw [compile, count_fst, compileText_of_parse_error hp]
    obtain ⟨source, registry, diagnostics, htext, hf, hwithin⟩ :=
      hreported (.compile "\"ü\" + é") _ (congrArg Answer.expression hcompile)
    cases htext
    obtain ⟨rfl, -⟩ := Failure.compilation.inj hf
    exact ⟨_, hcompile, hspan, hwithin _ (List.mem_singleton_self _)⟩
  · have hok : (compileText { options := {} } "\"ü\" + x" (.ofTable [])).isOk = true := by cbv
    cases hc : compileText { options := {} } "\"ü\" + x" (.ofTable []) with
    | ok c =>
      obtain ⟨e, a, he, ha, -⟩ := exists_stages_of_compileText hc
      exact ⟨e, a, he, ha, hanalyzed _ [] e a he ha⟩
    | error f =>
      rw [hc] at hok
      cases hok

end Engine
end TolerantExpr
