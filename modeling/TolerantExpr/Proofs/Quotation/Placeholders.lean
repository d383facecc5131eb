import TolerantExpr.Proofs.Evaluation.Handover
import TolerantExpr.Proofs.Parsing.Correctness
import TolerantExpr.Proofs.Quotation.RoundTrip
import TolerantExpr.Proofs.Quotation.Skeletons

/-!
# Literals and names

The names that a text gives to parameters, and those of functions that it calls wrongly, stand in
the gaps between its literals, with one exception: a literal with a left parenthesis behind it is
called by its placeholder. All other literals are read as their constants.
-/

namespace TolerantExpr

/-- The function that a fault names, if it is missing or has the wrong number of arguments. -/
def TypeCause.function? : TypeCause → Option String
  | unknownFunction name => some name
  | arityMismatch name _ _ => some name
  | _ => none

theorem TypeFault.OfBuild.mem_called {P : Span → Prop} {called : List String}
    {fault : TypeFault} {n : String} (h : fault.OfBuild P called)
    (hn : fault.cause.function? = some n) : n ∈ called := by
  cases h with
  | narrowing h =>
    rcases h.cause_cases with ⟨name, hcause⟩ | ⟨reason, p, hcause, -⟩ <;>
      rw [hcause] at hn <;> cases hn
  | fold h =>
    obtain ⟨report, hcause⟩ := h
    rw [hcause] at hn
    cases hn
  | unknownFunction h =>
    cases hn
    exact h
  | arityMismatch h =>
    cases hn
    exact h

namespace Extraction

variable {gap : List Char} {parts : List Part} {ys : List Excerpt} {n : String}

/-- A name is a token of a gap. -/
def NamedOutside (gap : List Char) (parts : List Part) (n : String) : Prop :=
  n ∈ namesIn gap ∨ ∃ p ∈ parts, n ∈ namesIn p.gap

/-- A name is the placeholder of a literal with a left parenthesis behind it. -/
def NamesCalled (parts : List Part) (n : String) : Prop :=
  ∃ index p, parts[index]? = some p ∧ Token.opensCall p.gap = true ∧ n = placeholderName index

theorem placeholder_of_getElem? {index read written : Nat} {i : Nat} {y : Excerpt}
    (h : (excerptsFrom index read written gap parts)[i]? = some y) :
    y.placeholder = placeholderName (index + i) := by
  induction parts generalizing index read written gap i with
  | nil => simp [excerptsFrom] at h
  | cons p parts ih =>
    rw [excerptsFrom] at h
    cases i with
    | zero =>
      rw [List.getElem?_cons_zero] at h
      obtain rfl := Option.some.inj h
      rfl
    | succ i =>
      rw [List.getElem?_cons_succ] at h
      rw [ih h, Nat.add_assoc, Nat.add_comm 1]

/-- A name that is read as itself stands in a gap, or is the placeholder of a literal that is
called. -/
theorem name_mem_readingsOf {read written : Nat}
    (h : .name n ∈ readingsOf gap (parts.zip (excerptsFrom 0 read written gap parts))) :
    NamedOutside gap parts n ∨ NamesCalled parts n := by
  have hname : ∀ cs, Reading.name n ∈ (namesIn cs).map .name → n ∈ namesIn cs := by
    intro cs hcs
    obtain ⟨m, hm, heq⟩ := List.mem_map.mp hcs
    cases heq
    exact hm
  rw [readingsOf, List.mem_append, List.mem_flatMap] at h
  rcases h with h | ⟨⟨p, y⟩, hpy, h⟩
  · exact .inl (.inl (hname gap h))
  obtain ⟨i, hi⟩ := List.mem_iff_getElem?.mp hpy
  obtain ⟨hp, hy⟩ := List.getElem?_zip_eq_some.mp hi
  rcases List.mem_cons.mp h with h | h
  · unfold Part.reading at h
    split at h
    · rename_i hcall
      cases h
      have hplaceholder := placeholder_of_getElem? hy
      rw [Nat.zero_add] at hplaceholder
      exact .inr ⟨i, p, hp, hcall, hplaceholder⟩
    · cases h
  · exact .inl (.inr ⟨p, List.mem_of_getElem? hp, hname p.gap h⟩)

/-- The constants that are read are those of the literals that are not called. -/
theorem constants_readingsOf (gap : List Char) (pairs : List (Part × Excerpt)) :
    (readingsOf gap pairs).filterMap Reading.constant? =
      (pairs.filter fun q => !Token.opensCall q.1.gap).map Prod.snd := by
  have hnames : ∀ cs, ((namesIn cs).map Reading.name).filterMap Reading.constant? = [] := by
    intro cs
    simp [Reading.constant?]
  rw [readingsOf, List.filterMap_append, hnames, List.nil_append]
  induction pairs with
  | nil => rfl
  | cons q pairs ih =>
    obtain ⟨p, y⟩ := q
    rw [List.flatMap_cons, List.filterMap_append, ih, List.filterMap_cons, hnames, Part.reading]
    cases hcall : Token.opensCall p.gap <;> simp [Reading.constant?, hcall]

/-- All the literals are read as constants just if none of them is called. -/
theorem constants_eq_iff (hlength : ys.length = parts.length) :
    (readingsOf gap (parts.zip ys)).filterMap Reading.constant? = ys ↔
      ∀ p ∈ parts, Token.opensCall p.gap = false := by
  have hparts : (parts.zip ys).map Prod.fst = parts := List.map_fst_zip (Nat.le_of_eq hlength.symm)
  have hys : (parts.zip ys).map Prod.snd = ys := List.map_snd_zip (Nat.le_of_eq hlength)
  rw [constants_readingsOf]
  constructor
  · intro h p hp
    have hfilter : ((parts.zip ys).filter fun q => !Token.opensCall q.1.gap).length =
        (parts.zip ys).length := by
      rw [← List.length_map Prod.snd, h, ← hys, List.length_map, hys]
    rw [← hparts] at hp
    obtain ⟨q, hq, rfl⟩ := List.mem_map.mp hp
    simpa using List.length_filter_eq_length_iff.mp hfilter q hq
  · intro h
    rw [List.filter_eq_self.mpr, hys]
    intro q hq
    have hq : q.1 ∈ parts := by
      rw [← hparts]
      exact List.mem_map_of_mem hq
    rw [h q.1 hq]
    rfl

end Extraction

namespace Engine

open Extraction

variable {engine : Engine} {source : String} {table : ParameterTable} {n : String}

/-- The names that an engine takes from a text: those of the parameters of the expression that it
becomes, and those of functions that are missing or have the wrong number of arguments. -/
inductive Takes (engine : Engine) (source : String) (table : ParameterTable) : String → Prop where
  | parameter {c : Compiled} {n : String} (h : (engine.compileWith source table).1 = .ok c)
    (hn : n ∈ c.parameters.names) : Takes engine source table n
  | function {e : Expr} {f : TypeFailure} {n : String} (he : engine.parse source = .ok e)
    (hf : Analysis.ofExpr e (engine.extract source) source (.ofTable table) engine.formatters =
      .error f)
    (hn : f.fault.cause.function? = some n) : Takes engine source table n

/-- Each name that is taken from a text is one that the expression is read with. -/
theorem Takes.exists_reading (h : engine.Takes source table n) :
    ∃ e, engine.parse source = .ok e ∧ .name n ∈ e.readings (engine.extract source) := by
  have hr := Registry.distinct_ofTable table
  have hused := Registry.used_ofTable table
  cases h with
  | parameter h hn =>
    rw [compileWith, count_fst] at h
    obtain ⟨e, a, he, ha, hparameters, -⟩ := exists_stages_of_compileText h
    obtain ⟨hroot, hnames⟩ := Analysis.names_of_ofExpr hr hused ha
    rw [hparameters, hnames, hroot] at hn
    obtain ⟨u, hu, rfl⟩ := List.mem_map.mp hn
    exact ⟨e, he, Expr.name_mem_readings_of_uses hu⟩
  | function he hf hn =>
    have hreported := Analysis.ofExpr_fault (P := fun _ => True) hr (Expr.everySpan_true _) trivial hf
    have hcalled := hreported.fault.mem_called hn
    exact ⟨_, he, Expr.name_mem_readings_of_called hcalled⟩

/-- What an engine reads of a text that falls into gaps and literals. -/
theorem readings_of_parse (ho : engine.options.refusal? = none) {gap : List Char}
    {parts : List Part} (h : Splits engine.options.delimiters [] gap parts) {e : Expr}
    (he : engine.parse (String.ofList (textOf gap parts)) = .ok e) :
    let x := engine.extract (String.ofList (textOf gap parts))
    x.excerpts = excerptsFrom 0 0 0 gap parts ∧
      e.readings x = readingsOf gap (parts.zip (excerptsFrom 0 0 0 gap parts)) := by
  have hb := (engine.options.valid_delimiters ho).delimiter_ne_b
  have hx := ofText_of_splits hb h
  dsimp only
  unfold parse extract at he
  unfold extract
  rw [hx] at he ⊢
  obtain ⟨-, he, -⟩ := parse_eq_ok_iff.mp he
  dsimp only at he
  rw [String.toList_ofList] at he
  refine ⟨rfl, ?_⟩
  have hnil : ∀ y ∈ ([] : List Excerpt), y.placeholderSpan.start < 0 := by simp
  rw [Expr.readings_of_ofLexemes he]
  exact readings_skeletonFrom rfl hnil

/-- Every name that is taken from a text stands between its literals, but for the placeholders of
literals with a left parenthesis behind them. Once a text can be parsed, no literal becomes a name
and all of them are read as constants just if there is no such literal. -/
theorem takes_names (engine : Engine) (ho : engine.options.refusal? = none) (source : String)
    (table : ParameterTable) :
    ∃ gap parts, source = String.ofList (textOf gap parts) ∧
      Splits engine.options.delimiters [] gap parts ∧
      (∀ n, engine.Takes source table n → NamedOutside gap parts n ∨ NamesCalled parts n) ∧
      ∀ e, engine.parse source = .ok e →
        ((∀ n, engine.Takes source table n → NamedOutside gap parts n) ∧
            (e.readings (engine.extract source)).filterMap Reading.constant? =
              (engine.extract source).excerpts ↔
          ∀ p ∈ parts, Token.opensCall p.gap = false) := by
  have hb := (engine.options.valid_delimiters ho).delimiter_ne_b
  obtain ⟨gap, parts, htext, hsplits⟩ := exists_splits hb [] source.toList (by simp)
  obtain rfl : source = String.ofList (textOf gap parts) := by
    rw [← htext, String.ofList_toList]
  have hnames : ∀ n, engine.Takes (String.ofList (textOf gap parts)) table n →
      NamedOutside gap parts n ∨ NamesCalled parts n := by
    intro n hn
    obtain ⟨e, he, hreading⟩ := hn.exists_reading
    rw [(readings_of_parse ho hsplits he).2] at hreading
    exact name_mem_readingsOf hreading
  refine ⟨gap, parts, rfl, hsplits, hnames, fun e he => ?_⟩
  obtain ⟨hexcerpts, hreadings⟩ := readings_of_parse ho hsplits he
  rw [hexcerpts, hreadings, constants_eq_iff (length_excerptsFrom ..)]
  constructor
  · exact fun h => h.2
  · intro h
    refine ⟨fun n hn => (hnames n hn).resolve_right ?_, h⟩
    rintro ⟨index, p, hp, hcall, -⟩
    rw [h p (List.mem_of_getElem? hp)] at hcall
    cases hcall

/-- The names that are taken from a text with a literal next to names and in front of a right
parenthesis. -/
theorem takes_names_argument :
    ∃ gap parts, "length(\"x(\") = n" = String.ofList (textOf gap parts) ∧
      Splits {} [] gap parts ∧
      (∀ n, ({ options := {} } : Engine).Takes "length(\"x(\") = n" [] n →
        NamedOutside gap parts n ∨ NamesCalled parts n) ∧
      (∃ e, ({ options := {} } : Engine).parse "length(\"x(\") = n" = .ok e) ∧
      ∀ e, ({ options := {} } : Engine).parse "length(\"x(\") = n" = .ok e →
        ((∀ n, ({ options := {} } : Engine).Takes "length(\"x(\") = n" [] n →
              NamedOutside gap parts n) ∧
            (e.readings (({ options := {} } : Engine).extract "length(\"x(\") = n")).filterMap
                Reading.constant? =
              (({ options := {} } : Engine).extract "length(\"x(\") = n").excerpts ↔
          ∀ p ∈ parts, Token.opensCall p.gap = false) := by
  obtain ⟨gap, parts, htext, hsplits, hnames, hconstants⟩ :=
    takes_names { options := {} } (by decide) "length(\"x(\") = n" []
  have hok : (({ options := {} } : Engine).parse "length(\"x(\") = n").isOk = true := by cbv
  refine ⟨gap, parts, htext, hsplits, hnames, ?_, hconstants⟩
  cases he : ({ options := {} } : Engine).parse "length(\"x(\") = n" with
  | ok e => exact ⟨e, rfl⟩
  | error f =>
    rw [he] at hok
    cases hok

/-- A literal in front of an empty pair of parentheses becomes a parameter. -/
theorem takes_placeholder :
    let parts : List Part := [⟨.string "a", "\"a\"".toList, "()".toList⟩]
    "\"a\"()" = String.ofList (textOf [] parts) ∧ Splits {} [] [] parts ∧
      ({ options := {} } : Engine).Takes "\"a\"()" [] "__const0" ∧
      ¬NamedOutside [] parts "__const0" := by
  refine ⟨by decide, ?_, ?_, ?_⟩
  · have hd := Options.valid_delimiters (o := {}) (by decide)
    have hstart : ¬Quotation.EndsInPrefix [] := mt Quotation.opensBytes_reverse_iff.mpr (by decide)
    exact .literal (by decide) (Quotation.isLiteral_of_writes hd (.string "a") hstart)
      (.done (by decide))
  · have hok : (({ options := {} } : Engine).compileWith "\"a\"()" []).1.map
        (fun c => c.parameters.names) = .ok ["__const0"] := by cbv
    cases h : (({ options := {} } : Engine).compileWith "\"a\"()" []).1 with
    | ok c =>
      rw [h] at hok
      have hnames : c.parameters.names = ["__const0"] := Except.ok.inj hok
      exact .parameter h (by rw [hnames]; exact List.mem_singleton_self _)
    | error f =>
      rw [h] at hok
      cases hok
  · have hgap : namesIn [] = [] := by cbv
    have hparens : namesIn "()".toList = [] := by cbv
    rintro (h | ⟨p, hp, h⟩)
    · rw [hgap] at h
      cases h
    · rw [List.mem_singleton.mp hp, hparens] at h
      cases h

end Engine
end TolerantExpr
