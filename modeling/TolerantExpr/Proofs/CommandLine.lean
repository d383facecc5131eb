import TolerantExpr.CommandLine
import TolerantExpr.Proofs.Engine.Sessions

/-!
# Lines of input

All lines of the input are evaluated with one engine. What the engine remembers of earlier lines is
what a text compiles to anyway, so no line can tell that others came before it: what the program
prints for it is what it prints for the line alone.
-/

namespace TolerantExpr

/-- What a text leads to, when it is fetched, is what it compiles to, whatever was fetched before. -/
theorem Tracks.fetch_eq {options : Options} {journal : List Event} {engine : Engine}
    (h : Tracks options journal engine) (source : String) :
    (engine.fetch source).1.map (fun e => { e with serial := 0 }) =
      ({ options := options, formatters := Journal.formatters journal } : Engine).compileText
        source {} := by
  rw [h.compileText_eq]
  rcases Engine.fetch_cases h.settled source with
    ⟨e, hc, heq⟩ | ⟨e, -, he, heq⟩ | ⟨f, hf, heq⟩ <;> rw [heq]
  · rw [h.current source e (h.settled.cached?_eq_some_iff.mp hc)]
    rfl
  · rw [he]
  · rw [hf]

namespace CommandLine

variable {i : Invocation} {engine : Engine} {journal : List Event}

/-! ### Lines -/

/-- The expressions among some lines: the lines that are not blank, trimmed. -/
def expressionsOf (lines : List String) : List String := (lines.map Text.trim).filter (· ≠ "")

/-- Lines are ended by line feeds, or by the end of the text. -/
theorem inputLines_intercalate {lines : List String} (h : ∀ line ∈ lines, '\n' ∉ line.toList) :
    inputLines ("\n".intercalate lines) = expressionsOf lines := by
  have htext : ("\n".intercalate lines).toList = ['\n'].intercalate (lines.map String.toList) :=
    String.toList_intercalate
  rw [inputLines, expressionsOf, htext]
  by_cases hnil : lines = []
  · subst hnil
    rfl
  · rw [List.splitOn_intercalate '\n' (List.forall_mem_map.mpr h) (by simpa using hnil),
      List.map_map]
    simp only [Function.comp_def, String.ofList_toList]

/-! ### One line after the other -/

/-- The call of an expression with the arguments and the tolerance of the command line. -/
def Invocation.call (i : Invocation) (e : Compiled) : Except CallError Value :=
  ((e.callByName i.tolerance fun name => (i.bindings.lookup name).map Argument.value).run []).1

/-- What becomes of an expression that was fetched. -/
def Evaluated.ofFetched (i : Invocation) : Except Failure Compiled → Evaluated
  | .error f => ⟨false, "", f.line⟩
  | .ok e =>
    let head := if i.listParameters then parameterList e.parameters else ""
    match i.call e with
    | .ok v => ⟨true, head ++ v.text ++ "\n", ""⟩
    | .error err => ⟨false, head, (Failure.ofCall err).line⟩

theorem evaluate_eq (i : Invocation) (engine : Engine) (input : String) :
    evaluate i engine input = (.ofFetched i (engine.fetch input).1, (engine.fetch input).2) := by
  unfold evaluate Evaluated.ofFetched Invocation.call
  rcases engine.fetch input with ⟨f | e, next⟩
  · rfl
  · dsimp only
    generalize ((e.callByName _ _).run []).1 = result
    cases result <;> rfl

/-- A text has to compile, and its call has to yield a value. -/
theorem Evaluated.succeeded_ofFetched (i : Invocation) (result : Except Failure Compiled) :
    (ofFetched i result).succeeded = result.toOption.any fun e => (i.call e).isOk := by
  cases result with
  | error f => rfl
  | ok e =>
    rw [ofFetched, Except.toOption, Option.any_some]
    cases i.call e <;> rfl

/-- It does not matter how many compilations there were before. -/
theorem Evaluated.ofFetched_serial (i : Invocation) (result : Except Failure Compiled) :
    ofFetched i (result.map fun e => { e with serial := 0 }) = ofFetched i result := by
  cases result <;> rfl

/-- What becomes of one line, given to a program that is started for it. -/
def alone (i : Invocation) (line : String) : Evaluated := (evaluate i { options := {} } line).1

/-- One step: an engine without formatters does with a line what a new one does, and goes on as such
an engine. -/
theorem evaluate_tracks (h : Tracks {} journal engine) (hf : Journal.formatters journal = [])
    (input : String) :
    (evaluate i engine input).1 = alone i input ∧
      ∃ journal', Tracks {} journal' (evaluate i engine input).2 ∧
        Journal.formatters journal' = [] := by
  have hnew : Tracks {} [] { options := {} } := tracks_new rfl
  have hfetch : (engine.fetch input).1.map (fun e => { e with serial := 0 }) =
      (({ options := {} } : Engine).fetch input).1.map fun e => { e with serial := 0 } := by
    rw [h.fetch_eq, hnew.fetch_eq, hf]
    rfl
  constructor
  · rw [alone, evaluate_eq, evaluate_eq]
    dsimp only
    rw [← Evaluated.ofFetched_serial, hfetch, Evaluated.ofFetched_serial]
  · refine ⟨⟨.fetch input, (engine.perform (.fetch input)).1⟩ :: journal, ?_, hf⟩
    rw [evaluate_eq]
    exact h.perform (.fetch input)

/-- A run: each line is evaluated as if it were the only one. -/
theorem evaluateAll_eq (h : Tracks {} journal engine) (hf : Journal.formatters journal = [])
    (inputs : List String) : evaluateAll i engine inputs = inputs.map (alone i) := by
  induction inputs generalizing engine journal with
  | nil => rfl
  | cons input inputs ih =>
    obtain ⟨hresult, journal', hnext, hf'⟩ := evaluate_tracks (i := i) h hf input
    rw [evaluateAll, List.map_cons, ← ih hnext hf', ← hresult]

/-- Without an expression among the arguments, the program prints for the lines of its input, one
after the other, what it prints for each of them alone, and fails exactly if it fails for one of
them alone. What is said about failures goes line by line as well. -/
theorem lines_evaluated_alone {words : List String} (hread : read words = some (.evaluate i))
    (hinput : i.expression = none) {lines : List String}
    (hlines : ∀ line ∈ lines, '\n' ∉ line.toList) :
    (run words ("\n".intercalate lines)).output =
        String.join ((expressionsOf lines).map fun line => (alone i line).output) ∧
      (run words ("\n".intercalate lines)).report =
        String.join ((expressionsOf lines).map fun line => (alone i line).report) ∧
      ((run words ("\n".intercalate lines)).exitCode = 1 ↔
        ∃ line ∈ expressionsOf lines, (alone i line).succeeded = false) ∧
      ((run words ("\n".intercalate lines)).exitCode = 0 ↔
        ∀ line ∈ expressionsOf lines, (alone i line).succeeded = true) := by
  have hnew : Tracks {} [] { options := {} } := tracks_new rfl
  have hrun : run words ("\n".intercalate lines) =
      .ofResults ((expressionsOf lines).map (alone i)) := by
    rw [run, hread]
    dsimp only
    rw [hinput]
    dsimp only
    rw [inputLines_intercalate hlines, evaluateAll_eq hnew rfl]
  rw [hrun, Outcome.ofResults]
  dsimp only
  rw [List.map_map, List.map_map]
  refine ⟨rfl, rfl, ?_, ?_⟩
  · rw [ite_eq_right_iff, ← not_iff_not]
    simp
  · rw [ite_eq_left_iff]
    simp

/-- A line comes three times, with a blank one and one that lacks an argument in between. -/
theorem lines_evaluated_alone_repeated :
    read ["-ax=2"] = some (.evaluate { bindings := [("x", .int 2)] }) ∧
      (∀ line ∈ ["x + 1", "", "  x + 1", "y + 1", "x + 1"], '\n' ∉ line.toList) ∧
      (run ["-ax=2"] ("\n".intercalate ["x + 1", "", "  x + 1", "y + 1", "x + 1"])).output =
        String.join (["x + 1", "x + 1", "y + 1", "x + 1"].map fun line =>
          (alone { bindings := [("x", .int 2)] } line).output) ∧
      (run ["-ax=2"] ("\n".intercalate ["x + 1", "", "  x + 1", "y + 1", "x + 1"])).exitCode = 1 := by
  have hword : Word.ofText "-ax=2" = .short 'a' "x=2".toList := by rfl
  have hbinding : readBinding? "x=2" = some ("x", .int 2) := by rfl
  have hread : read ["-ax=2"] = some (.evaluate { bindings := [("x", .int 2)] }) := by
    rw [CommandLine.read, readFrom, hword]
    simp [attached?, Invocation.apply, hbinding, readFrom]
  have hlines : ∀ line ∈ ["x + 1", "", "  x + 1", "y + 1", "x + 1"], '\n' ∉ line.toList := by simp
  have htrimmed : expressionsOf ["x + 1", "", "  x + 1", "y + 1", "x + 1"] =
      ["x + 1", "x + 1", "y + 1", "x + 1"] := by cbv
  have hfails : (alone { bindings := [("x", .int 2)] } "y + 1").succeeded = false := by
    rw [alone, evaluate_eq, Evaluated.succeeded_ofFetched]
    cbv
  obtain ⟨houtput, -, hexit, -⟩ := lines_evaluated_alone hread rfl hlines
  rw [htrimmed] at houtput hexit
  exact ⟨hread, hlines, houtput, hexit.mpr ⟨"y + 1", by simp, hfails⟩⟩

end CommandLine
end TolerantExpr
