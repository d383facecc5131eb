import TolerantExpr.Proofs.Evaluation.Folding
import TolerantExpr.Proofs.Evaluation.Handover

/-!
# What the two programs of a tree have in common

The exact program of a tree is its tolerant program with each comparison of numbers made exact, and
no other instruction looks at the tolerance. So exact runs depend on no tolerance, and a tree that
compares no numbers has one program for both modes.
-/

namespace TolerantExpr

namespace Code

/-! ### Exact programs -/

mutual

/-- The code with every comparison of numbers made exact. -/
def exactly : Code → Code
  | constant v => constant v
  | argument slot name => argument slot name
  | operation op cs => operation op (exactlyAll cs)
  | shortCircuit op l r => shortCircuit op l.exactly r.exactly
  | tolerant op l r => operation (.binary (.comparison op)) [l.exactly, r.exactly]

def exactlyAll : List Code → List Code
  | [] => []
  | c :: cs => c.exactly :: exactlyAll cs

end

mutual

/-- Exact code does not look at the tolerance. -/
theorem run_exactly (c : Code) (slots : List Slot) (formatters : Formatters) (t t' : Tolerance) :
    c.exactly.run ⟨slots, t, formatters⟩ = c.exactly.run ⟨slots, t', formatters⟩ := by
  match c with
  | constant v => rfl
  | argument slot name => rfl
  | operation op cs =>
    rw [exactly, run, run, runAll_exactlyAll cs slots formatters t t']
  | shortCircuit op l r =>
    rw [exactly, run, run, run_exactly l slots formatters t t', run_exactly r slots formatters t t']
  | tolerant op l r =>
    have hl := run_exactly l slots formatters t t'
    have hr := run_exactly r slots formatters t t'
    simp only [exactly, run, runAll, hl, hr]

theorem runAll_exactlyAll (cs : List Code) (slots : List Slot) (formatters : Formatters)
    (t t' : Tolerance) :
    runAll ⟨slots, t, formatters⟩ (exactlyAll cs) =
      runAll ⟨slots, t', formatters⟩ (exactlyAll cs) := by
  match cs with
  | [] => rfl
  | c :: cs =>
    rw [exactlyAll, runAll, runAll, run_exactly c slots formatters t t',
      runAll_exactlyAll cs slots formatters t t']

end

/-! ### The programs of a tree -/

variable {table : ParameterTable}

theorem exactly_ofOperation (op : Operation) (type left : Option ValueType) (cs : List Code) :
    (ofOperation .tolerant op type left cs).exactly =
      ofOperation .exact op type left (exactlyAll cs) := by
  rcases cs with _ | ⟨c, _ | ⟨d, _ | ⟨e, cs⟩⟩⟩
  case cons.cons.nil =>
    match op with
    | .binary (.logical o) =>
      dsimp only [ofOperation, exactlyAll]
      split <;> rfl
    | .binary (.comparison o) =>
      have hmode : ¬(Mode.exact = .tolerant ∧ left = some .numeric) := by simp
      dsimp only [ofOperation, exactlyAll]
      rw [if_neg hmode]
      split <;> rfl
    | .binary (.arithmetic o) | .binary (.shift o) | .negate | .call f => rfl
  all_goals
    match op with
    | .binary (.logical o) | .binary (.comparison o) | .binary (.arithmetic o)
    | .binary (.shift o) | .negate | .call f => rfl

mutual

/-- The exact program of a tree is its tolerant program made exact. -/
theorem ofNode_exact (table : ParameterTable) (n : Node) :
    ofNode .exact table n = (ofNode .tolerant table n).map exactly := by
  match n with
  | .constant v s => rfl
  | .parameter name producer s ts =>
    rw [ofNode, ofNode]
    split
    · rfl
    · split <;> rfl
  | .operation op xs s ts =>
    rw [ofNode, ofNode]
    split
    · rfl
    · rw [ofNodes_exact table xs]
      cases ofNodes .tolerant table xs with
      | error e => rfl
      | ok cs =>
        exact congrArg Except.ok (exactly_ofOperation op ts.single? _ cs).symm

theorem ofNodes_exact (table : ParameterTable) (xs : List Node) :
    ofNodes .exact table xs = (ofNodes .tolerant table xs).map exactlyAll := by
  match xs with
  | [] => rfl
  | x :: xs =>
    rw [ofNodes, ofNodes, ofNode_exact table x, ofNodes_exact table xs]
    cases ofNode .tolerant table x with
    | error e => rfl
    | ok c =>
      cases ofNodes .tolerant table xs <;> rfl

end

/-- An operation that compares no numbers has the same code in both modes. -/
theorem ofOperation_of_not_comparesNumbers {op : Operation} {xs : List Node} {s : Span}
    {ts : TypeSet} (h : ¬(Node.operation op xs s ts).ComparesNumbers) (cs : List Code) :
    ofOperation .tolerant op ts.single? (xs.head?.bind Node.type?) cs =
      ofOperation .exact op ts.single? (xs.head?.bind Node.type?) cs := by
  rcases ofOperation_cases .tolerant op ts.single? (xs.head?.bind Node.type?) cs with
    htolerant | ⟨o, l, r, rfl, rfl, ht, htolerant⟩ | ⟨o, l, r, rfl, -, -, hleft, -⟩
  · rcases ofOperation_cases .exact op ts.single? (xs.head?.bind Node.type?) cs with
      hexact | ⟨o, l, r, rfl, rfl, ht, hexact⟩ | ⟨_, _, _, _, _, hmode, _⟩
    · rw [htolerant, hexact]
    · rw [hexact, ofOperation, if_pos ht]
    · cases hmode
  · rw [htolerant, ofOperation, if_pos ht]
  · obtain ⟨x, hx, htype⟩ := Option.bind_eq_some_iff.mp hleft
    rw [Node.type?, TypeSet.single?_eq_some_iff] at htype
    have hmem : x.types ∈ xs.map Node.types := List.mem_map_of_mem (List.mem_of_head? hx)
    rw [htype] at hmem
    exact absurd hmem h

mutual

/-- A tree that compares no numbers has one program for both modes. -/
theorem ofNode_of_not_comparesNumbers (table : ParameterTable) (n : Node)
    (h : ∀ m : Node, m.Subtree n → ¬m.ComparesNumbers) :
    ofNode .tolerant table n = ofNode .exact table n := by
  match n with
  | .constant v s => rfl
  | .parameter name producer s ts => rw [ofNode, ofNode]
  | .operation op xs s ts =>
    rw [ofNode, ofNode, ofNodes_of_not_comparesNumbers table xs
      fun x hx m hm => h m (.operand hx hm)]
    simp only [ofOperation_of_not_comparesNumbers (h _ .refl)]

theorem ofNodes_of_not_comparesNumbers (table : ParameterTable) (xs : List Node)
    (h : ∀ x ∈ xs, ∀ m : Node, m.Subtree x → ¬m.ComparesNumbers) :
    ofNodes .tolerant table xs = ofNodes .exact table xs := by
  match xs with
  | [] => rfl
  | x :: xs =>
    rw [ofNodes, ofNodes, ofNode_of_not_comparesNumbers table x (h x List.mem_cons_self),
      ofNodes_of_not_comparesNumbers table xs fun y hy => h y (List.mem_cons_of_mem _ hy)]

end

end Code

namespace Analysis

/-- The programs of an analyzed tree differ in comparisons of numbers alone. The exact one is the
tolerant one with these made exact; whatever the slots are, it yields the same value or error and
asks the same producers under any two tolerances. If the tree compares no numbers, the tolerant
program does all that as the exact one does. -/
theorem programs_differ_in_comparisons {e : Expr} {x : Extraction} {source : String}
    {table : ParameterTable} {formatters : Formatters} {a : Analysis}
    (h : ofExpr e x source (.ofTable table) formatters = .ok a) :
    ∃ exact tolerant, Code.ofNode .exact a.parameters a.root = .ok exact ∧
      Code.ofNode .tolerant a.parameters a.root = .ok tolerant ∧ exact = tolerant.exactly ∧
      ∀ (slots : List Slot) (formatters : Formatters) (t t' : Tolerance) (history : History),
        (exact.run ⟨slots, t, formatters⟩).run history =
          (exact.run ⟨slots, t', formatters⟩).run history ∧
        ((∀ m : Node, m.Subtree a.root → ¬m.ComparesNumbers) →
          (tolerant.run ⟨slots, t, formatters⟩).run history =
            (exact.run ⟨slots, t', formatters⟩).run history) := by
  have hcomplete := ofExpr_complete (Registry.distinct_ofTable table) (Registry.used_ofTable table) h
  obtain ⟨tolerant, htolerant⟩ := hcomplete.code .tolerant
  have hexact : Code.ofNode .exact a.parameters a.root = .ok tolerant.exactly := by
    rw [Code.ofNode_exact, htolerant]
    rfl
  refine ⟨tolerant.exactly, tolerant, hexact, htolerant, rfl, fun slots fs t t' history => ⟨?_, ?_⟩⟩
  · rw [Code.run_exactly tolerant slots fs t t']
  · intro hnumbers
    have hsame := Code.ofNode_of_not_comparesNumbers a.parameters a.root hnumbers
    rw [hexact, htolerant] at hsame
    rw [Code.run_exactly tolerant slots fs t' t, ← Except.ok.inj hsame]

/-- How `s < "b"` is read. -/
def stringComparison : Expr :=
  .binary (.comparison .lt) (.name "s" ⟨0, 1⟩) (.name "__const0" ⟨5, 13⟩) ⟨0, 13⟩

/-- A comparison of strings comes out the same under every tolerance. -/
theorem programs_differ_in_comparisons_strings :
    ∃ a exact tolerant,
      ofExpr stringComparison (Extraction.ofText {} "s < \"b\"") "s < \"b\"" (.ofTable []) [] =
        .ok a ∧
      Code.ofNode .exact a.parameters a.root = .ok exact ∧
      Code.ofNode .tolerant a.parameters a.root = .ok tolerant ∧
      ∀ (slots : List Slot) (formatters : Formatters) (t t' : Tolerance) (history : History),
        (tolerant.run ⟨slots, t, formatters⟩).run history =
          (exact.run ⟨slots, t', formatters⟩).run history := by
  have h : ofExpr stringComparison (Extraction.ofText {} "s < \"b\"") "s < \"b\"" (.ofTable []) [] =
      .ok ⟨.operation (.binary (.comparison .lt))
          [.parameter "s" false ⟨0, 1⟩ (.only .string), .constant (.string "b") ⟨4, 7⟩] ⟨0, 7⟩
          (.only .boolean), [⟨"s", .string, .unset, false, 0⟩]⟩ := by
    cbv
  obtain ⟨exact, tolerant, hexact, htolerant, -, hruns⟩ := programs_differ_in_comparisons h
  refine ⟨_, exact, tolerant, h, hexact, htolerant, fun slots fs t t' history => ?_⟩
  refine (hruns slots fs t t' history).2 fun m hm => ?_
  rcases hm with _ | ⟨hx, hm⟩
  · simp [Node.ComparesNumbers, Node.types, Value.type, TypeSet.only]
  · simp only [List.mem_cons, List.not_mem_nil, or_false] at hx
    rcases hx with rfl | rfl <;> cases hm <;> exact id

end Analysis
end TolerantExpr
