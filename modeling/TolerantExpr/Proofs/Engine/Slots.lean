import TolerantExpr.Proofs.Evaluation.Handover
import TolerantExpr.Proofs.Typing.Tables

/-!
# Slots of arguments

A caller can tell the slot of every argument from the text and the table that it was compiled with:
the parameters of the table that the text uses come first, in the order of the table, and then the
other names that it uses, in the order in which they come first. Both programs read every parameter
from its slot.
-/

namespace TolerantExpr

namespace Code

mutual

/-- The reads of parameters in a program, from left to right, each with its slot and its name. -/
def reads : Code → List (Nat × String)
  | constant _ => []
  | argument slot name => [(slot, name)]
  | operation _ operands => readsAll operands
  | shortCircuit _ left right => left.reads ++ right.reads
  | tolerant _ left right => left.reads ++ right.reads

def readsAll : List Code → List (Nat × String)
  | [] => []
  | c :: cs => c.reads ++ readsAll cs

end

/-- Whatever the code of an operation is, it reads what its operands read. -/
theorem reads_ofOperation (mode : Mode) (op : Operation) (type left : Option ValueType)
    (cs : List Code) : (ofOperation mode op type left cs).reads = readsAll cs := by
  rcases ofOperation_cases mode op type left cs with h | ⟨o, l, r, -, rfl, -, h⟩ |
    ⟨o, l, r, -, rfl, -, -, h⟩ <;> rw [h]
  · rw [reads]
  · simp only [reads, readsAll, List.append_nil]
  · simp only [reads, readsAll, List.append_nil]

theorem names_getElem?_of_slot? {table : ParameterTable} {name : String} {slot : Nat}
    (h : table.slot? name = some slot) : table.names[slot]? = some name := by
  obtain ⟨hlt, hname, -⟩ := List.findIdx?_eq_some_iff_getElem.mp h
  rw [decide_eq_true_eq] at hname
  rw [ParameterTable.names, List.getElem?_map, List.getElem?_eq_getElem hlt, Option.map_some, hname]

/-- Code reads the references of its tree, one for one, each from the place of its name. -/
def ReadsOf (table : ParameterTable) (names : List String) (reads : List (Nat × String)) : Prop :=
  reads.map Prod.snd = names ∧ ∀ d ∈ reads, table.names[d.1]? = some d.2

theorem readsOf_all {mode : Mode} {table : ParameterTable} {xs : List Node} {cs : List Code}
    (ih : ∀ x ∈ xs, ∀ c, ofNode mode table x = .ok c → ReadsOf table x.names c.reads)
    (h : List.Forall₂ (fun x c => ofNode mode table x = .ok c) xs cs) :
    ReadsOf table (Node.namesAll xs) (readsAll cs) := by
  induction h with
  | nil => exact ⟨rfl, by simp [readsAll]⟩
  | @cons x c xs cs hc _ ihs =>
    obtain ⟨hnames, hslots⟩ := ih x List.mem_cons_self c hc
    obtain ⟨hnames', hslots'⟩ := ihs fun y hy => ih y (List.mem_cons_of_mem _ hy)
    refine ⟨?_, ?_⟩
    · rw [readsAll, List.map_append, hnames, hnames', Node.namesAll]
    · rw [readsAll]
      exact List.forall_mem_append.mpr ⟨hslots, hslots'⟩

theorem readsOf_ofNode {mode : Mode} {table : ParameterTable} {n : Node} (hn : n.Resolved) {c : Code}
    (h : ofNode mode table n = .ok c) : ReadsOf table n.names c.reads := by
  induction hn generalizing c with
  | constant v s =>
    obtain rfl := Except.ok.inj h
    exact ⟨rfl, by simp [reads]⟩
  | parameter name producer s t =>
    obtain ⟨slot, hslot, rfl⟩ := ofNode_parameter_eq_ok_iff.mp h
    exact ⟨rfl, List.forall_mem_singleton.mpr (names_getElem?_of_slot? hslot)⟩
  | operation s ho types operands ih =>
    obtain ⟨t, cs, -, hcs, rfl⟩ := ofNode_operation_eq_ok_iff.mp h
    rw [reads_ofOperation, Node.names]
    exact readsOf_all (fun x hx c hc => ih x hx hc) (ofNodes_eq_ok_iff.mp hcs)

end Code

namespace Engine

open Analysis

variable {engine : Engine} {source : String} {seed : ParameterTable} {c : Compiled}

/-- To compile without a table is to compile with an empty one. -/
theorem compile_eq_compileWith (engine : Engine) (source : String) :
    engine.compile source = engine.compileWith source [] := rfl

/-- The table of a compiled expression begins with the parameters of the given table that the text
uses, in their order and with their types and uses, and goes on with the other names that the text
uses in the order in which they come first. Names are unique, and the order of each parameter is
its position. From there both programs read it, at each of its uses. -/
theorem compileWith_slots (hseed : seed.Lawful) (h : (engine.compileWith source seed).1 = .ok c) :
    ∃ e, engine.parse source = .ok e ∧
      Seeded (e.uses (engine.extract source)) seed c.parameters ∧
      ∀ code ∈ [c.exact, c.tolerant],
        code.reads.map Prod.snd = (e.uses (engine.extract source)).map Prod.fst ∧
        ∀ d ∈ code.reads, c.parameters.names[d.1]? = some d.2 := by
  rw [compileWith, count_fst] at h
  obtain ⟨e, a, he, ha, hparameters, hexact, htolerant, -⟩ := exists_stages_of_compileText h
  have hresolved := (ofExpr_wellTyped (Registry.distinct_ofTable seed) ha).resolved
  obtain ⟨hnames, -⟩ :=
    names_of_ofExpr (Registry.distinct_ofTable seed) (Registry.used_ofTable seed) ha
  have hreads : ∀ {mode code}, Code.ofNode mode a.parameters a.root = .ok code →
      code.reads.map Prod.snd = (e.uses (engine.extract source)).map Prod.fst ∧
        ∀ d ∈ code.reads, a.parameters.names[d.1]? = some d.2 := by
    intro mode code hcode
    obtain ⟨hread, hslots⟩ := Code.readsOf_ofNode hresolved hcode
    exact ⟨hread.trans hnames, hslots⟩
  rw [hparameters]
  refine ⟨e, he, seeded_of_ofExpr hseed ha, ?_⟩
  simp only [List.forall_mem_cons]
  exact ⟨hreads hexact, hreads htolerant, by simp⟩

/-- With a table of a string `y` and a producer `f`, the producer comes before the new `x`. -/
theorem compileWith_slots_producer :
    ∃ c, (({ options := {} } : Engine).compileWith "x < f() + 1"
        [⟨"y", .string, .unset, false, 0⟩, ⟨"f", .numeric, .unset, true, 1⟩]).1 = .ok c ∧
      ∃ e, ({ options := {} } : Engine).parse "x < f() + 1" = .ok e ∧
        Seeded (e.uses (({ options := {} } : Engine).extract "x < f() + 1"))
          [⟨"y", .string, .unset, false, 0⟩, ⟨"f", .numeric, .unset, true, 1⟩] c.parameters ∧
        ∀ code ∈ [c.exact, c.tolerant],
          code.reads.map Prod.snd =
            (e.uses (({ options := {} } : Engine).extract "x < f() + 1")).map Prod.fst ∧
          ∀ d ∈ code.reads, c.parameters.names[d.1]? = some d.2 := by
  have hok : (({ options := {} } : Engine).compileWith "x < f() + 1"
      [⟨"y", .string, .unset, false, 0⟩, ⟨"f", .numeric, .unset, true, 1⟩]).1.isOk = true := by cbv
  have hseed : ParameterTable.Lawful
      [⟨"y", .string, .unset, false, 0⟩, ⟨"f", .numeric, .unset, true, 1⟩] := by
    refine ⟨by decide, fun i f hf => ?_⟩
    rcases i with _ | _ | i
    · cases hf
      rfl
    · cases hf
      rfl
    · simp at hf
  cases h : (({ options := {} } : Engine).compileWith "x < f() + 1"
      [⟨"y", .string, .unset, false, 0⟩, ⟨"f", .numeric, .unset, true, 1⟩]).1 with
  | ok c => exact ⟨c, rfl, compileWith_slots hseed h⟩
  | error failure =>
    rw [h] at hok
    cases hok

end Engine
end TolerantExpr
