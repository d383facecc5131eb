import TolerantExpr.Proofs.Typing.Analyses
import TolerantExpr.Proofs.Typing.Executions
import TolerantExpr.Proofs.Typing.Records

/-!
# Narrowing comes to an end

A tree and its registry can be narrowed by any sequence of calls on any nodes. Each of the calls
ends; whether it fails or not, it only rules types out, and where no set was empty none becomes
empty. What a call reports is a measure of its progress: after a report of a change the tree is
lighter, and without one the call has changed nothing. So the loops that types are determined by
end for every expression.
-/

namespace TolerantExpr

theorem Registry.possible_of_narrow {r s : Registry} (hr : r.Possible) {name : String}
    {allowed : TypeSet} (h : r.narrow name allowed = .ok s) : s.Possible := by
  obtain ⟨p, -, hne, rfl⟩ := narrow_eq_ok_iff.mp h
  exact possible_put hr hne

theorem Registry.possible_of_narrow_error {r s : Registry} (hr : r.Possible) {name : String}
    {allowed : TypeSet} {e : ParameterError} (h : r.narrow name allowed = .error e s) :
    s.Possible := by
  rcases change_eq_error_iff.mp h with ⟨-, -, rfl⟩ | ⟨p, q, hp, hq, rfl⟩
  · exact hr
  · obtain rfl := OpenParameter.eq_of_narrow_error hq
    exact possible_put hr (hr q (get?_eq_some hp).1)

namespace Node

/-! ### No set is empty -/

/-- No node of the tree has an empty set of types. -/
def Possible (n : Node) : Prop := ∀ m : Node, m.Subtree n → m.types ≠ .empty

section Possible

variable {n : Node} {op : Operation} {xs : List Node} {s : Span} {ts : TypeSet}

theorem possible_parameter {name : String} {producer : Bool} (h : ts ≠ .empty) :
    (parameter name producer s ts).Possible := by
  rintro m ⟨⟩
  exact h

theorem possible_operation_iff :
    (operation op xs s ts).Possible ↔ (∀ x ∈ xs, x.Possible) ∧ ts ≠ .empty := by
  constructor
  · intro h
    exact ⟨fun x hx m hm => h m (.operand hx hm), h _ .refl⟩
  · rintro ⟨hxs, hts⟩ m hm
    cases hm with
    | refl => exact hts
    | operand hx hm => exact hxs _ hx m hm

theorem Possible.withTypes (h : n.Possible) (hts : ts ≠ .empty) : (n.withTypes ts).Possible := by
  cases n with
  | constant v s => exact h
  | parameter name producer s us => exact possible_parameter hts
  | operation op xs s us =>
    exact possible_operation_iff.mpr ⟨(possible_operation_iff.mp h).1, hts⟩

theorem results_viable_ne_empty (h : ¬(viable op xs ts).isEmpty = true) :
    Overload.results (viable op xs ts) ≠ .empty := by
  have hne : viable op xs ts ≠ [] := fun he => h (by rw [he]; rfl)
  obtain ⟨o, ho⟩ := List.exists_mem_of_ne_nil _ hne
  exact TypeSet.ne_empty_iff.mpr ⟨o.result, Overload.has_results.mpr ⟨o, ho, rfl⟩⟩

/-- No node among the subjects of a task has an empty set of types. -/
def Task.Possible : (task : Task) → task.Subject → Prop
  | .stabilize _, n | .restrict _ _, n | .pin _ _, n | .sweep _, n => n.Possible
  | .narrowOperands _ _ _, xs | .sweepAll _, xs => ∀ x ∈ xs, x.Possible

/-- No rule leaves an empty set, not even one that ends with a fault. -/
theorem Executes.possible {task : Task} {r : Registry} {next : Narrowed task.Subject}
    {changed : Bool} (h : Executes task r next changed) (hn : task.Possible task.subject)
    (hr : r.Possible) : task.Possible next.subject ∧ next.registry.Possible := by
  induction h with
  | constant | mismatch | conflict | unchanged | refused => exact ⟨hn, hr⟩
  | unregistered h => exact ⟨hn, Registry.possible_of_narrow_error hr h⟩
  | narrowNil | sweepAllNil => exact ⟨hn, hr⟩
  | parameter h =>
    exact ⟨possible_parameter (Registry.typesOf_of_narrow h).2, Registry.possible_of_narrow hr h⟩
  | stop hos _ _ ih =>
    obtain ⟨hxs, hreg⟩ := ih (possible_operation_iff.mp hn).1 hr
    exact ⟨possible_operation_iff.mpr ⟨hxs, results_viable_ne_empty hos⟩, hreg⟩
  | again hos _ _ _ _ ihxs ih =>
    obtain ⟨hxs, hreg⟩ := ihxs (possible_operation_iff.mp hn).1 hr
    exact ih (possible_operation_iff.mpr ⟨hxs, results_viable_ne_empty hos⟩) hreg
  | narrower hne _ _ ih => exact ih (Possible.withTypes hn hne) hr
  | narrowFault _ _ ih | sweepAllFault _ _ ih =>
    obtain ⟨hx, hxs⟩ := List.forall_mem_cons.mp hn
    obtain ⟨hfirst, hreg⟩ := ih hx hr
    exact ⟨List.forall_mem_cons.mpr ⟨hfirst, hxs⟩, hreg⟩
  | narrowCons _ _ _ ihx ihxs | sweepAllCons _ _ _ ihx ihxs =>
    obtain ⟨hx, hxs⟩ := List.forall_mem_cons.mp hn
    obtain ⟨hfirst, hreg⟩ := ihx hx hr
    obtain ⟨hrest, hreg'⟩ := ihxs hxs hreg
    exact ⟨List.forall_mem_cons.mpr ⟨hfirst, hrest⟩, hreg'⟩
  | pin _ _ ih | sweepConstant _ ih | sweepParameter _ ih => exact ih hn hr
  | sweepFault _ _ ih =>
    obtain ⟨hxs, hts⟩ := possible_operation_iff.mp hn
    obtain ⟨hbelow, hreg⟩ := ih hxs hr
    exact ⟨possible_operation_iff.mpr ⟨hbelow, hts⟩, hreg⟩
  | sweep _ _ _ ihxs ih =>
    obtain ⟨hxs, hts⟩ := possible_operation_iff.mp hn
    obtain ⟨hbelow, hreg⟩ := ihxs hxs hr
    exact ih (possible_operation_iff.mpr ⟨hbelow, hts⟩) hreg

end Possible

/-! ### Calls -/

/-- What can be asked of a node. -/
inductive Call where
  | stabilize
  | restrict (allowed : TypeSet)
  | pin (t : ValueType)
  | sweep

namespace Call

def run : Call → Node → Registry → Narrowed Node
  | stabilize => Node.stabilize
  | restrict allowed => Node.restrict allowed
  | pin t => Node.pin t
  | sweep => Node.sweep

/-- An execution of a call on a node, and whether it reports a change. -/
inductive Executes : Call → Node → Registry → Narrowed Node → Bool → Prop where
  | stabilize {n : Node} {r : Registry} {next : Narrowed Node} {changed : Bool}
    (h : Node.Executes (.stabilize n) r next changed) : Executes stabilize n r next changed
  | restrict {allowed : TypeSet} {n : Node} {r : Registry} {next : Narrowed Node} {changed : Bool}
    (h : Node.Executes (.restrict allowed n) r next changed) :
    Executes (restrict allowed) n r next changed
  | pin {t : ValueType} {n : Node} {r : Registry} {next : Narrowed Node} {changed : Bool}
    (h : Node.Executes (.pin t n) r next changed) : Executes (pin t) n r next changed
  | sweep {n : Node} {r : Registry} {next : Narrowed Node} {changed : Bool}
    (h : Node.Executes (.sweep n) r next changed) : Executes sweep n r next changed

variable {c : Call} {n : Node} {r : Registry} {next : Narrowed Node} {changed : Bool}

theorem exists_executes (c : Call) (n : Node) (hr : r.Distinct) :
    ∃ changed, c.Executes n r (c.run n r) changed := by
  cases c with
  | stabilize => exact (Node.exists_executes (.stabilize n) hr).imp fun _ => .stabilize
  | restrict allowed => exact (Node.exists_executes (.restrict allowed n) hr).imp fun _ => .restrict
  | pin t => exact (Node.exists_executes (.pin t n) hr).imp fun _ => .pin
  | sweep => exact (Node.exists_executes (.sweep n) hr).imp fun _ => .sweep

theorem Executes.spec (h : c.Executes n r next changed) (hr : r.Distinct) :
    next = c.run n r ∧ Reported changed next n := by
  cases h with
  | stabilize h => exact h.spec hr
  | restrict h => exact h.spec hr
  | pin h => exact h.spec hr
  | sweep h => exact h.spec hr

theorem Executes.possible (h : c.Executes n r next changed) (hn : n.Possible) (hr : r.Possible) :
    next.subject.Possible ∧ next.registry.Possible := by
  cases h with
  | stabilize h => exact h.possible hn hr
  | restrict h => exact h.possible hn hr
  | pin h => exact h.possible hn hr
  | sweep h => exact h.possible hn hr

theorem run_le (c : Call) (n : Node) (hr : r.Distinct) :
    (c.run n r).subject ≤ n ∧ (c.run n r).registry ≤ r := by
  cases c with
  | stabilize => exact stabilize_le n hr
  | restrict allowed => exact restrict_le allowed n hr
  | pin t => exact restrict_le (.only t) n hr
  | sweep => exact sweep_le n hr

/-- A call that leaves the node alone leaves the registry alone, if the references have at least
the types of their parameters. -/
theorem registry_run (c : Call) (hr : r.Distinct) (hn : n.Encloses r)
    (hf : (c.run n r).fault = none) (h : (c.run n r).subject = n) : (c.run n r).registry = r := by
  cases c with
  | stabilize =>
    change (Node.stabilize n r).fault = none at hf
    change (Node.stabilize n r).subject = n at h
    change (Node.stabilize n r).registry = r
    cases n with
    | constant v s => rw [Node.stabilize]
    | parameter name producer s ts =>
      have hcovered := hn.coveredBy (.parameter (contains_of_stabilize hf))
      exact (stabilize_parameter_rest hr hcovered.of_parameter.2 hf h).1
    | operation op xs s ts => exact (stabilize_rest hr hf h).1
  | restrict allowed => exact (restrict_rest hr hf h).1
  | pin t => exact (restrict_rest hr hf h).1
  | sweep => exact (sweep_rest n hr (hn.coveredBy (knownTo_of_sweep n hr hf)) hf h).1

end Call

/-- An execution of a call on a node `m` of a tree, and whether it reports a change. -/
inductive Calls (c : Call) (m : Node) (r : Registry) : Node → Narrowed Node → Bool → Prop where
  | here {next : Narrowed Node} {changed : Bool} (h : c.Executes m r next changed) :
    Calls c m r m next changed
  | under {op : Operation} {xs ys : List Node} {x : Node} {s : Span} {ts : TypeSet}
    {next : Narrowed Node} {changed : Bool} (h : Calls c m r x next changed) :
    Calls c m r (operation op (xs ++ x :: ys) s ts)
      ⟨operation op (xs ++ next.subject :: ys) s ts, next.registry, next.fault⟩ changed

namespace Calls

variable {c : Call} {m n : Node} {r : Registry} {next : Narrowed Node} {changed : Bool}

theorem le (h : Calls c m r n next changed) (hr : r.Distinct) :
    next.subject ≤ n ∧ next.registry ≤ r := by
  induction h with
  | here h =>
    obtain ⟨rfl, -⟩ := h.spec hr
    exact c.run_le m hr
  | under _ ih => exact ⟨operation_le_operation ih.1, ih.2⟩

theorem possible (h : Calls c m r n next changed) (hn : n.Possible) (hr : r.Possible) :
    next.subject.Possible ∧ next.registry.Possible := by
  induction h with
  | here h => exact h.possible hn hr
  | under _ ih =>
    obtain ⟨hxs, hts⟩ := possible_operation_iff.mp hn
    rw [List.forall_mem_append, List.forall_mem_cons] at hxs
    obtain ⟨hleft, hx, hright⟩ := hxs
    obtain ⟨hsub, hreg⟩ := ih hx
    refine ⟨possible_operation_iff.mpr ⟨?_, hts⟩, hreg⟩
    exact List.forall_mem_append.mpr ⟨hleft, List.forall_mem_cons.mpr ⟨hsub, hright⟩⟩

theorem reported (h : Calls c m r n next changed) (hr : r.Distinct) :
    Reported changed next n := by
  induction h with
  | here h => exact (h.spec hr).2
  | under _ ih =>
    intro hf
    rw [ih hf, operation_ne_iff]
    simp

theorem registry_eq (h : Calls c m r n next changed) (hr : r.Distinct) (hn : n.Encloses r)
    (hf : next.fault = none) (hsame : next.subject = n) : next.registry = r := by
  induction h with
  | here h =>
    obtain ⟨rfl, -⟩ := h.spec hr
    exact c.registry_run hr hn hf hsame
  | under _ ih =>
    injection hsame with _ hoperands
    exact ih (hn.of_operation _ (by simp)) hf
      (List.cons.inj (List.append_cancel_left hoperands)).1

end Calls

/-- Every call on every node of a tree has an execution. -/
theorem exists_calls (c : Call) {m n : Node} {r : Registry} (hr : r.Distinct) (h : m.Subtree n) :
    ∃ next changed, Calls c m r n next changed := by
  induction h with
  | refl =>
    obtain ⟨changed, hexec⟩ := c.exists_executes m hr
    exact ⟨_, changed, .here hexec⟩
  | operand hx _ ih =>
    obtain ⟨next, changed, hcalls⟩ := ih
    obtain ⟨ys, zs, rfl⟩ := List.append_of_mem hx
    exact ⟨_, changed, .under hcalls⟩

/-- Calls on nodes of a tree one after the other, each where the one before has ended, with or
without a fault. -/
inductive Reaches (start : Labelling) : Labelling → Prop where
  | refl : Reaches start start
  | call {l : Labelling} {c : Call} {m : Node} {next : Narrowed Node} {changed : Bool}
    (h : Reaches start l) (hc : Calls c m l.2 l.1 next changed) :
    Reaches start (next.subject, next.registry)

theorem Reaches.le {start l : Labelling} (h : Reaches start l) (hr : start.2.Distinct) :
    l ≤ start := by
  induction h with
  | refl => exact le_rfl
  | call _ hc ih => exact (Prod.mk_le_mk.mpr (hc.le (Registry.distinct_of_le ih.2 hr))).trans ih

theorem Reaches.possible {start l : Labelling} (h : Reaches start l) (hn : start.1.Possible)
    (hr : start.2.Possible) : l.1.Possible ∧ l.2.Possible := by
  induction h with
  | refl => exact ⟨hn, hr⟩
  | call _ hc ih => exact hc.possible ih.1 ih.2

end Node

/-! ### Determination -/

namespace Analysis

/-- An execution of the loop that types are determined by, and how many defaults it presumes. -/
inductive Determines : Nat → Node → Registry → Except Dispute (Node × Registry) → Prop where
  | fault {k : Nat} {root : Node} {r : Registry} {spread : Narrowed Node} {fault : TypeFault}
    (h : root.Propagates k r spread) (hf : spread.fault = some fault) :
    Determines 0 root r (.error ⟨fault, none⟩)
  | decided {k : Nat} {root : Node} {r : Registry} {spread : Narrowed Node}
    (h : root.Propagates k r spread) (hf : spread.fault = none)
    (hu : spread.registry.firstUndecided? = none) :
    Determines 0 root r (.ok (spread.subject, spread.registry))
  | refused {k : Nat} {root : Node} {r : Registry} {spread : Narrowed Node} {p : OpenParameter}
    {fault : TypeFault} (h : root.Propagates k r spread) (hf : spread.fault = none)
    (hu : spread.registry.firstUndecided? = some p) (hnext : (presume p spread).fault = some fault) :
    Determines 0 root r (.error ⟨fault, some (p.name, presumption p spread.subject)⟩)
  | presumed {k d : Nat} {root : Node} {r : Registry} {spread : Narrowed Node} {p : OpenParameter}
    {out : Except Dispute (Node × Registry)} (h : root.Propagates k r spread)
    (hf : spread.fault = none) (hu : spread.registry.firstUndecided? = some p)
    (hnext : (presume p spread).fault = none)
    (rest : Determines d (presume p spread).subject (presume p spread).registry out) :
    Determines (d + 1) root r out

/-- Every default leaves fewer types in the registry. -/
theorem exists_determines {root : Node} {r : Registry} (hr : r.Distinct) (hroot : root.CoveredBy r) :
    ∃ d ≤ r.weight, Determines d root r (determine root r) := by
  induction hw : r.weight using Nat.strongRecOn generalizing root r with
  | ind w ih =>
    obtain ⟨k, -, hspread⟩ := root.exists_propagates hr
    cases hf : (root.propagate r).fault with
    | some fault =>
      rw [determine_of_fault hf]
      exact ⟨0, Nat.zero_le _, .fault hspread hf⟩
    | none =>
      cases hu : (root.propagate r).registry.firstUndecided? with
      | none =>
        rw [determine_of_decided hf hu]
        exact ⟨0, Nat.zero_le _, .decided hspread hf hu⟩
      | some p =>
        cases hnext : (presume p (root.propagate r)).fault with
        | some fault =>
          rw [determine_of_refused hf hu hnext]
          exact ⟨0, Nat.zero_le _, .refused hspread hf hu hnext⟩
        | none =>
          obtain ⟨-, hreg, hcovered, -, hlt⟩ := presume_spec hr hroot hf hu hnext
          rw [determine_of_presumed hf hu hnext hlt]
          obtain ⟨d, hd, hrest⟩ := ih _ (hw ▸ hlt) (Registry.distinct_of_le hreg hr) hcovered rfl
          exact ⟨d + 1, hw ▸ Nat.lt_of_le_of_lt hd hlt, .presumed hspread hf hu hnext hrest⟩

theorem Determines.eq {d : Nat} {root : Node} {r : Registry}
    {out : Except Dispute (Node × Registry)} (h : Determines d root r out) (hr : r.Distinct)
    (hroot : root.CoveredBy r) : out = determine root r := by
  induction h with
  | fault h hf =>
    obtain rfl := h.eq hr
    exact (determine_of_fault hf).symm
  | decided h hf hu =>
    obtain rfl := h.eq hr
    exact (determine_of_decided hf hu).symm
  | refused h hf hu hnext =>
    obtain rfl := h.eq hr
    exact (determine_of_refused hf hu hnext).symm
  | presumed h hf hu hnext _ ih =>
    obtain rfl := h.eq hr
    obtain ⟨-, hreg, hcovered, -, hlt⟩ := presume_spec hr hroot hf hu hnext
    rw [determine_of_presumed hf hu hnext hlt]
    exact ih (Registry.distinct_of_le hreg hr) hcovered

end Analysis

/-! ### The main result -/

namespace Node

/-- What holds of a tree and its registry after calls on its nodes. -/
structure Narrowing (start l : Labelling) : Prop where
  le : l ≤ start
  possible : l.1.Possible ∧ l.2.Possible
  ends : ∀ (c : Call) (m : Node), m.Subtree l.1 → ∃ next changed, Calls c m l.2 l.1 next changed
  unique : ∀ (c : Call) (m : Node) next changed,
    c.Executes m l.2 next changed → next = c.run m l.2
  progress : ∀ (c : Call) (m : Node) (next : Narrowed Node), Calls c m l.2 l.1 next true →
    next.fault = none → next.subject.weight < l.1.weight
  rest : ∀ (c : Call) (m : Node) (next : Narrowed Node), Calls c m l.2 l.1 next false →
    next.fault = none → l.1.Encloses l.2 → next.subject = l.1 ∧ next.registry = l.2
  sweeps : ∃ k ≤ l.1.weight, Propagates k l.1 l.2 (propagate l.1 l.2)

theorem Reaches.narrowing {start l : Labelling} (h : Reaches start l) (hr : start.2.Distinct)
    (hn : start.1.Possible) (hp : start.2.Possible) : Narrowing start l := by
  have hle := h.le hr
  have hdistinct := Registry.distinct_of_le hle.2 hr
  refine
    { le := hle
      possible := h.possible hn hp
      ends := fun c m hm => exists_calls c hdistinct hm
      unique := fun c m next changed hc => (hc.spec hdistinct).1
      progress := fun c m next hc hf => ?_
      rest := fun c m next hc hf hencloses => ?_
      sweeps := exists_propagates l.1 hdistinct }
  · exact weight_lt_of_le_of_ne (hc.le hdistinct).1 ((hc.reported hdistinct hf).mp rfl)
  · have hsame := (hc.reported hdistinct).eq_of_false hf
    exact ⟨hsame, hc.registry_eq hdistinct hencloses hf hsame⟩

/-- However a tree is narrowed, every call ends, only rules types out and leaves no set empty; and
for every expression, from a new registry or from one that knows a table, the loops that types are
determined by end with what determination gives. -/
theorem narrowing_ends :
    (∀ (n : Node) (r : Registry), r.Distinct → n.Possible → r.Possible →
      ∀ l, Reaches (n, r) l → Narrowing (n, r) l) ∧
    ∀ (e : Expr) (x : Extraction) (formatters : Formatters) (table : ParameterTable) (root : Node)
      (σ : Analysis.State),
      (Analysis.build x formatters e).run { registry := .ofTable table } = (.ok root, σ) →
      (∃ d ≤ σ.registry.weight,
        Analysis.Determines d root σ.registry (Analysis.determine root σ.registry)) ∧
      ∀ d out, Analysis.Determines d root σ.registry out →
        out = Analysis.determine root σ.registry := by
  refine ⟨fun n r hr hn hp l h => h.narrowing hr hn hp, ?_⟩
  intro e x formatters table root σ h
  have hbuilt := Analysis.built_of_run (Registry.distinct_ofTable table) h
  refine ⟨Analysis.exists_determines hbuilt.distinct hbuilt.covered, fun d out hd => ?_⟩
  exact hd.eq hbuilt.distinct hbuilt.covered

/-- Stabilizing `-x` makes `x` a number, and the types of `x` alone are determined by a default. -/
theorem narrowing_ends_negation :
    (∃ l, Reaches (ofOperation .negate [parameter "x" false ⟨1, 2⟩ .full] ⟨0, 2⟩,
        Registry.mention {} "x") l ∧ l.2.typesOf "x" = .only .numeric ∧
      Narrowing (ofOperation .negate [parameter "x" false ⟨1, 2⟩ .full] ⟨0, 2⟩,
        Registry.mention {} "x") l) ∧
    ∃ root σ, (Analysis.build ⟨"x", []⟩ [] (.name "x" ⟨0, 1⟩)).run { registry := .ofTable [] } =
        (.ok root, σ) ∧
      ∃ d ≤ σ.registry.weight,
        Analysis.Determines d root σ.registry (Analysis.determine root σ.registry) := by
  constructor
  · have hr : (Registry.mention {} "x").Distinct :=
      Registry.distinct_mention (r := {}) List.nodup_nil "x"
    have hn : (ofOperation .negate [parameter "x" false ⟨1, 2⟩ .full] ⟨0, 2⟩).Possible :=
      possible_operation_iff.mpr
        ⟨List.forall_mem_singleton.mpr (possible_parameter (by decide)), by decide⟩
    have hp : (Registry.mention {} "x").Possible := by
      refine List.forall_mem_singleton.mpr (by decide : TypeSet.full ≠ .empty)
    obtain ⟨_, h⟩ := Call.exists_executes .stabilize
      (ofOperation .negate [parameter "x" false ⟨1, 2⟩ .full] ⟨0, 2⟩) hr
    have hc : Calls .stabilize _ (Registry.mention {} "x") _ _ _ := .here h
    have hl : Reaches (_, _) _ := .call .refl hc
    exact ⟨_, hl, by cbv, narrowing_ends.1 _ _ hr hn hp _ hl⟩
  · exact ⟨_, _, rfl, (narrowing_ends.2 (.name "x" ⟨0, 1⟩) ⟨"x", []⟩ [] [] _ _ rfl).1⟩

end Node
end TolerantExpr
