import TolerantExpr.Proofs.Evaluation.Meaning

/-!
# When producers are asked

A producer that is given for a plain parameter is asked once, while the arguments are bound, from
the first slot to the last. A producer parameter asks its producer at every use that evaluation
comes to: at all of them from left to right, but for those in the right operand of a Boolean `&`
or `|` that the left one decides.
-/

namespace TolerantExpr

def Argument.isProducer : Argument → Bool
  | value _ => false
  | producer _ => true

def Slot.isAsked : Slot → Bool
  | known _ => false
  | asked _ _ => true

/-- Whether a producer is given for a parameter. -/
def Finder.hosts (find : Finder) (slot : Nat) (p : FixedParameter) : Bool :=
  (find slot p).any Argument.isProducer

/-- Arguments by position. -/
def Finder.inOrder (arguments : List Argument) : Finder := fun slot _ => arguments[slot]?

namespace ParameterTable

/-- The slots of plain parameters that producers are given for, in order. -/
def snapshots (table : ParameterTable) (find : Finder) : List Nat :=
  (table.zipIdx.filter fun p => !p.1.producer && find.hosts p.2 p.1).map Prod.snd

/-- The slot of a producer parameter that a producer is given for. -/
def asked? (table : ParameterTable) (find : Finder) (name : String) : Option Nat :=
  (table.slot? name).filter fun i => table[i]?.any fun p => p.producer && find.hosts i p

variable {table : ParameterTable} {find : Finder} {i : Nat}

theorem mem_snapshots_iff : i ∈ table.snapshots find ↔
    ∃ p, table[i]? = some p ∧ p.producer = false ∧ find.hosts i p = true := by
  simp [snapshots, List.mem_zipIdx_iff_getElem?]

/-- No slot comes twice, nor a later one first. -/
theorem sorted_snapshots : (table.snapshots find).Pairwise (· < ·) := by
  refine List.Pairwise.sublist (List.filter_sublist.map Prod.snd) ?_
  rw [List.zipIdx_map_snd]
  exact List.pairwise_lt_range'

theorem producer_of_asked? {name : String} (h : table.asked? find name = some i) :
    ∃ p, table[i]? = some p ∧ p.producer = true := by
  obtain ⟨-, hany⟩ := Option.filter_eq_some_iff.mp h
  cases hp : table[i]? with
  | none =>
    rw [hp] at hany
    cases hany
  | some p =>
    rw [hp, Option.any_some, Bool.and_eq_true] at hany
    exact ⟨p, rfl, hany.1⟩

end ParameterTable

/-! ### Binding -/

section Binding

variable {find : Finder} {history : History}

theorem FixedParameter.bind_asks (p : FixedParameter) (i : Nat) (a : Argument) :
    Meets (p.bind i a) history
      (fun s after => s.isAsked = (p.producer && a.isProducer) ∧
        after = history ++ if !p.producer && a.isProducer then [i] else [])
      fun _ _ => True := by
  have hvalue : ∀ (v : Value) (before : History),
      Meets (bind.liftExcept (p.bindValue v)) before
        (fun s after => s.isAsked = false ∧ after = before) fun _ _ => True := by
    intro v before
    unfold Meets bind.liftExcept bindValue
    cases p.accept v with
    | ok w => exact ⟨rfl, rfl⟩
    | error misfit => cases misfit <;> trivial
  cases a with
  | value v =>
    simp only [Argument.isProducer, Bool.and_false, Bool.false_eq_true, if_false, List.append_nil]
    exact hvalue v history
  | producer host =>
    rw [bind]
    cases hp : p.producer with
    | true => exact meets_pure ⟨rfl, (List.append_nil _).symm⟩
    | false =>
      have hask : Meets (ExceptT.adapt CallError.evaluation (host.ask i)) history
          (fun _ after => after = history ++ [i]) fun _ _ => True := by
        unfold Meets
        rw [Run.run_adapt, Producer.ask_run]
        cases host history <;> trivial
      refine hask.bind fun v after hafter => ?_
      subst hafter
      exact hvalue v _

/-- Binding asks the producers of plain parameters, one after the other. What is left to ask later
are the producers of producer parameters. -/
theorem bindAll_asks (i : Nat) (ps : List FixedParameter) :
    Meets (bindAll find i ps) history
      (fun slots after =>
        slots.map Slot.isAsked = (ps.zipIdx i).map (fun p => p.1.producer && find.hosts p.2 p.1) ∧
        after = history ++
          ((ps.zipIdx i).filter fun p => !p.1.producer && find.hosts p.2 p.1).map Prod.snd)
      fun _ _ => True := by
  induction ps generalizing i history with
  | nil => exact meets_pure ⟨rfl, (List.append_nil _).symm⟩
  | cons p ps ih =>
    rw [bindAll]
    cases ha : find i p with
    | none => exact meets_throw trivial
    | some a =>
      have hhosts : find.hosts i p = a.isProducer := by
        rw [Finder.hosts, ha, Option.any_some]
      refine (p.bind_asks i a).bind fun s after hs => ?_
      obtain ⟨hasked, hafter⟩ := hs
      refine (ih (i + 1)).bind fun slots last hslots => meets_pure ?_
      obtain ⟨haskeds, hlast⟩ := hslots
      rw [List.zipIdx_cons, List.map_cons, List.map_cons, haskeds, hasked, hhosts]
      refine ⟨rfl, ?_⟩
      rw [hlast, hafter, List.filter_cons, hhosts, List.append_assoc]
      split <;> rfl

/-- What a call that binds its arguments by position has done by then. -/
theorem ParameterTable.bindInOrder_asks {table : ParameterTable} {arguments : List Argument}
    {slots : List Slot} {after : History}
    (h : (table.bindInOrder arguments).run history = (.ok slots, after)) :
    SlotsFit table (Finder.inOrder arguments) slots ∧
      slots.map Slot.isAsked = table.zipIdx.map
        (fun p => p.1.producer && (Finder.inOrder arguments).hosts p.2 p.1) ∧
      after = history ++ table.snapshots (.inOrder arguments) := by
  have hall : (bindAll (Finder.inOrder arguments) 0 table).run history = (.ok slots, after) := by
    unfold bindInOrder at h
    split at h
    · exact h
    · cases h
  have hfits : Meets (bindAll (Finder.inOrder arguments) 0 table) history _ _ :=
    slotsFit_of_bindAll history
  have hasks : Meets (bindAll (Finder.inOrder arguments) 0 table) history _ _ :=
    bindAll_asks 0 table
  unfold Meets at hfits hasks
  rw [hall] at hfits hasks
  exact ⟨hfits, hasks⟩

end Binding

/-! ### Evaluation -/

namespace Run

variable {ε α β : Type}

/-- What comes after a computation that ends with a value. -/
def onward (m : Run ε α) (k : α → History → List β) (history : History) : List β :=
  match m.run history with
  | (.ok a, after) => k a after
  | (.error _, _) => []

/-- A computation that adds to the history the slots that some of the names ask for, whether it
fails or not. -/
def Asks (asked? : String → Option Nat) (m : Run ε α) (names : History → List String) : Prop :=
  ∀ history, (m.run history).2 = history ++ (names history).filterMap asked?

variable {asked? : String → Option Nat} {m : Run ε α} {k : α → Run ε β}
  {names : History → List String} {later : α → History → List String}

theorem asks_ofExcept (r : Except ε α) : Asks asked? (ofExcept r) fun _ => [] :=
  fun history => (List.append_nil history).symm

theorem Asks.bind (hm : Asks asked? m names) (hk : ∀ a, Asks asked? (k a) (later a)) :
    Asks asked? (m >>= k) fun history => names history ++ m.onward later history := by
  intro history
  have h := hm history
  rw [run_bind, List.filterMap_append, ← List.append_assoc]
  unfold onward
  rcases hrun : m.run history with ⟨e | a, after⟩ <;> rw [hrun] at h <;> dsimp only at h ⊢
  · rw [h, List.filterMap_nil, List.append_nil]
  · rw [hk a after, h]

theorem onward_nil (history : History) : m.onward (fun _ _ => ([] : List β)) history = [] := by
  unfold onward
  rcases m.run history with ⟨e | a, after⟩ <;> rfl

end Run

namespace Node

mutual

/-- The uses of parameters that the evaluation of a tree comes to, from left to right: all of them,
but for those in the right operand of `&` or `|` if the value of the left one decides. -/
def reached (table : ParameterTable) (scope : Scope) : Node → History → List String
  | constant _ _, _ => []
  | parameter name _ _ _, _ => [name]
  | operation (.binary (.logical op)) [l, r] _ _, history =>
    l.reached table scope history ++ (l.evaluate table scope).onward
      (fun v after => if op.decides v then [] else r.reached table scope after) history
  | operation _ xs _ _, history => reachedAll table scope xs history

def reachedAll (table : ParameterTable) (scope : Scope) : List Node → History → List String
  | [], _ => []
  | x :: xs, history =>
    x.reached table scope history ++ (x.evaluate table scope).onward
      (fun _ after => reachedAll table scope xs after) history

end

/-- The slot that a use of a name asks, from slots that are bound. -/
def slotAsked? (table : ParameterTable) (scope : Scope) (name : String) : Option Nat :=
  (table.slot? name).filter fun i => scope.slots[i]?.any Slot.isAsked

variable {table : ParameterTable} {scope : Scope}

theorem parameter_asks (name : String) (producer : Bool) (s : Span) (ts : TypeSet) :
    Run.Asks (slotAsked? table scope) ((parameter name producer s ts).evaluate table scope)
      fun _ => [name] := by
  intro history
  rw [List.filterMap_cons, List.filterMap_nil, slotAsked?, evaluate]
  cases table.slot? name with
  | none => exact (List.append_nil history).symm
  | some slot =>
    dsimp only
    rw [Scope.argument, Option.filter_some]
    cases scope.slots[slot]? with
    | none => exact (List.append_nil history).symm
    | some bound =>
      cases bound with
      | known v => exact (List.append_nil history).symm
      | asked host p =>
        dsimp only
        rw [Slot.read, run_bind, Producer.ask_run]
        cases host history with
        | error e => rfl
        | ok v =>
          dsimp only
          cases p.accept v with
          | ok w => rfl
          | error misfit => cases misfit <;> rfl

theorem inTurn_asks {xs : List Node}
    (ih : ∀ x ∈ xs, Run.Asks (slotAsked? table scope) (x.evaluate table scope)
      (x.reached table scope)) :
    Run.Asks (slotAsked? table scope) (Run.inTurn (evaluateAll table scope xs))
      (reachedAll table scope xs) := by
  induction xs with
  | nil => exact Run.asks_ofExcept (.ok [])
  | cons x xs ihs =>
    rw [List.forall_mem_cons] at ih
    rw [evaluateAll, Run.inTurn]
    have hrest : ∀ v : Value, Run.Asks (slotAsked? table scope) _ _ := fun v =>
      (ihs ih.2).bind fun vs => Run.asks_ofExcept (.ok (v :: vs) : Except EvalError _)
    simp only [Run.onward_nil, List.append_nil] at hrest
    exact ih.1.bind hrest

/-- The application of an operation to its operands asks nothing more. -/
theorem apply_asks (op : Operation) {xs : List Node}
    (ih : ∀ x ∈ xs, Run.Asks (slotAsked? table scope) (x.evaluate table scope)
      (x.reached table scope)) :
    Run.Asks (slotAsked? table scope) (do
      let vs ← Run.inTurn (evaluateAll table scope xs)
      ofExcept (op.apply scope.formatters vs)) (reachedAll table scope xs) := by
  have h := (inTurn_asks ih).bind fun vs => Run.asks_ofExcept (op.apply scope.formatters vs)
  simp only [Run.onward_nil, List.append_nil] at h
  exact h

theorem operation_asks {op : Operation} {xs : List Node} (s : Span) (ts : TypeSet)
    (ih : ∀ x ∈ xs, Run.Asks (slotAsked? table scope) (x.evaluate table scope)
      (x.reached table scope)) :
    Run.Asks (slotAsked? table scope) ((operation op xs s ts).evaluate table scope)
      ((operation op xs s ts).reached table scope) := by
  match op, xs with
  | .binary (.logical o), [l, r] =>
    have hl := ih l (by simp)
    have hr := ih r (by simp)
    rw [evaluate]
    refine hl.bind fun v => (?_ : Run.Asks (slotAsked? table scope) _ fun after =>
      if o.decides v then [] else r.reached table scope after)
    split
    · exact Run.asks_ofExcept (.ok v)
    · have h := hr.bind fun w => Run.asks_ofExcept (Evaluation.logical o v w)
      simp only [Run.onward_nil, List.append_nil] at h
      exact h
  | .binary (.comparison o), [l, r] =>
    have hl := ih l (by simp)
    have hr := ih r (by simp)
    rw [evaluate]
    exact hl.bind fun v => hr.bind fun w => Run.asks_ofExcept _
  | .binary (.logical o), [] | .binary (.logical o), [_] | .binary (.logical o), _ :: _ :: _ :: _
  | .binary (.comparison o), [] | .binary (.comparison o), [_]
  | .binary (.comparison o), _ :: _ :: _ :: _ | .binary (.arithmetic o), _ | .binary (.shift o), _
  | .negate, _ | .call f, _ =>
    rw [evaluate]
    exact apply_asks _ ih

/-- Evaluation asks the producers of the uses that it comes to. -/
theorem evaluate_asks (n : Node) :
    Run.Asks (slotAsked? table scope) (n.evaluate table scope) (n.reached table scope) := by
  induction n with
  | constant v s => exact Run.asks_ofExcept (.ok v)
  | parameter name producer s ts => exact parameter_asks name producer s ts
  | operation op xs s ts ih => exact operation_asks s ts ih

end Node

/-! ### Calls -/

theorem Node.slotAsked?_eq_asked? {table : ParameterTable} {find : Finder} {scope : Scope}
    (h : scope.slots.map Slot.isAsked =
      table.zipIdx.map fun p => p.1.producer && find.hosts p.2 p.1) :
    Node.slotAsked? table scope = table.asked? find := by
  funext name
  rw [slotAsked?, ParameterTable.asked?]
  congr 1
  funext i
  have hi := congrArg (fun l => l[i]?) h
  simp only [List.getElem?_map, List.getElem?_zipIdx, Option.map_map, Nat.zero_add] at hi
  cases hs : scope.slots[i]? <;> cases hp : table[i]? <;> rw [hs, hp] at hi
  · rfl
  · cases hi
  · cases hi
  · exact Option.some.inj hi

namespace Engine

variable {engine : Engine} {source : String} {seed : ParameterTable} {c : Compiled}

/-- A call with the wrong number of arguments asks no producer. One that yields a value first binds
its arguments, which asks the producers of plain parameters, each once and in the order of the
slots; what it asks from then on are the producers of the producer parameters among the uses that
the evaluation of the text comes to. -/
theorem call_asks (h : (engine.compileWith source seed).1 = .ok c) :
    ∃ e, engine.parse source = .ok e ∧
      ∀ (t : Tolerance) (arguments : List Argument) (history : History),
        (arguments.length ≠ c.parameters.length → (c.call t arguments).run history =
          (.error (.argumentCount c.parameters.length arguments.length), history)) ∧
        ∀ v after, (c.call t arguments).run history = (.ok v, after) → ∃ slots bound,
          bound = history ++ c.parameters.snapshots (.inOrder arguments) ∧
          (c.parameters.bindInOrder arguments).run history = (.ok slots, bound) ∧
          ((e.outline (engine.extract source)).evaluate c.parameters
            ⟨slots, t, c.formatters⟩).run bound = (.ok v, after) ∧
          after = bound ++ ((e.outline (engine.extract source)).reached c.parameters
            ⟨slots, t, c.formatters⟩ bound).filterMap (c.parameters.asked? (Finder.inOrder arguments)) ∧
          ∀ i p, c.parameters[i]? = some p → p.producer = false →
            (Finder.inOrder arguments).hosts i p = true → after.count i = history.count i + 1 := by
  rw [compileWith, count_fst] at h
  obtain ⟨e, he, hvalue⟩ := runCode_eq_evaluate (Registry.distinct_ofTable seed) h
  refine ⟨e, he, fun t arguments history => ⟨fun hcount => ?_, fun v after hcall => ?_⟩⟩
  · unfold Compiled.call ParameterTable.bindInOrder
    rw [if_neg hcount]
    rfl
  unfold Compiled.call at hcall
  rw [run_bind] at hcall
  rcases hbind : (c.parameters.bindInOrder arguments).run history with ⟨err | slots, bound⟩ <;>
    rw [hbind] at hcall
  · cases hcall
  dsimp only at hcall
  obtain ⟨hfits, hslots, hbound⟩ := ParameterTable.bindInOrder_asks hbind
  rw [hvalue t _ slots hfits, Run.run_adapt] at hcall
  have htree : ((e.outline (engine.extract source)).evaluate c.parameters
      ⟨slots, t, c.formatters⟩).run bound = (.ok v, after) := by
    rw [Prod.mk.injEq, except_mapError_eq_ok_iff] at hcall
    exact Prod.ext hcall.1 hcall.2
  have hasks : Run.Asks (Node.slotAsked? c.parameters ⟨slots, t, c.formatters⟩) _ _ :=
    (e.outline (engine.extract source)).evaluate_asks
  have hafter := hasks bound
  rw [htree, Node.slotAsked?_eq_asked? hslots] at hafter
  refine ⟨slots, bound, hbound, rfl, htree, hafter, fun i p hp hplain hhosts => ?_⟩
  dsimp only at hafter
  have honce : (c.parameters.snapshots (.inOrder arguments)).count i = 1 :=
    List.count_eq_one_of_mem (ParameterTable.sorted_snapshots.imp Nat.ne_of_lt)
      (ParameterTable.mem_snapshots_iff.mpr ⟨p, hp, hplain, hhosts⟩)
  have hlater : ∀ names : List String,
      (names.filterMap (c.parameters.asked? (Finder.inOrder arguments))).count i = 0 := by
    intro names
    rw [List.count_eq_zero, List.mem_filterMap]
    rintro ⟨name, -, hname⟩
    obtain ⟨q, hq, hproducer⟩ := ParameterTable.producer_of_asked? hname
    obtain rfl := Option.some.inj (hp.symm.trans hq)
    rw [hplain] at hproducer
    cases hproducer
  rw [hafter, hbound, List.count_append, List.count_append, honce, hlater]

/-- A producer for `n` and one for `f` that answers with false first. -/
def hostsOfCall : List Argument :=
  [.producer fun _ => .ok (.int 1), .producer fun history => .ok (.boolean (history.length = 2))]

/-- As `n` is positive and the first answer for `f` is false, `f` is asked again. -/
theorem call_asks_again :
    ∃ c e, (({ options := {} } : Engine).compileWith "n > 0 & f() | f()" []).1 = .ok c ∧
      ({ options := {} } : Engine).parse "n > 0 & f() | f()" = .ok e ∧
      (c.call .exact hostsOfCall).run [] = (.ok (.boolean true), [0, 1, 1]) ∧
      ∃ slots bound,
        bound = c.parameters.snapshots (.inOrder hostsOfCall) ∧
        (c.parameters.bindInOrder hostsOfCall).run [] = (.ok slots, bound) ∧
        [0, 1, 1] = bound ++ ((e.outline (({ options := {} } : Engine).extract
          "n > 0 & f() | f()")).reached c.parameters ⟨slots, .exact, c.formatters⟩ bound).filterMap
            (c.parameters.asked? (.inOrder hostsOfCall)) := by
  have hcall : ((({ options := {} } : Engine).compileWith "n > 0 & f() | f()" []).1.map fun c =>
      (c.call .exact hostsOfCall).run []) = .ok (.ok (.boolean true), [0, 1, 1]) := by cbv
  cases h : (({ options := {} } : Engine).compileWith "n > 0 & f() | f()" []).1 with
  | ok c =>
    rw [h] at hcall
    obtain ⟨e, he, hcalls⟩ := call_asks h
    obtain ⟨slots, bound, hbound, hbind, -, hasked, -⟩ :=
      (hcalls .exact hostsOfCall []).2 _ _ (Except.ok.inj hcall)
    exact ⟨c, e, rfl, he, Except.ok.inj hcall, slots, bound, hbound, hbind, hasked⟩
  | error failure =>
    rw [h] at hcall
    cases hcall

end Engine
end TolerantExpr
