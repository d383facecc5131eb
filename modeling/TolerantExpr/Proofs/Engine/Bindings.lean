import TolerantExpr.Proofs.Engine.Producers

/-!
# Arguments by name and by position

The names in a table are unique, so a list of arguments can be handed over by name as well: each
name to the argument at its place. Both ways bind the parameters from the first slot to the last,
ask the same producers, and stop at the first parameter that its argument does not fit. By name, an
argument may also be missing, which stops the binding at the slot of the parameter.
-/

namespace TolerantExpr

/-- Arguments by name. -/
def Finder.byName (find : String → Option Argument) : Finder := fun _ p => find p.name

namespace ParameterTable

variable {table : ParameterTable} {arguments : List Argument} {find : String → Option Argument}

/-- Each name stands for the argument at the place of the parameter. -/
def Assigned (table : ParameterTable) (arguments : List Argument) (find : String → Option Argument) :
    Prop :=
  table.names.map find = arguments.map some

/-- Unique names can stand for any arguments, whatever other names stand for. -/
theorem exists_assigned (h : table.names.Nodup) (hlength : arguments.length = table.length)
    (others : String → Option Argument) :
    ∃ find, table.Assigned arguments find ∧ ∀ name ∉ table.names, find name = others name := by
  refine ⟨fun name => if name ∈ table.names then arguments[table.names.idxOf name]?
    else others name, ?_, fun name hname => if_neg hname⟩
  have hnames : table.names.length = table.length := List.length_map FixedParameter.name
  refine List.ext_getElem (by simp [hnames, hlength]) fun i hi hi' => ?_
  rw [List.length_map] at hi hi'
  rw [List.getElem_map, List.getElem_map, if_pos (List.getElem_mem hi), h.idxOf_getElem i hi]
  exact List.getElem?_eq_getElem hi'

theorem Assigned.length_eq (h : table.Assigned arguments find) : arguments.length = table.length := by
  have hlength := congrArg List.length h
  rw [List.length_map, List.length_map, names, List.length_map] at hlength
  exact hlength.symm

theorem Assigned.find_eq (h : table.Assigned arguments find) {i : Nat} {p : FixedParameter}
    (hp : table[i]? = some p) : find p.name = arguments[i]? := by
  have hget := congrArg (·[i]?) h
  simp only [names, List.getElem?_map, hp, Option.map_some] at hget
  obtain ⟨a, ha, hfind⟩ := Option.map_eq_some_iff.mp hget.symm
  rw [ha, hfind]

end ParameterTable

/-! ### Binding in turn -/

/-- A parameter is not bound: there is no argument for it, or the one there is does not fit. -/
inductive FixedParameter.Refused (find : Finder) (slot : Nat) (p : FixedParameter)
    (history : History) : CallError → History → Prop where
  | missing (h : find slot p = none) : Refused find slot p history (.missing p.name) history
  | unfit {a : Argument} {e : CallError} {after : History} (h : find slot p = some a)
      (hbind : (p.bind slot a).run history = (.error e, after)) : Refused find slot p history e after

/-- Parameters are bound in turn, from a slot on, between two histories. -/
inductive BoundInTurn (find : Finder) : Nat → List FixedParameter → History → History → Prop where
  | nil (slot : Nat) (history : History) : BoundInTurn find slot [] history history
  | cons {slot : Nat} {p : FixedParameter} {ps : List FixedParameter} {a : Argument} {s : Slot}
      {history mid after : History} (h : find slot p = some a)
      (hbind : (p.bind slot a).run history = (.ok s, mid))
      (hrest : BoundInTurn find (slot + 1) ps mid after) :
      BoundInTurn find slot (p :: ps) history after

/-- Binding parameters in turn, from a slot on, stops with the error of the first one that is
refused. -/
def StopsInTurn (find : Finder) (slot : Nat) (ps : List FixedParameter) (history : History)
    (e : CallError) (last : History) : Prop :=
  ∃ before p after mid, ps = before ++ p :: after ∧ BoundInTurn find slot before history mid ∧
    p.Refused find (slot + before.length) mid e last

section Binding

variable {find find' : Finder} {slot : Nat} {ps : List FixedParameter} {history : History}

theorem BoundInTurn.exists_found {after : History} (h : BoundInTurn find slot ps history after)
    {p : FixedParameter} (hp : p ∈ ps) : ∃ i a, find i p = some a := by
  induction h with
  | nil slot history => cases hp
  | cons hfind _ _ ih =>
    rcases List.mem_cons.mp hp with rfl | hp
    · exact ⟨_, _, hfind⟩
    · exact ih hp

theorem stopsInTurn_cons {p : FixedParameter} {a : Argument} {s : Slot} {mid last : History}
    {e : CallError} (h : find slot p = some a) (hbind : (p.bind slot a).run history = (.ok s, mid))
    (hrest : StopsInTurn find (slot + 1) ps mid e last) :
    StopsInTurn find slot (p :: ps) history e last := by
  obtain ⟨before, q, after, mid', rfl, hbound, hrefused⟩ := hrest
  refine ⟨p :: before, q, after, mid', rfl, .cons h hbind hbound, ?_⟩
  rw [List.length_cons, show slot + (before.length + 1) = slot + 1 + before.length by omega]
  exact hrefused

/-- Binding goes from slot to slot, to the end or to the first parameter that is refused. -/
theorem bindAll_inTurn (slot : Nat) (ps : List FixedParameter) (history : History) :
    Meets (bindAll find slot ps) history (fun _ after => BoundInTurn find slot ps history after)
      fun e last => StopsInTurn find slot ps history e last := by
  induction ps generalizing slot history with
  | nil => exact meets_pure (.nil slot history)
  | cons p ps ih =>
    rw [bindAll]
    cases ha : find slot p with
    | none => exact meets_throw ⟨[], p, ps, history, rfl, .nil slot history, .missing ha⟩
    | some a =>
      have hp : Meets (p.bind slot a) history
          (fun s mid => (p.bind slot a).run history = (.ok s, mid))
          fun e last => StopsInTurn find slot (p :: ps) history e last := by
        unfold Meets
        rcases hbind : (p.bind slot a).run history with ⟨e | s, mid⟩
        · exact ⟨[], p, ps, history, rfl, .nil slot history, .unfit ha hbind⟩
        · exact rfl
      refine hp.bind fun s mid hbind => ?_
      have hps := (ih (slot + 1) mid).imp (fun _ _ => BoundInTurn.cons ha hbind)
        fun _ _ => stopsInTurn_cons ha hbind
      exact hps.bind fun slots after hafter => meets_pure hafter

/-- What two finders say of the parameters of a list is all that matters. -/
theorem bindAll_congr (h : ∀ (i : Nat) (p : FixedParameter), ps[i]? = some p →
    find (slot + i) p = find' (slot + i) p) : bindAll find slot ps = bindAll find' slot ps := by
  induction ps generalizing slot with
  | nil => rfl
  | cons p ps ih =>
    have hp : find slot p = find' slot p := h 0 p rfl
    have hps : bindAll find (slot + 1) ps = bindAll find' (slot + 1) ps := by
      refine ih fun i q hq => ?_
      rw [show slot + 1 + i = slot + (i + 1) by omega]
      exact h (i + 1) q hq
    rw [bindAll, bindAll, hp, hps]

end Binding

/-! ### Calls -/

namespace Compiled

variable {c : Compiled} {arguments : List Argument} {find : String → Option Argument}

/-- The same arguments by name and by position: the same computation. -/
theorem callByName_eq_call (h : c.parameters.Assigned arguments find) (t : Tolerance) :
    c.callByName t find = c.call t arguments := by
  have hbind : c.parameters.bindByName find = c.parameters.bindInOrder arguments := by
    rw [ParameterTable.bindByName, ParameterTable.bindInOrder, if_pos h.length_eq]
    refine bindAll_congr fun i p hp => ?_
    rw [Nat.zero_add]
    exact h.find_eq hp
  rw [callByName, call, hbind]

/-- A call by name without an argument for some parameter stops before it evaluates anything. -/
theorem callByName_missing (h : ∃ name ∈ c.parameters.names, find name = none) (t : Tolerance)
    (history : History) :
    ∃ e last, (c.callByName t find).run history = (.error e, last) ∧
      StopsInTurn (.byName find) 0 c.parameters history e last := by
  obtain ⟨name, hname, hnone⟩ := h
  obtain ⟨p, hp, rfl⟩ := List.mem_map.mp hname
  have hturn : Meets (c.parameters.bindByName find) history _ _ :=
    bindAll_inTurn 0 c.parameters history
  unfold Meets at hturn
  rw [callByName, run_bind]
  rcases hrun : (c.parameters.bindByName find).run history with ⟨e | slots, last⟩ <;>
    rw [hrun] at hturn
  · exact ⟨e, last, rfl, hturn⟩
  · obtain ⟨i, a, ha⟩ := hturn.exists_found hp
    have hfound : find p.name = some a := ha
    rw [hnone] at hfound
    cases hfound

end Compiled

namespace Engine

variable {engine : Engine} {source : String} {seed : ParameterTable} {c : Compiled}

theorem names_nodup_of_compileWith (h : (engine.compileWith source seed).1 = .ok c) :
    c.parameters.names.Nodup := by
  rw [compileWith, count_fst] at h
  obtain ⟨a, ha, hparameters, -⟩ :=
    exists_analysis_of_compileText (Registry.distinct_ofTable seed) h
  rw [hparameters]
  exact ha.distinct

/-- Any arguments, one for each parameter, can be handed over by name, and whatever the other names
stand for, such a call is the one by position: it has the same result and asks the same producers in
the same order. A call by name that lacks an argument stops at the first slot where the argument is
missing or does not fit, with that error and after having asked the producers before it. -/
theorem call_by_name_or_position (h : (engine.compileWith source seed).1 = .ok c) :
    (∀ (arguments : List Argument) (others : String → Option Argument),
      arguments.length = c.parameters.length →
      ∃ find, c.parameters.Assigned arguments find ∧
        ∀ name ∉ c.parameters.names, find name = others name) ∧
    (∀ arguments find, c.parameters.Assigned arguments find → ∀ (t : Tolerance) (history : History),
      (c.callByName t find).run history = (c.call t arguments).run history) ∧
    ∀ find : String → Option Argument, (∃ name ∈ c.parameters.names, find name = none) →
      ∀ (t : Tolerance) (history : History),
      ∃ e last, (c.callByName t find).run history = (.error e, last) ∧
        StopsInTurn (.byName find) 0 c.parameters history e last := by
  refine ⟨fun arguments others hlength => ?_, fun arguments find hfind t history => ?_,
    fun find hmissing t history => ?_⟩
  · exact ParameterTable.exists_assigned (names_nodup_of_compileWith h) hlength others
  · rw [Compiled.callByName_eq_call hfind t]
  · exact Compiled.callByName_missing hmissing t history

/-- A sum with a producer, called by name, and called without the producer but with a string for
the number. -/
theorem call_by_name_or_position_sum :
    ∃ c, (({ options := {} } : Engine).compileWith "n + f()" []).1 = .ok c ∧
      (∀ host : Producer, (c.callByName .exact fun name =>
          if name = "n" then some (.value (.int 2)) else some (.producer host)).run [] =
        (c.call .exact [.value (.int 2), .producer host]).run []) ∧
      ∃ e last, (c.callByName .exact fun name =>
          if name = "n" then some (.value (.string "two")) else none).run [] = (.error e, last) ∧
        StopsInTurn (.byName fun name => if name = "n" then some (.value (.string "two")) else none)
          0 c.parameters [] e last := by
  have hok : (({ options := {} } : Engine).compileWith "n + f()" []).1.map
      (fun c => c.parameters.names) = .ok ["n", "f"] := by cbv
  cases h : (({ options := {} } : Engine).compileWith "n + f()" []).1 with
  | ok c =>
    rw [h] at hok
    have hnames : c.parameters.names = ["n", "f"] := Except.ok.inj hok
    obtain ⟨-, hsame, hmissing⟩ := call_by_name_or_position h
    refine ⟨c, rfl, fun host => hsame _ _ ?_ .exact [], hmissing _ ⟨"f", ?_, ?_⟩ .exact []⟩
    · rw [ParameterTable.Assigned, hnames]
      rfl
    · rw [hnames]
      decide
    · exact if_neg (by decide)
  | error failure =>
    rw [h] at hok
    cases hok

end Engine
end TolerantExpr
