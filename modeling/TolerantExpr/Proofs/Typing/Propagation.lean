import TolerantExpr.Proofs.Typing.Names
import TolerantExpr.Proofs.Typing.Narrowing
import Mathlib

/-!
# The greatest consistent labelling

A tree and a registry give a set of types to every node and to every parameter. Propagation comes
to rest without a fault exactly if a consistent choice of sets lies below the ones it starts with,
and then it ends with the greatest such choice. Nothing in this depends on its order: stabilizing
nodes in any other order, for as long as some node changes, leads to the same sets.
-/

namespace TolerantExpr

namespace Registry

theorem eq_of_le_of_le {r s : Registry} (h : r ≤ s) (h' : s ≤ r) : r = s :=
  eq_of_le_of_weight_le h (weight_mono h')

/-- A registry allows what a registry below it has left. -/
theorem allows_of_le {r s : Registry} (hr : r.Distinct) (h : s ≤ r) : r.Allows s.typesOf := by
  intro p hp
  rw [← typesOf_of_get? (get?_of_mem hr hp)]
  exact typesOf_le_of_le h p.name

/-- Of two registries below a third one, the first is below the second if the second allows what
the first has left. -/
theorem le_of_allows {r s t : Registry} (hr : r.Distinct) (hs : s ≤ r) (ht : t ≤ r)
    (h : t.Allows s.typesOf) : s ≤ t := by
  refine ⟨hs.used_eq.trans ht.used_eq.symm, hs.nextOrder_eq.trans ht.nextOrder_eq.symm, ?_⟩
  have hentries := (List.forall₂_and_left t.entries r.entries).mpr ⟨h, ht.entries⟩
  refine forall₂_comp_of_mem hs.entries hentries.flip fun p hp q u hpq hu => ?_
  have hname : u.name = p.name :=
    (OpenParameter.name_eq_of_le hu.2).trans (OpenParameter.name_eq_of_le hpq).symm
  have htypes := hu.1
  rw [hname, typesOf_of_get? (get?_of_mem (distinct_of_le hs hr) hp)] at htypes
  refine ⟨?_, htypes⟩
  rw [hpq.1, hu.2.1]

end Registry

namespace Node

/-! ### Labellings -/

/-- A set of types for every node of a tree and for every parameter of a registry. -/
abbrev Labelling := Node × Registry

/-- No set of the tree is empty, all references to a parameter have its set in the registry, every
operation has the results of its viable overloads, and each operand only arguments of these. -/
structure LocallyConsistent (l : Labelling) : Prop where
  known : l.1.KnownTo l.2
  consistent : Consistent l.2.typesOf l.1

/-- Each reference to a parameter has at least the types that the parameter has left. -/
def Encloses (n : Node) (r : Registry) : Prop :=
  n.EveryReference fun name ts => ∀ p ∈ r.entries, p.name = name → p.types ≤ ts

variable {n m : Node} {r : Registry}

theorem Encloses.coveredBy (h : n.Encloses r) (hn : n.KnownTo r) : n.CoveredBy r := by
  refine (h.and hn).imp fun name ts ⟨hts, hc⟩ => ⟨hc, ?_⟩
  obtain ⟨p, hp⟩ := Registry.contains_iff.mp hc
  obtain ⟨hmem, hname⟩ := Registry.get?_eq_some hp
  rw [Registry.typesOf_of_get? hp]
  exact hts p hmem hname

theorem KnownTo.of_registry_ge {s : Registry} (h : n.KnownTo s) (hs : s ≤ r) : n.KnownTo r := by
  refine EveryReference.imp h fun name _ hc => ?_
  rw [← Registry.contains_eq_of_le hs]
  exact hc

/-- The shape of a tree decides which names it has. -/
theorem KnownTo.of_ge (h : m.KnownTo r) (hm : m ≤ n) : n.KnownTo r := by
  induction n generalizing m with
  | constant v s => exact .constant v s
  | parameter name producer s ts =>
    obtain ⟨us, rfl, -⟩ := le_parameter_iff.mp hm
    exact .parameter h.of_parameter
  | operation op xs s ts ih =>
    obtain ⟨ms, us, rfl, hms, -⟩ := le_operation_iff.mp hm
    refine .operation fun x hx => ?_
    obtain ⟨y, hy, hyx⟩ := exists_of_forall₂_of_mem_right hms hx
    exact ih x hx (h.of_operation y hy) hyx

/-- Consistency asks only for the sets of the parameters that the tree refers to. -/
theorem Consistent.congr {ρ σ : String → TypeSet} (h : Consistent ρ n)
    (hσ : n.EveryReference fun name _ => σ name = ρ name) : Consistent σ n := by
  induction h with
  | constant v s => exact .constant v s
  | @parameter name producer s hne =>
    have hname : σ name = ρ name := hσ.of_parameter
    rw [← hname] at hne ⊢
    exact .parameter hne
  | operation _ nonempty results arguments ih =>
    exact .operation (fun x hx => ih x hx (hσ.of_operation x hx)) nonempty results arguments

/-- A choice of one type for each parameter, with an overload for every operation, is
consistent. -/
theorem Resolved.consistent {τ : String → ValueType} (h : Resolved n)
    (hτ : n.EveryReference fun name ts => ts = .only (τ name)) :
    Consistent (fun name => .only (τ name)) n := by
  induction h with
  | constant v s => exact .constant v s
  | parameter name producer s t =>
    have hname : TypeSet.only t = .only (τ name) := hτ.of_parameter
    rw [hname]
    exact .parameter (ρ := fun name => .only (τ name)) (TypeSet.only_ne_empty _)
  | operation s ho types _ ih =>
    exact .of_overload ho (fun x hx => ih x hx (hτ.of_operation x hx)) types

/-! ### Sweeps that report no fault -/

/-- Only a registered parameter can be stabilized. -/
theorem contains_of_stabilize {name : String} {producer : Bool} {s : Span} {ts : TypeSet}
    (hf : (stabilize (parameter name producer s ts) r).fault = none) : r.contains name = true := by
  cases hnarrow : r.narrow name ts with
  | error e left =>
    rw [stabilize_parameter_error hnarrow] at hf
    cases hf
  | ok r' =>
    obtain ⟨p, hp, -⟩ := Registry.narrow_eq_ok_iff.mp hnarrow
    exact Registry.contains_iff.mpr ⟨p, hp⟩

mutual

theorem knownTo_of_sweep (n : Node) {r : Registry} (hr : r.Distinct)
    (hf : (sweep n r).fault = none) : n.KnownTo r := by
  match n with
  | constant v s => exact .constant v s
  | parameter name producer s ts => exact .parameter (contains_of_stabilize hf)
  | operation op xs s ts =>
    cases hxs : (sweepAll xs r).fault with
    | some fault =>
      rw [sweep_operation_fault hxs] at hf
      cases hf
    | none => exact .operation (knownTo_of_sweepAll xs hr hxs)

theorem knownTo_of_sweepAll (xs : List Node) {r : Registry} (hr : r.Distinct)
    (hf : (sweepAll xs r).fault = none) : ∀ x ∈ xs, x.KnownTo r := by
  match xs with
  | [] => simp
  | x :: xs =>
    cases hx : (sweep x r).fault with
    | some fault =>
      rw [sweepAll_fault hx] at hf
      cases hf
    | none =>
      rw [sweepAll_cons hx] at hf
      have hle := sweep_le x hr
      have hxs := knownTo_of_sweepAll xs (Registry.distinct_of_le hle.2 hr) hf
      exact List.forall_mem_cons.mpr
        ⟨knownTo_of_sweep x hr hx, fun y hy => (hxs y hy).of_registry_ge hle.2⟩

end

/-- Propagation is sweeping for as long as a sweep changes the tree without a fault. -/
theorem propagate_eq (n : Node) (hr : r.Distinct) :
    ((sweep n r).fault = none → (sweep n r).subject ≠ n →
      propagate n r = propagate (sweep n r).subject (sweep n r).registry) ∧
    ((sweep n r).fault ≠ none ∨ (sweep n r).subject = n → propagate n r = sweep n r) := by
  have hle := (sweep_le n hr).1
  constructor
  · intro hf hne
    rw [propagate]
    refine if_pos ⟨?_, Option.isNone_iff_eq_none.mpr hf⟩
    by_contra hlt
    exact hne (eq_of_le_of_weight_le hle (Nat.le_of_not_lt hlt))
  · intro h
    rw [propagate]
    refine if_neg fun hagain => ?_
    obtain ⟨hlt, hf⟩ := hagain
    rcases h with h | h
    · exact h (Option.isNone_iff_eq_none.mp hf)
    · rw [h] at hlt
      exact Nat.lt_irrefl _ hlt

theorem knownTo_of_propagate (hr : r.Distinct) (hf : (propagate n r).fault = none) :
    n.KnownTo r := by
  refine knownTo_of_sweep n hr ?_
  by_contra hne
  rw [(propagate_eq n hr).2 (.inl hne)] at hf
  exact hne hf

/-- Where propagation ends without a fault, another sweep changes nothing. -/
theorem sweep_propagate (n : Node) (hr : r.Distinct) (hn : n.CoveredBy r)
    (hf : (propagate n r).fault = none) :
    sweep (propagate n r).subject (propagate n r).registry = propagate n r := by
  induction n, r using propagate.induct with
  | case1 n r next hlt ih =>
    rw [propagate, if_pos hlt] at hf ⊢
    have hsweep : (sweep n r).fault = none := Option.isNone_iff_eq_none.mp hlt.2
    exact ih (Registry.distinct_of_le (sweep_le n hr).2 hr) (sweep_covers n hr hn hsweep) hf
  | case2 n r next hlt =>
    rw [propagate, if_neg hlt] at hf ⊢
    have hsame : (sweep n r).subject = n := by
      refine eq_of_le_of_weight_le (sweep_le n hr).1 ?_
      by_contra hw
      exact hlt ⟨Nat.lt_of_not_le hw, Option.isNone_iff_eq_none.mpr hf⟩
    rw [hsame, (sweep_rest n hr hn hf hsame).1]

/-! ### The greatest labelling -/

/-- Propagation keeps every consistent labelling below its start. -/
theorem le_propagate (hr : r.Distinct) {l : Labelling} (hl : l ≤ (n, r))
    (hc : LocallyConsistent l) :
    (propagate n r).fault = none ∧ l ≤ ((propagate n r).subject, (propagate n r).registry) := by
  obtain ⟨m, s⟩ := l
  obtain ⟨hm, hs⟩ := Prod.mk_le_mk.mp hl
  have hn : n.KnownTo r := (hc.known.of_registry_ge hs).of_ge hm
  obtain ⟨hf, hsub, hallows⟩ :=
    propagate_keeps n hr (Registry.allows_of_le hr hs) hn hm hc.consistent
  exact ⟨hf, hsub, Registry.le_of_allows hr hs (propagate_le n hr).2 hallows⟩

/-- Without a fault, propagation ends with a consistent labelling below its start. -/
theorem locallyConsistent_propagate (hr : r.Distinct) (hn : n.Encloses r)
    (hf : (propagate n r).fault = none) :
    LocallyConsistent ((propagate n r).subject, (propagate n r).registry) := by
  obtain ⟨hcovered, hc⟩ :=
    propagate_consistent n hr (hn.coveredBy (knownTo_of_propagate hr hf)) hf
  exact ⟨hcovered.knownTo, hc⟩

/-- Parameters that the tree does not refer to keep their types: a labelling that gives them back
what they started with is consistent too, and propagation keeps it. -/
theorem typesOf_propagate (hr : r.Distinct) (hn : n.Encloses r)
    (hf : (propagate n r).fault = none) {name : String} (hname : name ∉ n.names) :
    (propagate n r).registry.typesOf name = r.typesOf name := by
  obtain ⟨hsub, hreg⟩ := propagate_le n hr
  let ρ : String → TypeSet := fun m =>
    if m ∈ n.names then (propagate n r).registry.typesOf m else r.typesOf m
  have hin : ∀ m ∈ n.names, ρ m = (propagate n r).registry.typesOf m := fun m hm => if_pos hm
  have hρ : r.Allows ρ := by
    intro p hp
    rw [← Registry.typesOf_of_get? (Registry.get?_of_mem hr hp)]
    by_cases hm : p.name ∈ n.names
    · rw [hin p.name hm]
      exact Registry.typesOf_le_of_le hreg p.name
    · exact (if_neg hm).le
  have hc : Consistent ρ (propagate n r).subject := by
    refine (locallyConsistent_propagate hr hn hf).consistent.congr (everyReference_of_names ?_)
    rw [names_eq_of_le hsub]
    exact hin
  obtain ⟨-, -, hallows⟩ := propagate_keeps n hr hρ (knownTo_of_propagate hr hf) hsub hc
  refine le_antisymm (Registry.typesOf_le_of_le hreg name) ?_
  exact (if_neg hname).symm.le.trans (hallows.le_typesOf name)

/-! ### Other orders -/

/-- A tree with one of its nodes stabilized. -/
inductive Stabilizes (r : Registry) : Node → Narrowed Node → Prop where
  | here (n : Node) : Stabilizes r n (stabilize n r)
  | under {op : Operation} {xs ys : List Node} {x : Node} {s : Span} {ts : TypeSet}
    {next : Narrowed Node} (h : Stabilizes r x next) :
    Stabilizes r (operation op (xs ++ x :: ys) s ts)
      ⟨operation op (xs ++ next.subject :: ys) s ts, next.registry, next.fault⟩

namespace Stabilizes

variable {next : Narrowed Node}

theorem le (h : Stabilizes r n next) (hr : r.Distinct) : next.subject ≤ n ∧ next.registry ≤ r := by
  induction h with
  | here n => exact stabilize_le n hr
  | under _ ih => exact ⟨operation_le_operation ih.1, ih.2⟩

theorem covers (h : Stabilizes r n next) (hr : r.Distinct) (hn : n.CoveredBy r)
    (hf : next.fault = none) : next.subject.CoveredBy next.registry := by
  induction h with
  | here n => exact stabilize_covers hr hn.of_mem_operands hf
  | under h ih => exact hn.of_operand (h.le hr).2 (ih (hn.of_operation _ (by simp)) hf)

theorem keeps {ρ : String → TypeSet} (h : Stabilizes r n next) (hr : r.Distinct)
    (hρ : r.Allows ρ) (hn : n.KnownTo r) (hm : m ≤ n) (hc : Consistent ρ m) :
    next.fault = none ∧ m ≤ next.subject ∧ next.registry.Allows ρ := by
  induction h generalizing m with
  | here n => exact stabilize_keeps hr hρ hn hm hc
  | under _ ih =>
    obtain ⟨a, hmem, ha, hnext⟩ := exists_of_le_operation hm
    obtain ⟨hf, hsub, hreg⟩ := ih (hn.of_operation _ (by simp)) ha (hc.of_mem_operands hmem)
    exact ⟨hf, hnext _ hsub, hreg⟩

end Stabilizes

/-- Stabilizing nodes of a tree one after the other, in any order, up to some point or up to the
first fault. -/
inductive Narrows : Node → Registry → Narrowed Node → Prop where
  | stop (n : Node) (r : Registry) : Narrows n r ⟨n, r, none⟩
  | fault {n : Node} {r : Registry} {next : Narrowed Node} {fault : TypeFault}
    (h : Stabilizes r n next) (hf : next.fault = some fault) : Narrows n r next
  | step {n : Node} {r : Registry} {next last : Narrowed Node} (h : Stabilizes r n next)
    (hf : next.fault = none) (rest : Narrows next.subject next.registry last) : Narrows n r last

namespace Narrows

variable {next last : Narrowed Node}

theorem of_stabilizes (h : Stabilizes r n next) : Narrows n r next := by
  obtain ⟨x, s, fault⟩ := next
  cases fault with
  | none => exact .step h rfl (.stop x s)
  | some fault => exact .fault h rfl

theorem trans (h : Narrows n r next) (hf : next.fault = none)
    (h' : Narrows next.subject next.registry last) : Narrows n r last := by
  induction h with
  | stop => exact h'
  | fault _ hf' =>
    rw [hf] at hf'
    cases hf'
  | step h hf' _ ih => exact .step h hf' (ih hf h')

theorem under {op : Operation} {xs ys : List Node} {s : Span} {ts : TypeSet} (h : Narrows n r last) :
    Narrows (operation op (xs ++ n :: ys) s ts) r
      ⟨operation op (xs ++ last.subject :: ys) s ts, last.registry, last.fault⟩ := by
  induction h with
  | stop n r => exact .stop _ r
  | fault h hf => exact .fault h.under hf
  | step h hf _ ih => exact .step h.under hf ih

theorem le (h : Narrows n r last) (hr : r.Distinct) : last.subject ≤ n ∧ last.registry ≤ r := by
  induction h with
  | stop => exact ⟨le_rfl, le_rfl⟩
  | fault h _ => exact h.le hr
  | step h _ _ ih =>
    obtain ⟨hsub, hreg⟩ := h.le hr
    obtain ⟨hsub', hreg'⟩ := ih (Registry.distinct_of_le hreg hr)
    exact ⟨hsub'.trans hsub, hreg'.trans hreg⟩

theorem covers (h : Narrows n r last) (hr : r.Distinct) (hn : n.CoveredBy r)
    (hf : last.fault = none) : last.subject.CoveredBy last.registry := by
  induction h with
  | stop => exact hn
  | fault _ hf' =>
    rw [hf] at hf'
    cases hf'
  | step h hf' _ ih => exact ih (Registry.distinct_of_le (h.le hr).2 hr) (h.covers hr hn hf') hf

theorem keeps {ρ : String → TypeSet} (h : Narrows n r last) (hr : r.Distinct) (hρ : r.Allows ρ)
    (hn : n.KnownTo r) (hm : m ≤ n) (hc : Consistent ρ m) :
    last.fault = none ∧ m ≤ last.subject ∧ last.registry.Allows ρ := by
  induction h with
  | stop => exact ⟨rfl, hm, hρ⟩
  | fault h _ => exact h.keeps hr hρ hn hm hc
  | step h _ _ ih =>
    obtain ⟨-, hsub, hallows⟩ := h.keeps hr hρ hn hm hc
    obtain ⟨hle, hreg⟩ := h.le hr
    exact ih (Registry.distinct_of_le hreg hr) hallows (hn.of_le hle hreg) hsub

end Narrows

mutual

/-- A sweep stabilizes the nodes one after the other. -/
theorem narrows_sweep (n : Node) (r : Registry) : Narrows n r (sweep n r) := by
  match n with
  | constant v s => exact .of_stabilizes (.here _)
  | parameter name producer s ts => exact .of_stabilizes (.here _)
  | operation op xs s ts =>
    have hxs := narrows_sweepAll xs r op [] s ts
    cases hf : (sweepAll xs r).fault with
    | some fault =>
      rw [sweep_operation_fault hf, ← hf]
      exact hxs
    | none =>
      rw [sweep_operation hf]
      exact hxs.trans hf (.of_stabilizes (.here _))

theorem narrows_sweepAll (xs : List Node) (r : Registry) (op : Operation) (done : List Node)
    (s : Span) (ts : TypeSet) :
    Narrows (operation op (done ++ xs) s ts) r
      ⟨operation op (done ++ (sweepAll xs r).subject) s ts, (sweepAll xs r).registry,
        (sweepAll xs r).fault⟩ := by
  match xs with
  | [] => exact .stop _ r
  | x :: xs =>
    have hx : Narrows (operation op (done ++ x :: xs) s ts) r
        ⟨operation op (done ++ (sweep x r).subject :: xs) s ts, (sweep x r).registry,
          (sweep x r).fault⟩ := (narrows_sweep x r).under
    cases hf : (sweep x r).fault with
    | some fault =>
      rw [sweepAll_fault hf, ← hf]
      exact hx
    | none =>
      rw [sweepAll_cons hf]
      have hxs := narrows_sweepAll xs (sweep x r).registry op (done ++ [(sweep x r).subject]) s ts
      rw [List.append_assoc, List.append_assoc] at hxs
      exact hx.trans hf hxs

end

/-- Propagation is one of the orders. -/
theorem narrows_propagate (n : Node) (r : Registry) : Narrows n r (propagate n r) := by
  induction n, r using propagate.induct with
  | case1 n r next hlt ih =>
    rw [propagate, if_pos hlt]
    exact (narrows_sweep n r).trans (Option.isNone_iff_eq_none.mp hlt.2) ih
  | case2 n r next hlt =>
    rw [propagate, if_neg hlt]
    exact narrows_sweep n r

/-- Stabilizing a node, whichever it is, meets no fault and changes no node. -/
def AtRest (n : Node) (r : Registry) : Prop :=
  ∀ next, Stabilizes r n next → next.fault = none ∧ next.subject = n

theorem AtRest.of_operation {op : Operation} {xs : List Node} {s : Span} {ts : TypeSet}
    (h : AtRest (operation op xs s ts) r) : ∀ x ∈ xs, AtRest x r := by
  intro x hx next hnext
  obtain ⟨ys, zs, rfl⟩ := List.append_of_mem hx
  obtain ⟨hf, hsame⟩ := h _ hnext.under
  injection hsame with _ hoperands
  exact ⟨hf, (List.cons.inj (List.append_cancel_left hoperands)).1⟩

theorem AtRest.knownTo (h : AtRest n r) : n.KnownTo r := by
  induction n with
  | constant v s => exact .constant v s
  | parameter name producer s ts => exact .parameter (contains_of_stabilize (h _ (.here _)).1)
  | operation op xs s ts ih => exact .operation fun x hx => ih x hx (h.of_operation x hx)

/-- A tree at rest is consistent. -/
theorem AtRest.consistent (h : AtRest n r) (hr : r.Distinct) (hn : n.CoveredBy r) :
    Consistent r.typesOf n := by
  induction n with
  | constant v s => exact .constant v s
  | parameter name producer s ts =>
    obtain ⟨hf, hsame⟩ := h _ (.here _)
    exact (stabilize_parameter_rest hr hn.of_parameter.2 hf hsame).2
  | operation op xs s ts ih =>
    obtain ⟨hf, hsame⟩ := h _ (.here _)
    obtain ⟨-, hne, hres, hargs⟩ := stabilize_rest hr hf hsame
    exact .operation (fun x hx => ih x hx (h.of_operation x hx) (hn.of_operation x hx)) hne hres
      hargs

/-- Every order that comes to rest without a fault ends where propagation does. -/
theorem Narrows.eq_propagate {last : Narrowed Node} (h : Narrows n r last) (hr : r.Distinct)
    (hn : n.Encloses r) (hf : last.fault = none) (hrest : AtRest last.subject last.registry) :
    last = propagate n r := by
  obtain ⟨hsub, hreg⟩ := h.le hr
  have hdistinct := Registry.distinct_of_le hreg hr
  have hknown : n.KnownTo r := (hrest.knownTo.of_registry_ge hreg).of_ge hsub
  have hlast : LocallyConsistent (last.subject, last.registry) :=
    ⟨hrest.knownTo, hrest.consistent hdistinct (h.covers hr (hn.coveredBy hknown) hf)⟩
  obtain ⟨hf', hle⟩ := le_propagate hr (Prod.mk_le_mk.mpr ⟨hsub, hreg⟩) hlast
  obtain ⟨hle, hregle⟩ := Prod.mk_le_mk.mp hle
  -- the labelling that propagation ends with is kept in turn by the other order
  obtain ⟨hpsub, hpreg⟩ := propagate_le n hr
  obtain ⟨-, hge, hallows⟩ := h.keeps hr (Registry.allows_of_le hr hpreg) hknown hpsub
    (locallyConsistent_propagate hr hn hf').consistent
  have hsubject := le_antisymm hle hge
  have hregistry := Registry.eq_of_le_of_le hregle (Registry.le_of_allows hr hpreg hreg hallows)
  obtain ⟨subject, registry, fault⟩ := last
  simp only at hf hsubject hregistry
  rw [hf, hsubject, hregistry, ← hf']

/-! ### The main result -/

/-- Propagation computes the greatest consistent labelling below its start, if there is one, in
whichever order nodes are stabilized, and fails otherwise. A choice of one type for each parameter
that makes the tree valid is never lost. -/
theorem propagate_isGreatest (hr : r.Distinct) (hn : n.Encloses r) :
    ((propagate n r).fault = none ↔ ∃ l : Labelling, l ≤ (n, r) ∧ LocallyConsistent l) ∧
    ((propagate n r).fault = none →
      IsGreatest {l : Labelling | l ≤ (n, r) ∧ LocallyConsistent l}
        ((propagate n r).subject, (propagate n r).registry) ∧
      (∀ name ∉ n.names, (propagate n r).registry.typesOf name = r.typesOf name) ∧
      sweep (propagate n r).subject (propagate n r).registry = propagate n r) ∧
    (∀ last, Narrows n r last →
      ((propagate n r).fault = none → last.fault = none) ∧
      (last.fault = none → AtRest last.subject last.registry → last = propagate n r)) ∧
    ∀ (τ : String → ValueType) (m : Node), m ≤ n → m.KnownTo r → Resolved m →
      m.EveryReference (fun name ts => ts = .only (τ name)) →
      (∀ p ∈ r.entries, p.types.has (τ p.name) = true) →
      (propagate n r).fault = none ∧ m ≤ (propagate n r).subject ∧
        ∀ p ∈ (propagate n r).registry.entries, p.types.has (τ p.name) = true := by
  refine ⟨⟨fun hf => ?_, fun h => ?_⟩, fun hf => ⟨⟨?_, ?_⟩, ?_, ?_⟩, fun last h => ⟨?_, ?_⟩, ?_⟩
  · exact ⟨_, propagate_le n hr, locallyConsistent_propagate hr hn hf⟩
  · obtain ⟨l, hl, hc⟩ := h
    exact (le_propagate hr hl hc).1
  · exact ⟨propagate_le n hr, locallyConsistent_propagate hr hn hf⟩
  · rintro l ⟨hl, hc⟩
    exact (le_propagate hr hl hc).2
  · exact fun name hname => typesOf_propagate hr hn hf hname
  · exact sweep_propagate n hr (hn.coveredBy (knownTo_of_propagate hr hf)) hf
  · intro hf
    obtain ⟨hsub, hreg⟩ := propagate_le n hr
    exact (h.keeps hr (Registry.allows_of_le hr hreg) (knownTo_of_propagate hr hf) hsub
      (locallyConsistent_propagate hr hn hf).consistent).1
  · exact h.eq_propagate hr hn
  · intro τ m hm hknown hresolved hτ hentries
    have hρ : r.Allows fun name => .only (τ name) := fun p hp =>
      TypeSet.only_le_iff.mpr (hentries p hp)
    obtain ⟨hf, hsub, hallows⟩ :=
      propagate_keeps n hr hρ (hknown.of_ge hm) hm (hresolved.consistent hτ)
    exact ⟨hf, hsub, fun p hp => TypeSet.only_le_iff.mp (hallows p hp)⟩

/-- `(x + y) = (x - 1)` before anything is ruled out. -/
def sumEqualsDifference : Node :=
  .ofOperation (.binary (.comparison .eq))
    [.ofOperation (.binary (.arithmetic .add))
        [.parameter "x" false ⟨1, 2⟩ .full, .parameter "y" false ⟨5, 6⟩ .full] ⟨1, 6⟩,
      .ofOperation (.binary (.arithmetic .sub))
        [.parameter "x" false ⟨11, 12⟩ .full, .constant (.number (.int 1)) ⟨15, 16⟩] ⟨11, 16⟩]
    ⟨0, 17⟩

/-- A registry that has met `x` and `y`, and knows nothing about them. -/
def openXY : Registry := (Registry.mention {} "x").mention "y"

/-- The difference makes both sides numbers, so that `y`, which only the sum refers to, is one. -/
theorem propagate_isGreatest_sumEqualsDifference :
    openXY.Distinct ∧ sumEqualsDifference.Encloses openXY ∧
      IsGreatest {l : Labelling | l ≤ (sumEqualsDifference, openXY) ∧ LocallyConsistent l}
        ((propagate sumEqualsDifference openXY).subject,
          (propagate sumEqualsDifference openXY).registry) ∧
      (propagate sumEqualsDifference openXY).registry.typesOf "y" = .only .numeric := by
  have hr : openXY.Distinct :=
    Registry.distinct_mention (Registry.distinct_mention (r := {}) List.nodup_nil "x") "y"
  have hn : sumEqualsDifference.Encloses openXY := by
    have hfull : ∀ {name : String}, ∀ p ∈ openXY.entries, p.name = name → p.types ≤ .full :=
      fun p _ _ => TypeSet.le_full p.types
    refine .operation (List.forall_mem_cons.mpr ⟨.operation ?_, List.forall_mem_singleton.mpr
      (.operation ?_)⟩)
    · exact List.forall_mem_cons.mpr
        ⟨.parameter hfull, List.forall_mem_singleton.mpr (.parameter hfull)⟩
    · exact List.forall_mem_cons.mpr
        ⟨.parameter hfull, List.forall_mem_singleton.mpr (.constant _ _)⟩
  have hf : (propagate sumEqualsDifference openXY).fault = none := by cbv
  exact ⟨hr, hn, ((propagate_isGreatest hr hn).2.1 hf).1, by cbv⟩

end Node
end TolerantExpr
