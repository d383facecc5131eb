import TolerantExpr.Proofs.Typing.Building
import TolerantExpr.Proofs.Typing.Determination
import TolerantExpr.Proofs.Typing.Preferences

/-!
# What an analysis hands over

A successful analysis passes through four stages: the tree is built, its types are determined, its
preferences are recorded, and the parameters that it uses are fixed. What it hands over fits
together: the tree is resolved, and the table has one parameter for each name in the tree, with
the type of its references.
-/

namespace TolerantExpr

/-- A parameter as it is fixed, whatever its position. -/
structure OpenParameter.FixesTo (p : OpenParameter) (f : FixedParameter) : Prop where
  name : f.name = p.name
  types : p.types = .only f.type
  preference : f.preference = p.preference
  producer : f.producer = p.producer.getD false

namespace Registry

/-! ### Fixing parameters -/

theorem fixAll_cons_eq_ok_iff {slot : Nat} {p : OpenParameter} {ps : List OpenParameter}
    {table : ParameterTable} :
    fixAll slot (p :: ps) = .ok table ↔
      ∃ f rest, p.fix = .ok f ∧ fixAll (slot + 1) ps = .ok rest ∧
        table = { f with order := slot } :: rest := by
  rw [fixAll, except_bind_eq_ok_iff]
  constructor
  · intro h
    obtain ⟨f, hf, h⟩ := h
    obtain ⟨rest, hrest, h⟩ := except_bind_eq_ok_iff.mp h
    exact ⟨f, rest, hf, hrest, (Except.ok.inj h).symm⟩
  · intro h
    obtain ⟨f, rest, hf, hrest, rfl⟩ := h
    exact ⟨f, hf, except_bind_eq_ok_iff.mpr ⟨rest, hrest, rfl⟩⟩

theorem fix_parameter_eq_ok_iff {p : OpenParameter} {f : FixedParameter} :
    p.fix = .ok f ↔ p.types = .only f.type ∧
      f = ⟨p.name, f.type, p.preference, p.producer.getD false, p.order⟩ := by
  unfold OpenParameter.fix
  cases ht : p.types.single? with
  | none =>
    constructor
    · intro h
      cases h
    · intro h
      obtain ⟨h, -⟩ := h
      rw [h, TypeSet.single?_only] at ht
      cases ht
  | some t =>
    rw [TypeSet.single?_eq_some_iff] at ht
    constructor
    · intro h
      obtain rfl := Except.ok.inj h
      exact ⟨ht, rfl⟩
    · intro h
      obtain ⟨h, hf⟩ := h
      obtain rfl := TypeSet.only_injective (ht.symm.trans h)
      rw [hf]

/-- The table has the parameters as they are fixed, and their slots as their orders. -/
theorem fixAll_eq_ok_iff {slot : Nat} {ps : List OpenParameter} {table : ParameterTable} :
    fixAll slot ps = .ok table ↔ List.Forall₂ OpenParameter.FixesTo ps table ∧
      ∀ (i : Nat) (f : FixedParameter), table[i]? = some f → f.order = slot + i := by
  induction ps generalizing slot table with
  | nil =>
    rw [List.forall₂_nil_left_iff]
    constructor
    · intro h
      obtain rfl := Except.ok.inj h
      exact ⟨rfl, by simp⟩
    · rintro ⟨rfl, -⟩
      rfl
  | cons p ps ih =>
    rw [fixAll_cons_eq_ok_iff]
    constructor
    · rintro ⟨f, rest, hf, hrest, rfl⟩
      obtain ⟨htypes, hfields⟩ := fix_parameter_eq_ok_iff.mp hf
      obtain ⟨hall, horders⟩ := ih.mp hrest
      refine ⟨.cons ⟨?_, htypes, ?_, ?_⟩ hall, fun i g hg => ?_⟩
      · rw [hfields]
      · rw [hfields]
      · rw [hfields]
      · cases i with
        | zero =>
          obtain rfl := Option.some.inj hg
          rfl
        | succ i =>
          rw [horders i g hg]
          omega
    · rintro ⟨hall, horders⟩
      obtain ⟨f, rest, hf, hrest, rfl⟩ := List.forall₂_cons_left_iff.mp hall
      have hslot : f.order = slot := horders 0 f rfl
      refine ⟨{ f with order := p.order }, rest, ?_, ih.mpr ⟨hrest, fun i g hg => ?_⟩, ?_⟩
      · refine fix_parameter_eq_ok_iff.mpr ⟨hf.types, ?_⟩
        rw [hf.name, hf.preference, hf.producer]
      · rw [horders (i + 1) g hg]
        omega
      · rw [← hslot]

theorem exists_fixAll (slot : Nat) {ps : List OpenParameter}
    (h : ∀ p ∈ ps, ∃ t, p.types = .only t) : ∃ table, fixAll slot ps = .ok table := by
  induction ps generalizing slot with
  | nil => exact ⟨[], rfl⟩
  | cons p ps ih =>
    obtain ⟨t, ht⟩ := h p List.mem_cons_self
    obtain ⟨rest, hrest⟩ := ih (slot + 1) fun q hq => h q (List.mem_cons_of_mem _ hq)
    exact ⟨_, fixAll_cons_eq_ok_iff.mpr
      ⟨⟨p.name, t, p.preference, p.producer.getD false, p.order⟩, rest,
        fix_parameter_eq_ok_iff.mpr ⟨ht, rfl⟩, hrest, rfl⟩⟩

theorem mem_fixed_iff {r : Registry} {p : OpenParameter} :
    p ∈ (r.sorted.filter fun p => p.name ∈ r.used) ↔ p ∈ r.entries ∧ p.name ∈ r.used := by
  rw [List.mem_filter, sorted, List.mem_mergeSort, decide_eq_true_eq]

/-- The table has a parameter for every name that is registered and used, with its type. -/
theorem exists_mem_of_fix {r : Registry} {table : ParameterTable} (h : r.fix = .ok table)
    {name : String} (hc : r.contains name = true) (hu : name ∈ r.used) :
    ∃ f ∈ table, f.name = name ∧ r.typesOf name = .only f.type := by
  obtain ⟨p, hp⟩ := contains_iff.mp hc
  obtain ⟨hmem, rfl⟩ := get?_eq_some hp
  obtain ⟨f, hf, hpf⟩ := exists_of_forall₂_of_mem_right (fixAll_eq_ok_iff.mp h).1.flip
    (mem_fixed_iff.mpr ⟨hmem, hu⟩)
  refine ⟨f, hf, hpf.name, ?_⟩
  rw [typesOf_of_get? hp]
  exact hpf.types

/-- The table has the names that are registered and used, and no other ones. -/
theorem mem_names_of_fix {r : Registry} {table : ParameterTable} (h : r.fix = .ok table)
    {name : String} : name ∈ table.names ↔ r.contains name = true ∧ name ∈ r.used := by
  rw [ParameterTable.names, List.mem_map, contains_iff_mem_names, List.mem_map]
  constructor
  · rintro ⟨f, hf, rfl⟩
    obtain ⟨p, hp, hpf⟩ := exists_of_forall₂_of_mem_right (fixAll_eq_ok_iff.mp h).1 hf
    obtain ⟨hmem, hu⟩ := mem_fixed_iff.mp hp
    rw [hpf.name]
    exact ⟨⟨p, hmem, rfl⟩, hu⟩
  · rintro ⟨⟨p, hmem, rfl⟩, hu⟩
    obtain ⟨f, hf, hpf⟩ := exists_of_forall₂_of_mem_right (fixAll_eq_ok_iff.mp h).1.flip
      (mem_fixed_iff.mpr ⟨hmem, hu⟩)
    exact ⟨f, hf, hpf.name⟩

theorem nodup_names_of_fix {r : Registry} {table : ParameterTable} (hr : r.Distinct)
    (h : r.fix = .ok table) : table.names.Nodup := by
  have hnames : table.names =
      (r.sorted.filter fun p => p.name ∈ r.used).map OpenParameter.name := by
    rw [ParameterTable.names, map_eq_map_iff]
    exact (fixAll_eq_ok_iff.mp h).1.flip.imp fun _ _ hpf => hpf.name
  have hsorted : (r.sorted.map OpenParameter.name).Nodup :=
    ((List.mergeSort_perm _ _).map _).nodup_iff.mpr hr
  rw [hnames]
  exact hsorted.sublist (List.filter_sublist.map _)

end Registry

namespace Analysis

/-! ### The stages -/

variable {e : Expr} {x : Extraction} {source : String} {r : Registry} {formatters : Formatters}
  {a : Analysis}

/-- An analysis succeeds when each of its stages does. -/
theorem ofExpr_eq_ok_iff :
    ofExpr e x source r formatters = .ok a ↔ ∃ n σ s s',
      (build x formatters e).run { registry := r } = (.ok n, σ) ∧
        determine n σ.registry = .ok (a.root, s) ∧ a.root.type?.isSome = true ∧
        preferences a.root s = .ok s' ∧ s'.fix = .ok a.parameters := by
  obtain ⟨root, parameters⟩ := a
  unfold ofExpr
  rcases hb : (build x formatters e).run { registry := r } with ⟨fault | n, σ⟩
  · constructor
    · intro h
      cases h
    · intro h
      obtain ⟨n, σ, s, s', h, -⟩ := h
      cases h
  constructor
  · intro h
    obtain ⟨n', hn, h⟩ := except_bind_eq_ok_iff.mp h
    obtain rfl := Except.ok.inj hn
    obtain ⟨⟨root', s⟩, hd, h⟩ := except_bind_eq_ok_iff.mp h
    rw [except_mapError_eq_ok_iff] at hd
    dsimp only at h
    cases ht : root'.type? with
    | none =>
      rw [ht] at h
      cases h
    | some t =>
      rw [ht] at h
      obtain ⟨s', hs', h⟩ := except_bind_eq_ok_iff.mp h
      rw [except_mapError_eq_ok_iff] at hs'
      cases hf : s'.fix with
      | error err =>
        rw [hf] at h
        cases h
      | ok table =>
        rw [hf] at h
        cases h
        exact ⟨n, σ, s, s', rfl, hd, by rw [ht]; rfl, hs', hf⟩
  · intro h
    obtain ⟨n', σ', s, s', hrun, hd, ht, hs', hf⟩ := h
    cases hrun
    refine except_bind_eq_ok_iff.mpr ⟨n, rfl, ?_⟩
    refine except_bind_eq_ok_iff.mpr ⟨(root, s), except_mapError_eq_ok_iff.mpr hd, ?_⟩
    dsimp only
    rw [Option.isNone_eq_false_iff.mpr ht]
    refine except_bind_eq_ok_iff.mpr ⟨s', except_mapError_eq_ok_iff.mpr hs', ?_⟩
    rw [hf]
    rfl

theorem built_of_run (hr : r.Distinct) {n : Node} {σ : State}
    (h : (build x formatters e).run { registry := r } = (.ok n, σ)) :
    Built x e r σ.registry n := by
  have hbuilt : Meets (build x formatters e) { registry := r }
      (fun n τ => Built x e r τ.registry n) fun _ _ => True := build_built e _ hr
  unfold Meets at hbuilt
  rw [h] at hbuilt
  exact hbuilt

/-- What an analysis hands over fits together. -/
structure WellTyped (a : Analysis) : Prop where
  resolved : a.root.Resolved
  references : a.root.EveryReference fun name ts =>
    ∃ f ∈ a.parameters, f.name = name ∧ ts = .only f.type
  distinct : a.parameters.names.Nodup

/-- A registry in which every parameter is decided makes a consistent tree a resolved one. -/
theorem resolved_of_decided {n : Node} {s : Registry} (hc : n.Consistent s.typesOf)
    (hn : n.CoveredBy s) (h : s.firstUndecided? = none) : n.Resolved :=
  hc.resolved (hn.imp fun _ _ hname => Registry.exists_typesOf_eq h hname.1)

/-- Where the types of a tree are determined, the whole has a type. -/
theorem type?_of_determine {n root : Node} {σ : State} {s : Registry}
    (hbuilt : Built x e r σ.registry n)
    (hd : determine n σ.registry = .ok (root, s)) : root.type?.isSome = true := by
  obtain ⟨-, -, hcov, hcons, hnone, -⟩ := determine_spec hbuilt.distinct hbuilt.covered hd
  obtain ⟨t, ht⟩ := (resolved_of_decided hcons hcov hnone).exists_types_eq
  rw [Node.type?, ht, TypeSet.single?_only]
  rfl

theorem ofExpr_wellTyped (hr : r.Distinct) (h : ofExpr e x source r formatters = .ok a) :
    a.WellTyped := by
  obtain ⟨n, σ, s, s', hb, hd, -, hs', hf⟩ := ofExpr_eq_ok_iff.mp h
  have hbuilt := built_of_run hr hb
  obtain ⟨hle, hreg, hcov, hcons, hnone, -⟩ := determine_spec hbuilt.distinct hbuilt.covered hd
  have hsame := preferences_sameTypes hs'
  have hused := Node.EveryReference.of_le hle hbuilt.used
  refine ⟨resolved_of_decided hcons hcov hnone, ?_, ?_⟩
  · refine ((hcons.references.and hcov).and hused).imp fun name ts ⟨⟨hts, hc, _⟩, hu⟩ => ?_
    rw [← hsame.contains] at hc
    rw [← hreg.used_eq, ← hsame.used] at hu
    obtain ⟨f, hmem, hname, htypes⟩ := Registry.exists_mem_of_fix hf hc hu
    refine ⟨f, hmem, hname, ?_⟩
    rw [hts, ← hsame.types, htypes]
  · exact Registry.nodup_names_of_fix
      (hsame.distinct (Registry.distinct_of_le hreg hbuilt.distinct)) hf

end Analysis
end TolerantExpr
