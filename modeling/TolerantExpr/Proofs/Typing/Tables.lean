import TolerantExpr.Proofs.Typing.Growth
import Mathlib.Data.List.Induction

/-!
# Tables of parameters

In a table that was fixed, names are unique and the order of a parameter is its position. With the
parameters of such a table known from the start, an analysis leads to a table that begins with
those of them that the expression uses, and goes on with the other names that it uses, in the order
in which they come first.
-/

namespace TolerantExpr

/-- Names are unique, and the order of a parameter is its position. -/
structure ParameterTable.Lawful (table : ParameterTable) : Prop where
  distinct : table.names.Nodup
  orders : ∀ (i : Nat) (f : FixedParameter), table[i]? = some f → f.order = i

/-- An open copy of a parameter is fixed to it again. -/
theorem FixedParameter.fixesTo_toOpen (f : FixedParameter) : f.toOpen.FixesTo f :=
  ⟨rfl, rfl, rfl, rfl⟩

namespace Registry

/-! ### Fixing -/

theorem sorted_of_ordered {r : Registry} (h : r.Ordered) : r.sorted = r.entries := by
  refine List.mergeSort_of_pairwise ?_
  have hincreasing := List.pairwise_map.mp h.increasing
  exact hincreasing.imp fun hlt => decide_eq_true (Nat.le_of_lt hlt)

theorem fix_of_ordered {r : Registry} (h : r.Ordered) :
    r.fix = fixAll 0 (r.entries.filter fun p => p.name ∈ r.used) := by
  rw [fix, sorted_of_ordered h]

/-- Ordered entries that are all used are fixed to a table in their place. -/
theorem fix_of_fixesTo {r : Registry} (hr : r.Ordered) {table : ParameterTable}
    (htable : table.Lawful) (h : List.Forall₂ OpenParameter.FixesTo r.entries table)
    (hused : ∀ name ∈ table.names, name ∈ r.used) : r.fix = .ok table := by
  rw [fix_of_ordered hr, List.filter_eq_self.mpr, fixAll_eq_ok_iff]
  · refine ⟨h, fun i f hf => ?_⟩
    rw [htable.orders i f hf, Nat.zero_add]
  · intro p hp
    obtain ⟨f, hf, hpf⟩ := exists_of_forall₂_of_mem_right h.flip hp
    exact decide_eq_true (hused _ (hpf.name ▸ List.mem_map_of_mem hf))

theorem lawful_of_fix {r : Registry} (hr : r.Distinct) {table : ParameterTable}
    (h : r.fix = .ok table) : table.Lawful where
  distinct := nodup_names_of_fix hr h
  orders i f hf := by
    rw [(fixAll_eq_ok_iff.mp h).2 i f hf, Nat.zero_add]

/-! ### Starting from a table -/

variable {table : ParameterTable}

theorem ofTable_append (table : ParameterTable) (f : FixedParameter) :
    ofTable (table ++ [f]) = (ofTable table).adopt (.fixed f) := by
  rw [ofTable, List.foldl_append]
  rfl

theorem entries_ofTable (h : table.names.Nodup) :
    (ofTable table).entries = table.map FixedParameter.toOpen := by
  induction table using List.reverseRecOn with
  | nil => rfl
  | append_singleton table f ih =>
    rw [ParameterTable.names, List.map_append, List.nodup_append] at h
    obtain ⟨hnodup, -, hdisjoint⟩ := h
    have hentries := ih hnodup
    have hnew : ¬(ofTable table).contains f.toOpen.name = true := by
      rw [contains_iff_mem_names, hentries, List.map_map]
      exact fun hmem => hdisjoint f.name hmem f.name (by simp) rfl
    rw [ofTable_append, adopt, Parameter.toOpen, put_of_not_contains hnew]
    dsimp only
    rw [hentries, List.map_append, List.map_singleton]

theorem nextOrder_ofTable (table : ParameterTable) :
    ∀ f ∈ table, f.order < (ofTable table).nextOrder := by
  induction table using List.reverseRecOn with
  | nil => simp
  | append_singleton table f ih =>
    have hnext : (ofTable (table ++ [f])).nextOrder =
        max (ofTable table).nextOrder (f.order + 1) := by
      rw [ofTable_append, adopt]
      rfl
    rw [hnext]
    refine List.forall_mem_append.mpr ⟨fun g hg => ?_, ?_⟩
    · exact Nat.lt_of_lt_of_le (ih g hg) (Nat.le_max_left _ _)
    · exact List.forall_mem_singleton.mpr (Nat.le_max_right _ _)

theorem names_ofTable (h : table.names.Nodup) : (ofTable table).names = table.names := by
  rw [names, entries_ofTable h, List.map_map]
  rfl

theorem ordered_ofTable (h : table.Lawful) : (ofTable table).Ordered := by
  have horders : (ofTable table).orders = table.map FixedParameter.order := by
    rw [orders, entries_ofTable h.distinct, List.map_map]
    rfl
  refine ⟨?_, ?_⟩
  · rw [horders, List.pairwise_map, List.pairwise_iff_getElem]
    intro i j hi hj hij
    rw [h.orders i _ (List.getElem?_eq_getElem hi), h.orders j _ (List.getElem?_eq_getElem hj)]
    exact hij
  · rw [horders]
    intro o ho
    obtain ⟨f, hf, rfl⟩ := List.mem_map.mp ho
    exact nextOrder_ofTable table f hf

/-- The tables whose names are unique and whose orders are positions are exactly those that can
come from fixing. -/
theorem lawful_iff_exists_fix :
    table.Lawful ↔ ∃ r : Registry, r.Distinct ∧ r.fix = .ok table := by
  constructor
  · intro h
    refine ⟨{ ofTable table with used := table.names }, distinct_ofTable table, ?_⟩
    have hordered : ({ ofTable table with used := table.names } : Registry).Ordered :=
      ⟨(ordered_ofTable h).increasing, (ordered_ofTable h).bounded⟩
    refine fix_of_fixesTo hordered h ?_ fun name hname => hname
    rw [entries_ofTable h.distinct, List.forall₂_map_left_iff, List.forall₂_same]
    exact fun f _ => f.fixesTo_toOpen
  · rintro ⟨r, hr, h⟩
    exact lawful_of_fix hr h

end Registry

namespace Analysis

open Registry

variable {e : Expr} {x : Extraction} {source : String} {r : Registry} {formatters : Formatters}
  {a : Analysis}

/-- Built from a registry without uses, a tree has the names that are used in the end. -/
theorem names_of_ofExpr (hr : r.Distinct) (hused : r.used = [])
    (h : ofExpr e x source r formatters = .ok a) :
    a.root.names = (e.uses x).map Prod.fst ∧
      ∀ name, name ∈ a.parameters.names ↔ name ∈ a.root.names := by
  obtain ⟨n, σ, s, s', hb, hd, -, hs', hf⟩ := ofExpr_eq_ok_iff.mp h
  obtain ⟨hnames, huses⟩ := names_of_run hr hb
  have hbuilt := built_of_run hr hb
  obtain ⟨hle, hreg, -⟩ := determine_spec hbuilt.distinct hbuilt.covered hd
  have hroot := Node.names_eq_of_le hle
  have hsame := preferences_sameTypes hs'
  refine ⟨hroot.trans hnames, fun name => ?_⟩
  rw [Registry.mem_names_of_fix hf, hsame.contains, hsame.used, hreg.used_eq, huses, hused, hroot,
    Registry.contains_eq_of_le hreg]
  constructor
  · rintro ⟨-, hname | hname⟩
    · simp at hname
    · exact hname
  · intro hname
    have hknown := hbuilt.covered.knownTo
    unfold Node.KnownTo at hknown
    exact ⟨hknown.of_mem_names name hname, .inr hname⟩

/-- The registry that an analysis fixes its table from. -/
structure Final (us : List (String × Bool)) (r s : Registry) (a : Analysis) : Prop
    extends Extends (us.map Prod.fst) r s where
  records : Records us s
  distinct : s.Distinct
  used : ∀ name, name ∈ s.used ↔ name ∈ r.used ∨ name ∈ us.map Prod.fst
  demands : ∀ d ∈ a.root.demands, d.2 = .unset ∨ s.preferenceOf d.1 = d.2
  fix : s.fix = .ok a.parameters

theorem exists_final_of_ofExpr (hr : r.Distinct)
    (h : ofExpr e x source r formatters = .ok a) : ∃ s, Final (e.uses x) r s a := by
  obtain ⟨n, σ, s, s', hb, hd, -, hs', hf⟩ := ofExpr_eq_ok_iff.mp h
  have hbuilt := built_of_run hr hb
  obtain ⟨-, hreg, -⟩ := determine_spec hbuilt.distinct hbuilt.covered hd
  have hgrown := (grown_of_run hr hb).of_le hreg
  have hdistinct := distinct_of_le hreg hbuilt.distinct
  have hdemands := preferences_eq_ok_iff.mp hs'
  have hprefer := extends_preferAll hdistinct hdemands
  have hsame := preferences_sameTypes hs'
  obtain ⟨hnames, huses⟩ := names_of_run hr hb
  refine ⟨s', ⟨hgrown.toExtends.then_same hprefer, hgrown.records.of_extends hprefer,
    hsame.distinct hdistinct, fun name => ?_, (preferenceOf_preferAll hdemands).1, hf⟩⟩
  rw [hsame.used, hreg.used_eq, huses, hnames]

section Final

variable {us : List (String × Bool)} {s : Registry}

/-- Every parameter that is used is fixed. -/
theorem Final.exists_fixed (h : Final us r s a) {p : OpenParameter} (hp : p ∈ s.entries)
    (hname : p.name ∈ us.map Prod.fst) : ∃ f ∈ a.parameters, p.FixesTo f := by
  have hfixes := (fixAll_eq_ok_iff.mp h.fix).1
  refine exists_of_forall₂_of_mem_right hfixes.flip (mem_fixed_iff.mpr ⟨hp, ?_⟩)
  exact (h.used p.name).mpr (.inr hname)

theorem Final.exists_use (h : Final us r s a) :
    ∀ u ∈ us, ∃ f ∈ a.parameters, f.name = u.1 ∧ f.producer = u.2 := by
  intro u hu
  obtain ⟨p, hp, hname, hproducer⟩ := h.records u hu
  obtain ⟨f, hf, hpf⟩ := h.exists_fixed hp (hname ▸ List.mem_map_of_mem hu)
  refine ⟨f, hf, hpf.name.trans hname, ?_⟩
  rw [hpf.producer, hproducer]
  rfl

theorem Final.preference_eq (h : Final us r s a) :
    ∀ f ∈ a.parameters, s.preferenceOf f.name = f.preference := by
  intro f hf
  obtain ⟨p, hp, hpf⟩ := exists_of_forall₂_of_mem_right (fixAll_eq_ok_iff.mp h.fix).1 hf
  have hentry := (mem_fixed_iff.mp hp).1
  rw [hpf.name, preferenceOf_of_get? (get?_of_mem h.distinct hentry), hpf.preference]

end Final

/-- The table of an expression that is analyzed with the parameters of another table. -/
structure Seeded (us : List (String × Bool)) (seed table : ParameterTable) : Prop where
  lawful : table.Lawful
  names_eq : table.names = seed.names.filter (· ∈ us.map Prod.fst) ++
    ((us.map Prod.fst).filter (· ∉ seed.names)).eraseDups
  kept : ∀ f ∈ seed, f.name ∈ us.map Prod.fst →
    ∃ g ∈ table, g.name = f.name ∧ g.type = f.type ∧ g.producer = f.producer
  uses : ∀ u ∈ us, ∃ g ∈ table, g.name = u.1 ∧ g.producer = u.2

theorem seeded_of_ofExpr {seed : ParameterTable} (hseed : seed.Lawful)
    (h : ofExpr e x source (.ofTable seed) formatters = .ok a) :
    Seeded (e.uses x) seed a.parameters := by
  obtain ⟨s, hfinal⟩ := exists_final_of_ofExpr (distinct_ofTable seed) h
  refine ⟨lawful_of_fix hfinal.distinct hfinal.fix, ?_, fun f hf hname => ?_, hfinal.exists_use⟩
  · have hfix := hfinal.fix
    rw [fix_of_ordered (hfinal.ordered (ordered_ofTable hseed))] at hfix
    have hnames : a.parameters.names = s.names.filter (· ∈ s.used) := by
      rw [names, List.filter_map, ParameterTable.names, map_eq_map_iff]
      exact (fixAll_eq_ok_iff.mp hfix).1.flip.imp fun _ _ hpf => hpf.name
    have hused := hfinal.used
    simp only [used_ofTable, List.not_mem_nil, false_or] at hused
    rw [hnames, hfinal.names_eq, List.filter_append, fresh, names_ofTable hseed.distinct]
    simp only [hused]
    congr 1
    refine List.filter_eq_self.mpr fun name hname => ?_
    rw [List.mem_eraseDups] at hname
    exact decide_eq_true (List.mem_of_mem_filter hname)
  · have hentry : f.toOpen ∈ (ofTable seed).entries := by
      rw [entries_ofTable hseed.distinct]
      exact List.mem_map_of_mem hf
    obtain ⟨p, hp, hcontinues⟩ := hfinal.continues _ hentry
    obtain ⟨g, hg, hpg⟩ := hfinal.exists_fixed hp (hcontinues.name ▸ hname)
    have htypes := hcontinues.types
    rw [hpg.types] at htypes
    refine ⟨g, hg, hpg.name.trans hcontinues.name, ?_, ?_⟩
    · exact TypeSet.only_injective (TypeSet.eq_only_of_le htypes (TypeSet.only_ne_empty _))
    · rw [hpg.producer, hcontinues.producer f.producer rfl]
      rfl

end Analysis
end TolerantExpr
