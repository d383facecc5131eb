import TolerantExpr.Proofs.Typing.Completeness
import TolerantExpr.Proofs.Typing.Outlines
import TolerantExpr.Proofs.Typing.Tables

/-!
# Analyzing an expression again

An expression that is analyzed with its own table is analyzed in the same way. The second analysis
starts from types that are decided instead of open, and presumes no defaults; but the types that
the first one found give the expression its type, its uses are those of the table, and its demands
are met already, so that nothing can fail and nothing changes.
-/

namespace TolerantExpr

/-- The demands of a tree are on parameters that it refers to. -/
theorem Node.mem_names_of_mem_demands {n : Node} : ∀ d ∈ n.demands, d.1 ∈ n.names := by
  induction n with
  | constant v s => simp [demands]
  | parameter name producer s ts => simp [demands]
  | operation op xs s ts ih =>
    rw [demands, names, List.forall_mem_append]
    refine ⟨fun d hd => ?_, fun d hd => ?_⟩
    · obtain ⟨x, hx, hd⟩ := List.mem_flatMap.mp hd
      refine mem_namesAll_iff.mpr ⟨x, hx, ?_⟩
      cases x with
      | constant v s => simp [demandAt] at hd
      | operation op ys s us => simp [demandAt] at hd
      | parameter name producer s us =>
        rw [demandAt] at hd
        split at hd
        · rw [List.mem_singleton.mp hd, names]
          exact List.mem_singleton_self _
        · simp at hd
    · obtain ⟨x, hx, hd⟩ := mem_demandsAll_iff.mp hd
      exact mem_namesAll_iff.mpr ⟨x, hx, ih x hx d hd⟩

theorem Node.KnownTo.contains_of_mem_demands {n : Node} {r : Registry} (h : n.KnownTo r) :
    ∀ d ∈ n.demands, r.contains d.1 = true := by
  unfold KnownTo at h
  exact fun d hd => h.of_mem_names d.1 (mem_names_of_mem_demands d hd)

/-- The types and uses of a table, as choices for every name. -/
theorem ParameterTable.exists_choice {table : ParameterTable} (h : table.names.Nodup) :
    ∃ (τ : String → ValueType) (π : String → Bool),
      ∀ f ∈ table, τ f.name = f.type ∧ π f.name = f.producer := by
  let find name := table.find? fun f : FixedParameter => f.name = name
  refine ⟨fun name => ((find name).map FixedParameter.type).getD .numeric,
    fun name => ((find name).map FixedParameter.producer).getD false, fun f hf => ?_⟩
  have hfind : find f.name = some f := by
    have hsome : (find f.name).isSome = true :=
      List.find?_isSome.mpr ⟨f, hf, decide_eq_true rfl⟩
    obtain ⟨g, hg⟩ := Option.isSome_iff_exists.mp hsome
    have hname : g.name = f.name := by simpa using List.find?_some hg
    exact hg.trans (congrArg some
      (List.inj_on_of_nodup_map h (List.mem_of_find?_eq_some hg) hf hname))
  dsimp only
  rw [hfind]
  exact ⟨rfl, rfl⟩

namespace Registry

/-- What a table chooses is open in the registry that starts from it. -/
theorem open_ofTable {table : ParameterTable} (h : table.names.Nodup) {τ : String → ValueType}
    {π : String → Bool} (hchoice : ∀ f ∈ table, τ f.name = f.type ∧ π f.name = f.producer) :
    Analysis.Open τ π (ofTable table) := by
  have hentries := entries_ofTable h
  refine ⟨fun p hp => ?_, fun p hp producer hproducer => ?_⟩ <;> rw [hentries] at hp <;>
    obtain ⟨f, hf, rfl⟩ := List.mem_map.mp hp
  · exact (congrArg TypeSet.only (hchoice f hf).1).le
  · exact (Option.some.inj hproducer).symm.trans (hchoice f hf).2.symm

variable {table : ParameterTable} {us : List (String × Bool)} {s : Registry}
  {τ : String → ValueType}

/-- A registry that grew from a table by uses of its names still has its parameters, if no choice
of types was ruled out. -/
theorem fixesTo_of_grown (htable : table.Lawful) (hs : s.Distinct)
    (hg : Analysis.Grown us (ofTable table) s) (hus : ∀ name ∈ us.map Prod.fst, name ∈ table.names)
    (hτ : s.Allows fun name => .only (τ name)) :
    List.Forall₂ OpenParameter.FixesTo s.entries table := by
  have hnames : s.names = table.names := by
    rw [hg.names_eq, names_ofTable htable.distinct, fresh, names_ofTable htable.distinct,
      List.filter_eq_nil_iff.mpr (by simpa using hus), List.eraseDups_nil, List.append_nil]
  refine forall₂_of_map_eq hnames htable.distinct fun f hf => ?_
  have hentries := entries_ofTable htable.distinct
  have hentry : f.toOpen ∈ (ofTable table).entries := by
    rw [hentries]
    exact List.mem_map_of_mem hf
  obtain ⟨p, hp, hcontinues⟩ := hg.continues _ hentry
  refine ⟨p, hp, hcontinues.name, hcontinues.name.symm, ?_, ?_, ?_⟩
  · have hne := TypeSet.ne_empty_of_le (hτ p hp) (TypeSet.only_ne_empty _)
    exact TypeSet.eq_only_of_le hcontinues.types hne
  · have hpreference := hg.preferences p.name
    have hget := get?_of_mem (distinct_ofTable table) hentry
    rw [preferenceOf_of_get? (get?_of_mem hs hp), hcontinues.name, preferenceOf_of_get? hget]
      at hpreference
    exact hpreference.symm
  · rw [hcontinues.producer f.producer rfl]
    rfl

section FixesTo

variable {f : FixedParameter} (h : List.Forall₂ OpenParameter.FixesTo s.entries table)
include h

/-- Such a registry is decided. -/
theorem firstUndecided?_of_fixesTo : s.firstUndecided? = none := by
  rw [firstUndecided?_eq_none_iff]
  intro p hp
  obtain ⟨f, -, hpf⟩ := exists_of_forall₂_of_mem_right h.flip hp
  exact ⟨f.type, hpf.types⟩

theorem typesOf_of_fixesTo (hτ : ∀ f ∈ table, τ f.name = f.type) {name : String}
    (hname : s.contains name = true) : s.typesOf name = .only (τ name) := by
  obtain ⟨p, hp⟩ := contains_iff.mp hname
  obtain ⟨hmem, rfl⟩ := get?_eq_some hp
  obtain ⟨f, hf, hpf⟩ := exists_of_forall₂_of_mem_right h.flip hmem
  rw [typesOf_of_get? hp, hpf.types, ← hpf.name, hτ f hf]

theorem get?_of_fixesTo (hs : s.Distinct) (hf : f ∈ table) :
    ∃ p, s.get? f.name = some p ∧ p.FixesTo f := by
  obtain ⟨p, hp, hpf⟩ := exists_of_forall₂_of_mem_right h hf
  exact ⟨p, hpf.name ▸ get?_of_mem hs hp, hpf⟩

/-- Demands that the table meets change nothing. -/
theorem preferAll_of_fixesTo (hs : s.Distinct) {ds : List (String × Preference)}
    (hds : ∀ d ∈ ds, ∃ f ∈ table, f.name = d.1 ∧ (d.2 = .unset ∨ f.preference = d.2)) :
    s.preferAll ds = .ok s := by
  refine preferAll_eq_self hs (fun d hd => ?_) fun d hd => ?_ <;>
    obtain ⟨f, hf, hname, hd⟩ := hds d hd <;> obtain ⟨p, hp, hpf⟩ := get?_of_fixesTo h hs hf <;>
    rw [hname] at hp
  · exact contains_iff.mpr ⟨p, hp⟩
  · rw [preferenceOf_of_get? hp, ← hpf.preference]
    exact hd

end FixesTo

end Registry

namespace Analysis

open Registry

variable {e : Expr} {x : Extraction} {source : String} {r : Registry} {formatters : Formatters}
  {a : Analysis}

/-- The choice of types that a table makes gives an expression that was analyzed the type that was
found. -/
theorem hasType_of_ofExpr (hr : r.Distinct) (h : ofExpr e x source r formatters = .ok a)
    {τ : String → ValueType} (hτ : ∀ f ∈ a.parameters, τ f.name = f.type) :
    ∃ t, a.root.types = .only t ∧ e.HasType x τ t := by
  obtain ⟨n, σ, s, s', hb, hd, -, -, -⟩ := ofExpr_eq_ok_iff.mp h
  have hwell := ofExpr_wellTyped hr h
  have hbuilt := built_of_run hr hb
  obtain ⟨hle, -⟩ := determine_spec hbuilt.distinct hbuilt.covered hd
  obtain ⟨t, ht⟩ := hwell.resolved.exists_types_eq
  have hrefs := hwell.references.imp (Q := fun name ts => ts = .only (τ name)) fun name ts h => by
    obtain ⟨f, hf, rfl, rfl⟩ := h
    rw [hτ f hf]
  have hroot := hwell.resolved.hasType hrefs ht
  exact ⟨t, ht, (hbuilt.types τ t).mp ((Node.hasType_iff_of_le hle).mp hroot)⟩

/-- The tree of an analysis has the outline of the folded tree of the expression. -/
theorem outline_of_ofExpr (hr : r.Distinct) (h : ofExpr e x source r formatters = .ok a) :
    (e.outline x).foldTree formatters = .ok a.root.outline := by
  obtain ⟨n, σ, s, s', hb, hd, -, -, -⟩ := ofExpr_eq_ok_iff.mp h
  have hbuilt := built_of_run hr hb
  obtain ⟨hle, -⟩ := determine_spec hbuilt.distinct hbuilt.covered hd
  rw [Node.outline_eq_of_le hle]
  exact outline_of_run hr hb

variable {us : List (String × Bool)} {table : ParameterTable} {s : Registry}

/-- With a table whose types and uses are those of a typed expression, building can only fail by
folding. -/
theorem exists_run_ofTable (htable : table.names.Nodup) {τ : String → ValueType}
    {π : String → Bool} (hchoice : ∀ f ∈ table, τ f.name = f.type ∧ π f.name = f.producer)
    {t : ValueType} (htype : e.HasType x τ t) (huses : ∀ u ∈ e.uses x, u.2 = π u.1) {o : Node}
    (hfold : (e.outline x).foldTree formatters = .ok o) :
    ∃ n σ, (build x formatters e).run { registry := ofTable table } = (.ok n, σ) ∧
      (σ.registry.Allows fun name => .only (τ name)) ∧ Admits τ t n := by
  have hdistinct := distinct_ofTable table
  have hkeeps : Meets (build x formatters e) { registry := ofTable table }
      (fun n υ => Open τ π υ.registry ∧ Admits τ t n) fun fault _ => IsFold fault :=
    build_keeps e _ t hdistinct (open_ofTable htable hchoice) htype huses
  unfold Meets at hkeeps
  rcases hb : (build x formatters e).run { registry := ofTable table } with
    ⟨fault | n, σ⟩ <;> rw [hb] at hkeeps
  · exact absurd hkeeps (not_isFold_of_run hdistinct hb hfold)
  · exact ⟨n, σ, rfl, hkeeps.1.allows, hkeeps.2⟩

/-- Types are determined where the registry grew from a table by uses of its names: every parameter
is decided, so that no default is presumed. -/
theorem determine_of_grown (htable : table.Lawful) (hs : s.Distinct)
    (hg : Grown us (ofTable table) s) (hus : ∀ name ∈ us.map Prod.fst, name ∈ table.names)
    {τ : String → ValueType} (hτ : s.Allows fun name => .only (τ name)) {m n : Node}
    (hn : n.CoveredBy s) (hm : m ≤ n) (hc : m.Consistent fun name => .only (τ name)) :
    ∃ root s', determine n s = .ok (root, s') ∧
      List.Forall₂ OpenParameter.FixesTo s'.entries table := by
  have hfixes : ∀ {s' : Registry}, s' ≤ s → (s'.Allows fun name => .only (τ name)) →
      List.Forall₂ OpenParameter.FixesTo s'.entries table := fun hle =>
    fixesTo_of_grown htable (distinct_of_le hle hs) (hg.of_le hle) hus
  have hpresumed : presumptions n s = [] := by
    obtain ⟨-, -, hpτ⟩ := Node.propagate_keeps n hs hτ hn.knownTo hm hc
    refine presumptions_of_decided (firstUndecided?_of_fixesTo (hfixes ?_ hpτ))
    exact (Node.propagate_le n hs).2
  obtain ⟨root, s', hd, -, hsτ⟩ := determine_keeps hs hn hτ hm hc (by simp [hpresumed])
  obtain ⟨-, hreg, -⟩ := determine_spec hs hn hd
  exact ⟨root, s', hd, hfixes hreg hsτ⟩

/-- What an analysis hands over is what an analysis from its own table hands over. -/
theorem ofExpr_ofTable (hr : r.Distinct) (hused : r.used = [])
    (h : ofExpr e x source r formatters = .ok a) :
    ofExpr e x source (.ofTable a.parameters) formatters = .ok a := by
  obtain ⟨s, hfinal⟩ := exists_final_of_ofExpr hr h
  have hlawful := lawful_of_fix hfinal.distinct hfinal.fix
  have hwell := ofExpr_wellTyped hr h
  obtain ⟨hroot, hnames⟩ := names_of_ofExpr hr hused h
  obtain ⟨τ, π, hchoice⟩ := ParameterTable.exists_choice hlawful.distinct
  have hτ : ∀ f ∈ a.parameters, τ f.name = f.type := fun f hf => (hchoice f hf).1
  obtain ⟨t, ht, htype⟩ := hasType_of_ofExpr hr h hτ
  have hfold := outline_of_ofExpr hr h
  have hus : ∀ name ∈ (e.uses x).map Prod.fst, name ∈ a.parameters.names := fun name hname =>
    (hnames name).mpr (hroot ▸ hname)
  have huses : ∀ u ∈ e.uses x, u.2 = π u.1 := by
    intro u hu
    obtain ⟨f, hf, hname, hproducer⟩ := hfinal.exists_use u hu
    rw [← hproducer, ← hname, (hchoice f hf).2]
  have hdistinct := distinct_ofTable a.parameters
  obtain ⟨n, σ, hb, hallows, m, hm, hc, -⟩ :=
    exists_run_ofTable hlawful.distinct hchoice htype huses hfold
  have hbuilt := built_of_run hdistinct hb
  have hgrown := grown_of_run hdistinct hb
  obtain ⟨root, s, hdet, hfixes⟩ :=
    determine_of_grown hlawful hbuilt.distinct hgrown hus hallows hbuilt.covered hm hc
  obtain ⟨hle, hreg, hcov, hcons, hnone, -⟩ :=
    determine_spec hbuilt.distinct hbuilt.covered hdet
  have hsdistinct := distinct_of_le hreg hbuilt.distinct
  -- the tree has the same outline, and its references the same types
  have hrooteq : root = a.root := by
    refine (resolved_of_decided hcons hcov hnone).eq_of_outline_eq hwell.resolved ?_ ?_ ?_
      (τ := τ)
    · exact (hcons.references.and hcov).imp fun name ts h =>
        h.1.trans (typesOf_of_fixesTo hfixes hτ h.2.1)
    · exact hwell.references.imp fun name ts ⟨f, hf, hname, hts⟩ => by rw [hts, ← hname, hτ f hf]
    · rw [Node.outline_eq_of_le hle]
      exact Except.ok.inj ((outline_of_run hdistinct hb).symm.trans hfold)
  subst hrooteq
  -- its demands were met by the first analysis
  have hpreferences : preferences a.root s = .ok s := by
    refine preferences_eq_ok_iff.mpr (preferAll_of_fixesTo hfixes hsdistinct fun d hd => ?_)
    obtain ⟨f, hf, hname⟩ := List.mem_map.mp ((hnames d.1).mpr (Node.mem_names_of_mem_demands d hd))
    refine ⟨f, hf, hname, ?_⟩
    rw [← hfinal.preference_eq f hf, hname]
    exact hfinal.demands d hd
  have hfix : s.fix = .ok a.parameters := by
    refine fix_of_fixesTo ((hgrown.of_le hreg).ordered (ordered_ofTable hlawful)) hlawful hfixes ?_
    obtain ⟨hbnames, hbuses⟩ := names_of_run hdistinct hb
    intro name hname
    rw [hreg.used_eq, hbuses, hbnames, ← hroot]
    exact .inr ((hnames name).mp hname)
  have htype? : a.root.type?.isSome = true := by
    rw [Node.type?, ht, TypeSet.single?_only]
    rfl
  exact ofExpr_eq_ok_iff.mpr ⟨n, σ, s, s, hb, hdet, htype?, hpreferences, hfix⟩

end Analysis
end TolerantExpr
