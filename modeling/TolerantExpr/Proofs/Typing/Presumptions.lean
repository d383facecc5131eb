import TolerantExpr.Proofs.Typing.Reanalysis

/-!
# Analyses that cannot fail

An expression with a type under some choice is analyzed with that choice if every default that may
be presumed agrees with it, the constant parts have values, and no operation wants a parameter to
be an integer or a double. Parameters then keep the preferences that they had.
-/

namespace TolerantExpr.Analysis

variable {τ : String → ValueType}

/-- Defaults that agree with a choice wherever the choice is possible agree with it in turn. -/
theorem presumptions_agree {root : Node} {r : Registry} (hr : r.Distinct) (hroot : root.CoveredBy r)
    (hτ : r.Allows fun name => .only (τ name)) {m : Node} (hm : m ≤ root)
    (hc : m.Consistent fun name => .only (τ name))
    (hpresume : ∀ n ≤ root, ∀ p : OpenParameter, .only (τ p.name) ≤ p.types →
      presumption p n = τ p.name) :
    ∀ d ∈ presumptions root r, τ d.1 = d.2 := by
  induction hw : r.weight using Nat.strongRecOn generalizing root r with
  | ind w ih =>
    obtain ⟨hf, hsub, hallows⟩ := Node.propagate_keeps root hr hτ hroot.knownTo hm hc
    cases hu : (root.propagate r).registry.firstUndecided? with
    | none =>
      rw [presumptions_of_decided hu]
      simp
    | some p =>
      obtain ⟨hle, hreg⟩ := Node.propagate_le root hr
      obtain ⟨hcov, -⟩ := Node.propagate_consistent root hr hroot hf
      have hmem := (Registry.mem_of_firstUndecided? hu).1
      have hagree := hpresume _ hle p (hallows p hmem)
      obtain ⟨hnext, hsub', hallows'⟩ := assume_keeps (Registry.distinct_of_le hreg hr) hallows
        hcov.knownTo hmem (congrArg TypeSet.only hagree.symm) hsub hc
      change (presume p (root.propagate r)).fault = none at hnext
      obtain ⟨hle', hreg', hcov', -, hlt⟩ := presume_spec hr hroot hf hu hnext
      intro d hd
      rcases (mem_presumptions_iff hf hu hnext hlt).mp hd with rfl | hd
      · exact hagree.symm
      · exact ih _ (hw ▸ hlt) (Registry.distinct_of_le hreg' hr) hcov' hallows' hsub'
          (fun n hn => hpresume n (hn.trans hle')) rfl d hd

variable {π : String → Bool} {e : Expr} {x : Extraction} {r : Registry} {formatters : Formatters}
  {t : ValueType}

/-- An expression with a type under a choice that the registry leaves open can be analyzed, and has
that type and the parameters of the choice, if defaults agree with the choice and no operation makes
a demand. What that takes is asked of every tree with the outline of the folded one. -/
theorem exists_ofExpr_of_hasType (source : String) (hr : r.Distinct) (hopen : Open τ π r)
    (he : e.HasType x τ t) (hu : ∀ u ∈ e.uses x, u.2 = π u.1) {m : Node}
    (hfold : (e.outline x).foldTree formatters = .ok m)
    (hpresume : ∀ n : Node, n.outline = m → ∀ p : OpenParameter, .only (τ p.name) ≤ p.types →
      presumption p n = τ p.name)
    (hdemands : ∀ n : Node, n.outline = m → ∀ d ∈ n.demands, d.2 = .unset) :
    ∃ a, ofExpr e x source r formatters = .ok a ∧ a.root.types = .only t ∧
      ∀ f ∈ a.parameters, f.type = τ f.name ∧ f.preference = r.preferenceOf f.name := by
  have hkeeps : Meets (build x formatters e) { registry := r }
      (fun n υ => Open τ π υ.registry ∧ Admits τ t n) fun fault _ => IsFold fault :=
    build_keeps e _ t hr hopen he hu
  unfold Meets at hkeeps
  rcases hb : (build x formatters e).run { registry := r } with ⟨fault | n, σ⟩ <;>
    rw [hb] at hkeeps
  · exact absurd hkeeps (not_isFold_of_run hr hb hfold)
  obtain ⟨⟨hallows, -⟩, k, hk, hc, hkt⟩ := hkeeps
  have hbuilt := built_of_run hr hb
  have houtline : n.outline = m := Except.ok.inj ((outline_of_run hr hb).symm.trans hfold)
  have hagree := presumptions_agree hbuilt.distinct hbuilt.covered hallows hk hc fun n' hn' =>
    hpresume n' ((Node.outline_eq_of_le hn').trans houtline)
  obtain ⟨root, s, hdet, hkroot, hsτ⟩ :=
    determine_keeps hbuilt.distinct hbuilt.covered hallows hk hc hagree
  obtain ⟨hle, hreg, hcov, -, hnone, -⟩ := determine_spec hbuilt.distinct hbuilt.covered hdet
  have hdistinct := Registry.distinct_of_le hreg hbuilt.distinct
  have hdecided := Registry.firstUndecided?_eq_none_iff.mp hnone
  have hpreferences : preferences root s = .ok s := by
    have hnothing := hdemands root ((Node.outline_eq_of_le hle).trans houtline)
    exact preferences_eq_ok_iff.mpr (Registry.preferAll_eq_self hdistinct
      hcov.knownTo.contains_of_mem_demands fun d hd => .inl (hnothing d hd))
  obtain ⟨table, htable⟩ := Registry.exists_fixAll 0 fun p hp =>
    hdecided p (Registry.mem_fixed_iff.mp hp).1
  have hsome := type?_of_determine hbuilt hdet
  have hroot : root.types = .only t := by
    obtain ⟨u, hu⟩ := Option.isSome_iff_exists.mp hsome
    rw [Node.type?, TypeSet.single?_eq_some_iff] at hu
    have hle := Node.types_le_of_le hkroot
    rw [hkt, hu] at hle
    rw [hu, TypeSet.eq_only_of_le hle (TypeSet.only_ne_empty t)]
  refine ⟨⟨root, table⟩, ofExpr_eq_ok_iff.mpr ⟨n, σ, s, s, hb, hdet, hsome, hpreferences, htable⟩,
    hroot, fun f hf => ?_⟩
  obtain ⟨p, hp, hpf⟩ := exists_of_forall₂_of_mem_right (Registry.fixAll_eq_ok_iff.mp htable).1 hf
  have hmem := (Registry.mem_fixed_iff.mp hp).1
  have hallowed := hsτ p hmem
  have hgrown := (grown_of_run hr hb).of_le hreg
  rw [hpf.types] at hallowed
  refine ⟨?_, ?_⟩
  · rw [hpf.name]
    exact (TypeSet.only_injective (TypeSet.eq_only_of_le hallowed (TypeSet.only_ne_empty _))).symm
  · rw [hpf.name, ← hgrown.preferences, hpf.preference,
      Registry.preferenceOf_of_get? (Registry.get?_of_mem hdistinct hmem)]

end TolerantExpr.Analysis
