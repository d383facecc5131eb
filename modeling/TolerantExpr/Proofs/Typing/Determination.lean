import TolerantExpr.Analysis
import TolerantExpr.Proofs.Typing.Narrowing

/-!
# Settling open choices

Where types are determined without a fault, the tree is resolved and every parameter has one type.
A choice of types under which the tree is consistent is kept as long as it agrees with the defaults
that are presumed on the way; nothing else can make it fail.
-/

namespace TolerantExpr

namespace Node

/-! ### Pinning the first reference -/

/-- A tree with one of its references to a parameter pinned. -/
inductive Pins (name : String) (t : ValueType) (r : Registry) : Node → Narrowed Node → Prop where
  | here (producer : Bool) (s : Span) (ts : TypeSet) :
    Pins name t r (parameter name producer s ts) (pin t (parameter name producer s ts) r)
  | under {op : Operation} {xs ys : List Node} {x : Node} {s : Span} {ts : TypeSet}
    {next : Narrowed Node} (h : Pins name t r x next) :
    Pins name t r (operation op (xs ++ x :: ys) s ts)
      ⟨operation op (xs ++ next.subject :: ys) s ts, next.registry, next.fault⟩

mutual

theorem pins_of_pinFirst? {name : String} {t : ValueType} {n : Node} {r : Registry}
    {next : Narrowed Node} (h : pinFirst? name t n r = some next) : Pins name t r n next := by
  match n with
  | constant v s => cases h
  | parameter m producer s ts =>
    rw [pinFirst?] at h
    by_cases hm : m = name
    · rw [if_pos hm] at h
      obtain rfl := Option.some.inj h
      subst hm
      exact .here producer s ts
    · rw [if_neg hm] at h
      cases h
  | operation op operands s ts =>
    rw [pinFirst?, Option.map_eq_some_iff] at h
    obtain ⟨below, hbelow, rfl⟩ := h
    obtain ⟨xs, x, ys, next, rfl, hx, rfl⟩ := pins_of_pinFirstOf? hbelow
    exact .under hx

theorem pins_of_pinFirstOf? {name : String} {t : ValueType} {operands : List Node} {r : Registry}
    {below : Narrowed (List Node)} (h : pinFirstOf? name t operands r = some below) :
    ∃ xs x ys next, operands = xs ++ x :: ys ∧ Pins name t r x next ∧
      below = ⟨xs ++ next.subject :: ys, next.registry, next.fault⟩ := by
  match operands with
  | [] => cases h
  | x :: xs =>
    rw [pinFirstOf?] at h
    cases hx : pinFirst? name t x r with
    | some next =>
      rw [hx] at h
      obtain rfl := Option.some.inj h
      exact ⟨[], x, xs, next, rfl, pins_of_pinFirst? hx, rfl⟩
    | none =>
      rw [hx, Option.map_eq_some_iff] at h
      obtain ⟨below, hbelow, rfl⟩ := h
      obtain ⟨ys, y, zs, next, rfl, hy, rfl⟩ := pins_of_pinFirstOf? hbelow
      exact ⟨x :: ys, y, zs, next, rfl, hy, rfl⟩

end

namespace Pins

variable {name : String} {t : ValueType} {r : Registry} {n : Node} {next : Narrowed Node}

theorem le (h : Pins name t r n next) (hr : r.Distinct) : next.subject ≤ n ∧ next.registry ≤ r := by
  induction h with
  | here producer s ts => exact restrict_le _ _ hr
  | under _ ih => exact ⟨operation_le_operation ih.1, ih.2⟩

theorem covers (h : Pins name t r n next) (hr : r.Distinct) (hn : n.CoveredBy r)
    (hf : next.fault = none) : next.subject.CoveredBy next.registry := by
  induction h with
  | here producer s ts => exact restrict_covers hr hn hf
  | under h ih => exact hn.of_operand (h.le hr).2 (ih (hn.of_operation _ (by simp)) hf)

theorem keeps {ρ : String → TypeSet} (h : Pins name t r n next) (hr : r.Distinct)
    (hρ : r.Allows ρ) (hn : n.KnownTo r) (ht : ρ name = .only t) {m : Node} (hm : m ≤ n)
    (hc : Consistent ρ m) :
    next.fault = none ∧ m ≤ next.subject ∧ next.registry.Allows ρ := by
  induction h generalizing m with
  | here producer s ts =>
    refine restrict_keeps hr hρ hn hm hc ?_
    obtain ⟨us, rfl, -⟩ := le_parameter_iff.mp hm
    rw [← ht]
    exact hc.references.of_parameter.le
  | under _ ih =>
    obtain ⟨a, hmem, ha, hnext⟩ := exists_of_le_operation hm
    obtain ⟨hf, hsub, hreg⟩ := ih (hn.of_operation _ (by simp)) ha (hc.of_mem_operands hmem)
    exact ⟨hf, hnext _ hsub, hreg⟩

/-- Pinning a reference to an undecided parameter decides it. -/
theorem decides (h : Pins name t r n next) (hn : EveryReference (fun m ts => ts = r.typesOf m) n)
    (hund : ∀ u, r.typesOf name ≠ .only u) (hf : next.fault = none) :
    next.registry.typesOf name = .only t := by
  induction h with
  | here producer s ts =>
    have hts := hn.of_parameter
    subst hts
    unfold pin at hf ⊢
    by_cases hne : (parameter name producer s (r.typesOf name)).types.inter (.only t) = .empty
    · rw [restrict_conflict hne] at hf
      cases hf
    have heq := TypeSet.eq_only_of_le (TypeSet.inter_le_right _ _) hne
    rw [heq] at hne
    have hunchanged : (parameter name producer s (r.typesOf name)).types.inter (.only t) ≠
        (parameter name producer s (r.typesOf name)).types := by
      rw [heq]
      exact (hund t).symm
    rw [← heq] at hne
    rw [restrict_narrower hne hunchanged, heq] at hf ⊢
    change (stabilize (parameter name producer s (.only t)) r).fault = none at hf
    change (stabilize (parameter name producer s (.only t)) r).registry.typesOf name = _
    cases hnarrow : r.narrow name (.only t) with
    | error e left =>
      rw [stabilize_parameter_error hnarrow] at hf
      cases hf
    | ok s' =>
      rw [stabilize_parameter_ok hnarrow]
      obtain ⟨htypes, hempty⟩ := Registry.typesOf_of_narrow hnarrow
      refine TypeSet.eq_only_of_le ?_ hempty
      rw [htypes]
      exact TypeSet.inter_le_right _ _
  | under h ih => exact ih (hn.of_operation _ (by simp)) hf

end Pins

end Node

namespace Analysis

/-! ### Assuming a default -/

section Assume

variable {p : OpenParameter} {t : ValueType} {root : Node} {r : Registry}

/-- A default is assumed at the first reference, or else in the registry alone. -/
theorem assume_cases (p : OpenParameter) (t : ValueType) (root : Node) (r : Registry) :
    Node.Pins p.name t r root (assume p t root r) ∨
      (∃ s, r.narrow p.name (.only t) = .ok s ∧ assume p t root r = ⟨root, s, none⟩) ∨
      ∃ e left fault, r.narrow p.name (.only t) = .error e left ∧
        assume p t root r = ⟨root, left, some fault⟩ := by
  unfold assume
  cases hpin : root.pinFirst? p.name t r with
  | some next => exact .inl (Node.pins_of_pinFirst? hpin)
  | none =>
    right
    change (∃ s, r.pin p.name t = .ok s ∧ _) ∨ ∃ e left fault, r.pin p.name t = .error e left ∧ _
    cases hr : r.pin p.name t with
    | ok s => exact .inl ⟨s, rfl, rfl⟩
    | error e left => exact .inr ⟨e, left, _, rfl, rfl⟩

theorem assume_le (hr : r.Distinct) :
    (assume p t root r).subject ≤ root ∧ (assume p t root r).registry ≤ r := by
  rcases assume_cases p t root r with h | ⟨s, hs, h⟩ | ⟨e, left, fault, he, h⟩
  · exact h.le hr
  · rw [h]
    exact ⟨le_rfl, Registry.le_of_narrow hr hs⟩
  · rw [h]
    exact ⟨le_rfl, (Registry.eq_of_narrow_error hr he).le⟩

theorem assume_covers (hr : r.Distinct) (hroot : root.CoveredBy r)
    (hf : (assume p t root r).fault = none) :
    (assume p t root r).subject.CoveredBy (assume p t root r).registry := by
  rcases assume_cases p t root r with h | ⟨s, hs, h⟩ | ⟨e, left, fault, -, h⟩
  · exact h.covers hr hroot hf
  · rw [h]
    exact hroot.of_registry_le (Registry.le_of_narrow hr hs)
  · rw [h] at hf
    cases hf

/-- A default that a choice agrees with can be assumed, and keeps the choice. -/
theorem assume_keeps {ρ : String → TypeSet} (hr : r.Distinct) (hρ : r.Allows ρ)
    (hroot : root.KnownTo r) (hp : p ∈ r.entries) (ht : ρ p.name = .only t) {m : Node}
    (hm : m ≤ root) (hc : Node.Consistent ρ m) :
    (assume p t root r).fault = none ∧ m ≤ (assume p t root r).subject ∧
      (assume p t root r).registry.Allows ρ := by
  have hne : ρ p.name ≠ .empty := by
    rw [ht]
    exact TypeSet.only_ne_empty t
  obtain ⟨s, hs, hsρ⟩ :=
    Registry.exists_narrow_of_allows hρ (Registry.contains_of_mem hp) hne ht.le
  rcases assume_cases p t root r with h | ⟨s', hs', h⟩ | ⟨e, left, fault, he, -⟩
  · exact h.keeps hr hρ hroot ht hm hc
  · obtain rfl := Changed.ok.inj (hs.symm.trans hs')
    rw [h]
    exact ⟨rfl, hm, hsρ⟩
  · rw [hs] at he
    cases he

/-- Assuming a default of an undecided parameter decides the parameter. -/
theorem assume_decides (hroot : root.Consistent r.typesOf) (hund : ∀ u, r.typesOf p.name ≠ .only u)
    (hf : (assume p t root r).fault = none) :
    (assume p t root r).registry.typesOf p.name = .only t := by
  rcases assume_cases p t root r with h | ⟨s, hs, h⟩ | ⟨e, left, fault, -, h⟩
  · exact h.decides hroot.references hund hf
  · rw [h]
    obtain ⟨htypes, hempty⟩ := Registry.typesOf_of_narrow hs
    refine TypeSet.eq_only_of_le ?_ hempty
    rw [htypes]
    exact TypeSet.inter_le_right _ _
  · rw [h] at hf
    cases hf

end Assume

/-! ### Determination -/

/-- The default of a parameter that nothing decides. -/
def presumption (p : OpenParameter) (root : Node) : ValueType :=
  presumedType p.types ((logicalAtFirst? p.name root).getD false)

/-- A tree to which types were propagated, with the default of a parameter assumed. -/
def presume (p : OpenParameter) (spread : Narrowed Node) : Narrowed Node :=
  assume p (presumption p spread.subject) spread.subject spread.registry

/-- The defaults that are presumed while types are determined, in order. -/
def presumptions (root : Node) (r : Registry) : List (String × ValueType) :=
  let spread := root.propagate r
  match spread.fault, spread.registry.firstUndecided? with
  | none, some p =>
    let next := presume p spread
    (p.name, presumption p spread.subject) ::
      if next.fault.isNone ∧ next.registry.weight < r.weight then
        presumptions next.subject next.registry
      else []
  | _, _ => []
termination_by r.weight
decreasing_by
  rename_i h
  exact h.2

section Determine

variable {root : Node} {r : Registry} {p : OpenParameter}

theorem determine_of_fault {fault : TypeFault} (h : (root.propagate r).fault = some fault) :
    determine root r = .error ⟨fault, none⟩ := by
  rw [determine]
  simp only [h]

theorem determine_of_decided (hf : (root.propagate r).fault = none)
    (h : (root.propagate r).registry.firstUndecided? = none) :
    determine root r = .ok ((root.propagate r).subject, (root.propagate r).registry) := by
  rw [determine]
  simp only [hf, h]

theorem determine_of_refused {fault : TypeFault} (hf : (root.propagate r).fault = none)
    (h : (root.propagate r).registry.firstUndecided? = some p)
    (hnext : (presume p (root.propagate r)).fault = some fault) :
    determine root r =
      .error ⟨fault, some (p.name, presumption p (root.propagate r).subject)⟩ := by
  unfold presume presumption at hnext
  rw [determine]
  simp only [hf, h, hnext, presumption]

theorem determine_of_presumed (hf : (root.propagate r).fault = none)
    (h : (root.propagate r).registry.firstUndecided? = some p)
    (hnext : (presume p (root.propagate r)).fault = none)
    (hlt : (presume p (root.propagate r)).registry.weight < r.weight) :
    determine root r = determine (presume p (root.propagate r)).subject
      (presume p (root.propagate r)).registry := by
  unfold presume presumption at hnext hlt ⊢
  conv => lhs; rw [determine]
  simp only [hf, h, hnext, hlt, ↓reduceIte]

/-- The loop would also end at a default that rules nothing out. -/
theorem determine_of_stuck (hf : (root.propagate r).fault = none)
    (h : (root.propagate r).registry.firstUndecided? = some p)
    (hnext : (presume p (root.propagate r)).fault = none)
    (hlt : ¬(presume p (root.propagate r)).registry.weight < r.weight) :
    determine root r = .ok ((presume p (root.propagate r)).subject,
      (presume p (root.propagate r)).registry) := by
  unfold presume presumption at hnext hlt ⊢
  rw [determine]
  simp only [hf, h, hnext, hlt, ↓reduceIte]

theorem presumptions_of_decided (h : (root.propagate r).registry.firstUndecided? = none) :
    presumptions root r = [] := by
  rw [presumptions]
  simp only [h]
  cases (root.propagate r).fault <;> rfl

theorem presumptions_of_undecided (hf : (root.propagate r).fault = none)
    (h : (root.propagate r).registry.firstUndecided? = some p) :
    (p.name, presumption p (root.propagate r).subject) ∈ presumptions root r := by
  rw [presumptions]
  simp only [hf, h]
  exact List.mem_cons_self

theorem mem_presumptions_iff (hf : (root.propagate r).fault = none)
    (h : (root.propagate r).registry.firstUndecided? = some p)
    (hnext : (presume p (root.propagate r)).fault = none)
    (hlt : (presume p (root.propagate r)).registry.weight < r.weight) {d : String × ValueType} :
    d ∈ presumptions root r ↔ d = (p.name, presumption p (root.propagate r).subject) ∨
      d ∈ presumptions (presume p (root.propagate r)).subject
        (presume p (root.propagate r)).registry := by
  conv => lhs; rw [presumptions]
  simp only [hf, h, hnext, hlt, Option.isNone_none, and_self, ↓reduceIte, List.mem_cons]

/-- A presumption that is accepted decides a parameter, and leaves all as it should be. -/
theorem presume_spec (hr : r.Distinct) (hroot : root.CoveredBy r)
    (hf : (root.propagate r).fault = none)
    (h : (root.propagate r).registry.firstUndecided? = some p)
    (hnext : (presume p (root.propagate r)).fault = none) :
    (presume p (root.propagate r)).subject ≤ root ∧
      (presume p (root.propagate r)).registry ≤ r ∧
      (presume p (root.propagate r)).subject.CoveredBy (presume p (root.propagate r)).registry ∧
      (presume p (root.propagate r)).registry.typesOf p.name =
        .only (presumption p (root.propagate r).subject) ∧
      (presume p (root.propagate r)).registry.weight < r.weight := by
  obtain ⟨hsub, hreg⟩ := Node.propagate_le root hr
  have hdistinct := Registry.distinct_of_le hreg hr
  obtain ⟨hcov, hcons⟩ := Node.propagate_consistent root hr hroot hf
  obtain ⟨hmem, hund⟩ := Registry.mem_of_firstUndecided? h
  have htypes := Registry.typesOf_of_get? (Registry.get?_of_mem hdistinct hmem)
  have hund' : ∀ u, (root.propagate r).registry.typesOf p.name ≠ .only u := by
    rw [htypes]
    exact hund
  have hle : (presume p (root.propagate r)).subject ≤ (root.propagate r).subject ∧
      (presume p (root.propagate r)).registry ≤ (root.propagate r).registry := assume_le hdistinct
  have hdecides := assume_decides hcons hund' hnext
  change (presume p (root.propagate r)).registry.typesOf p.name = _ at hdecides
  refine ⟨hle.1.trans hsub, hle.2.trans hreg, assume_covers hdistinct hcov hnext, hdecides, ?_⟩
  have hne : (presume p (root.propagate r)).registry.typesOf p.name ≠
      (root.propagate r).registry.typesOf p.name := by
    rw [hdecides]
    exact (hund' _).symm
  exact Nat.lt_of_lt_of_le (Registry.weight_lt_of_le_of_ne hle.2 hne) (Registry.weight_mono hreg)

/-- Where types are determined the tree is consistent and every parameter decided, by its default
if one was presumed. -/
theorem determine_spec {n : Node} {s : Registry} (hr : r.Distinct) (hroot : root.CoveredBy r)
    (h : determine root r = .ok (n, s)) :
    n ≤ root ∧ s ≤ r ∧ n.CoveredBy s ∧ n.Consistent s.typesOf ∧ s.firstUndecided? = none ∧
      ∀ d ∈ presumptions root r, s.typesOf d.1 = .only d.2 := by
  induction hw : r.weight using Nat.strongRecOn generalizing root r with
  | ind w ih =>
    cases hf : (root.propagate r).fault with
    | some fault =>
      rw [determine_of_fault hf] at h
      cases h
    | none =>
      cases hu : (root.propagate r).registry.firstUndecided? with
      | none =>
        rw [determine_of_decided hf hu] at h
        obtain ⟨rfl, rfl⟩ := Prod.mk.inj (Except.ok.inj h)
        obtain ⟨hsub, hreg⟩ := Node.propagate_le root hr
        obtain ⟨hcov, hcons⟩ := Node.propagate_consistent root hr hroot hf
        refine ⟨hsub, hreg, hcov, hcons, hu, ?_⟩
        rw [presumptions_of_decided hu]
        simp
      | some p =>
        cases hnext : (presume p (root.propagate r)).fault with
        | some fault =>
          rw [determine_of_refused hf hu hnext] at h
          cases h
        | none =>
          obtain ⟨hsub, hreg, hcov, hdecided, hlt⟩ := presume_spec hr hroot hf hu hnext
          rw [determine_of_presumed hf hu hnext hlt] at h
          obtain ⟨hn, hs, hcov', hcons, hnone, hall⟩ :=
            ih _ (hw ▸ hlt) (Registry.distinct_of_le hreg hr) hcov h rfl
          refine ⟨hn.trans hsub, hs.trans hreg, hcov', hcons, hnone, fun d hd => ?_⟩
          rcases (mem_presumptions_iff hf hu hnext hlt).mp hd with rfl | hd
          · have hle := Registry.typesOf_le_of_le hs p.name
            rw [hdecided] at hle
            have hcontains : s.contains p.name = true := by
              rw [Registry.contains_eq_of_le (hs.trans hreg),
                ← Registry.contains_eq_of_le (Node.propagate_le root hr).2]
              exact Registry.contains_of_mem (Registry.mem_of_firstUndecided? hu).1
            obtain ⟨u, hu⟩ := Registry.exists_typesOf_eq hnone hcontains
            refine TypeSet.eq_only_of_le hle ?_
            rw [hu]
            exact TypeSet.only_ne_empty u
          · exact hall d hd

/-- A choice under which the tree is consistent is kept, if it agrees with every default that is
presumed. -/
theorem determine_keeps {τ : String → ValueType} (hr : r.Distinct) (hroot : root.CoveredBy r)
    (hτ : r.Allows fun name => .only (τ name)) {m : Node} (hm : m ≤ root)
    (hc : m.Consistent fun name => .only (τ name))
    (hd : ∀ d ∈ presumptions root r, τ d.1 = d.2) :
    ∃ n s, determine root r = .ok (n, s) ∧ m ≤ n ∧ s.Allows fun name => .only (τ name) := by
  induction hw : r.weight using Nat.strongRecOn generalizing root r with
  | ind w ih =>
    obtain ⟨hf, hsub, hallows⟩ := Node.propagate_keeps root hr hτ hroot.knownTo hm hc
    cases hu : (root.propagate r).registry.firstUndecided? with
    | none => exact ⟨_, _, determine_of_decided hf hu, hsub, hallows⟩
    | some p =>
      obtain ⟨hle, hreg⟩ := Node.propagate_le root hr
      obtain ⟨hcov, -⟩ := Node.propagate_consistent root hr hroot hf
      have hagree := hd _ (presumptions_of_undecided hf hu)
      obtain ⟨hnext, hsub', hallows'⟩ := assume_keeps (Registry.distinct_of_le hreg hr) hallows
        hcov.knownTo (Registry.mem_of_firstUndecided? hu).1 (congrArg TypeSet.only hagree) hsub hc
      change (presume p (root.propagate r)).fault = none at hnext
      obtain ⟨-, hreg', hcov', -, hlt⟩ := presume_spec hr hroot hf hu hnext
      rw [determine_of_presumed hf hu hnext hlt]
      refine ih _ (hw ▸ hlt) (Registry.distinct_of_le hreg' hr) hcov' hallows' hsub'
        (fun d hmem => hd d ?_) rfl
      exact (mem_presumptions_iff hf hu hnext hlt).mpr (.inr hmem)

end Determine

end Analysis
end TolerantExpr
