import TolerantExpr.Proofs.Typing.Registries
import TolerantExpr.Proofs.Typing.Trees

/-!
# What narrowing does

Narrowing only rules types out. It keeps every consistent choice that it starts above, without
a fault, and where it comes to rest without one it leaves a consistent tree. Each of these is shown
of one step of stabilizing a node, then of a sweep, then of sweeps until nothing changes.
-/

namespace TolerantExpr.Node

/-! ### Steps -/

section Steps

variable {r s : Registry} {name : String} {producer : Bool} {span : Span} {types : TypeSet}
  {op : Operation} {operands : List Node} {overloads : List Overload} {position : Nat} {x : Node}
  {xs : List Node} {allowed : TypeSet} {n : Node}

theorem stabilize_parameter_error {e : ParameterError} (h : r.narrow name types = .error e s) :
    stabilize (parameter name producer span types) r =
      ⟨parameter name producer span types, s, some (.ofParameter e span)⟩ := by
  rw [stabilize, h]

theorem stabilize_parameter_ok (h : r.narrow name types = .ok s) :
    stabilize (parameter name producer span types) r =
      ⟨parameter name producer span (s.typesOf name), s, none⟩ := by
  rw [stabilize, h]

theorem stabilize_mismatch (h : (viable op operands types).isEmpty = true) :
    stabilize (operation op operands span types) r =
      ⟨operation op operands span types, r, some (mismatch op operands span types)⟩ := by
  rw [stabilize]
  exact if_pos h

theorem stabilize_again (h : ¬(viable op operands types).isEmpty = true)
    (hlt : (operation op (narrowOperands (viable op operands types) 0 operands r).subject span
        (Overload.results (viable op operands types))).weight
        < (operation op operands span types).weight ∧
      (narrowOperands (viable op operands types) 0 operands r).fault.isNone = true) :
    stabilize (operation op operands span types) r =
      stabilize (operation op (narrowOperands (viable op operands types) 0 operands r).subject span
          (Overload.results (viable op operands types)))
        (narrowOperands (viable op operands types) 0 operands r).registry := by
  rw [stabilize]
  exact (if_neg h).trans (if_pos hlt)

theorem stabilize_stop (h : ¬(viable op operands types).isEmpty = true)
    (hlt : ¬((operation op (narrowOperands (viable op operands types) 0 operands r).subject span
        (Overload.results (viable op operands types))).weight
        < (operation op operands span types).weight ∧
      (narrowOperands (viable op operands types) 0 operands r).fault.isNone = true)) :
    stabilize (operation op operands span types) r =
      ⟨operation op (narrowOperands (viable op operands types) 0 operands r).subject span
          (Overload.results (viable op operands types)),
        (narrowOperands (viable op operands types) 0 operands r).registry,
        (narrowOperands (viable op operands types) 0 operands r).fault⟩ := by
  rw [stabilize]
  exact (if_neg h).trans (if_neg hlt)

theorem narrowOperands_fault {fault : TypeFault}
    (h : (restrict (Overload.argumentTypes overloads position) x r).fault = some fault) :
    narrowOperands overloads position (x :: xs) r =
      ⟨(restrict (Overload.argumentTypes overloads position) x r).subject :: xs,
        (restrict (Overload.argumentTypes overloads position) x r).registry, some fault⟩ := by
  rw [narrowOperands, h]

theorem narrowOperands_cons
    (h : (restrict (Overload.argumentTypes overloads position) x r).fault = none) :
    narrowOperands overloads position (x :: xs) r =
      ⟨(restrict (Overload.argumentTypes overloads position) x r).subject ::
          (narrowOperands overloads (position + 1) xs
            (restrict (Overload.argumentTypes overloads position) x r).registry).subject,
        (narrowOperands overloads (position + 1) xs
          (restrict (Overload.argumentTypes overloads position) x r).registry).registry,
        (narrowOperands overloads (position + 1) xs
          (restrict (Overload.argumentTypes overloads position) x r).registry).fault⟩ := by
  rw [narrowOperands, h]

theorem restrict_conflict (h : n.types.inter allowed = .empty) :
    restrict allowed n r = ⟨n, r, some (n.conflict allowed)⟩ := by
  rw [restrict]
  exact if_pos h

theorem restrict_unchanged (hne : n.types.inter allowed ≠ .empty)
    (h : n.types.inter allowed = n.types) : restrict allowed n r = ⟨n, r, none⟩ := by
  rw [restrict]
  exact (if_neg hne).trans (if_pos h)

theorem restrict_narrower (hne : n.types.inter allowed ≠ .empty)
    (h : n.types.inter allowed ≠ n.types) :
    restrict allowed n r = stabilize (n.withTypes (n.types.inter allowed)) r := by
  rw [restrict]
  exact (if_neg hne).trans (if_neg h)

end Steps

/-! ### Narrowing only rules out -/

private theorem narrowing_le :
    (∀ n r, r.Distinct → (stabilize n r).subject ≤ n ∧ (stabilize n r).registry ≤ r) ∧
    (∀ os i xs r, r.Distinct →
      List.Forall₂ (· ≤ ·) (narrowOperands os i xs r).subject xs ∧
        (narrowOperands os i xs r).registry ≤ r) ∧
    (∀ allowed n r, r.Distinct →
      (restrict allowed n r).subject ≤ n ∧ (restrict allowed n r).registry ≤ r) := by
  -- here and below, cases 1 to 6 are of `stabilize`: a constant, a parameter that fails or is
  -- narrowed, and an operation without overloads, not yet at rest, or at rest; cases 7 to 9 are of
  -- `narrowOperands` and cases 10 to 12 of `restrict`
  apply stabilize.mutual_induct
  case case1 =>
    intro r v s _
    rw [stabilize]
    exact ⟨le_rfl, le_rfl⟩
  case case2 =>
    intro r name producer s ts e r' he hr
    rw [stabilize_parameter_error he]
    exact ⟨le_rfl, (Registry.eq_of_narrow_error hr he).le⟩
  case case3 =>
    intro r name producer s ts r' hr' hr
    rw [stabilize_parameter_ok hr']
    refine ⟨.parameter ?_, Registry.le_of_narrow hr hr'⟩
    rw [(Registry.typesOf_of_narrow hr').1]
    exact TypeSet.inter_le_right _ _
  case case4 =>
    intro r op xs s ts os hos _
    rw [stabilize_mismatch hos]
    exact ⟨le_rfl, le_rfl⟩
  case case5 =>
    intro r op xs s ts os hos narrowed next hlt _ ihxs ih hr
    rw [stabilize_again hos hlt]
    obtain ⟨hxs, hreg⟩ := ihxs hr
    obtain ⟨hsub, hreg'⟩ := ih (Registry.distinct_of_le hreg hr)
    exact ⟨hsub.trans (.operation hxs (results_viable_le op xs ts)), hreg'.trans hreg⟩
  case case6 =>
    intro r op xs s ts os hos narrowed next hlt ihxs hr
    rw [stabilize_stop hos hlt]
    obtain ⟨hxs, hreg⟩ := ihxs hr
    exact ⟨.operation hxs (results_viable_le op xs ts), hreg⟩
  case case7 =>
    intro os i r _
    rw [narrowOperands]
    exact ⟨.nil, le_rfl⟩
  case case8 =>
    intro os i r x xs first fault hf ih hr
    rw [narrowOperands_fault hf]
    exact ⟨.cons (ih hr).1 (forall₂_le_refl xs), (ih hr).2⟩
  case case9 =>
    intro os i r x xs first hf ihx ihxs hr
    rw [narrowOperands_cons hf]
    obtain ⟨hx, hreg⟩ := ihx hr
    obtain ⟨hxs, hreg'⟩ := ihxs (Registry.distinct_of_le hreg hr)
    exact ⟨.cons hx hxs, hreg'.trans hreg⟩
  case case10 =>
    intro allowed n r ts hts _
    rw [restrict_conflict hts]
    exact ⟨le_rfl, le_rfl⟩
  case case11 =>
    intro allowed n r ts hne hts _
    rw [restrict_unchanged hne hts]
    exact ⟨le_rfl, le_rfl⟩
  case case12 =>
    intro allowed n r ts hne hts ih hr
    rw [restrict_narrower hne hts]
    exact ⟨(ih hr).1.trans (withTypes_le (TypeSet.inter_le_left _ _)), (ih hr).2⟩

variable {r : Registry}

theorem stabilize_le (n : Node) (hr : r.Distinct) :
    (stabilize n r).subject ≤ n ∧ (stabilize n r).registry ≤ r :=
  narrowing_le.1 n r hr

theorem narrowOperands_le (os : List Overload) (i : Nat) (xs : List Node) (hr : r.Distinct) :
    List.Forall₂ (· ≤ ·) (narrowOperands os i xs r).subject xs ∧
      (narrowOperands os i xs r).registry ≤ r :=
  narrowing_le.2.1 os i xs r hr

theorem restrict_le (allowed : TypeSet) (n : Node) (hr : r.Distinct) :
    (restrict allowed n r).subject ≤ n ∧ (restrict allowed n r).registry ≤ r :=
  narrowing_le.2.2 allowed n r hr

/-! ### Narrowing keeps consistent choices -/

/-- Every parameter of the tree is registered. -/
def KnownTo (r : Registry) : Node → Prop := EveryReference fun name _ => r.contains name = true

theorem KnownTo.of_le {m n : Node} {r s : Registry} (h : n.KnownTo r) (hn : m ≤ n) (hr : s ≤ r) :
    m.KnownTo s := by
  refine (EveryReference.of_le hn h).imp fun name _ hc => ?_
  rw [Registry.contains_eq_of_le hr]
  exact hc

theorem KnownTo.all_of_le {xs ys : List Node} {r s : Registry} (h : ∀ y ∈ ys, y.KnownTo r)
    (hxs : List.Forall₂ (· ≤ ·) xs ys) (hr : s ≤ r) : ∀ x ∈ xs, x.KnownTo s := by
  intro x hx
  obtain ⟨y, hy, hxy⟩ := exists_of_forall₂_of_mem_right hxs.flip hx
  exact (h y hy).of_le hxy hr

private theorem narrowing_keeps (ρ : String → TypeSet) :
    (∀ n r, r.Distinct → r.Allows ρ → n.KnownTo r → ∀ m, m ≤ n → Consistent ρ m →
      (stabilize n r).fault = none ∧ m ≤ (stabilize n r).subject ∧
        (stabilize n r).registry.Allows ρ) ∧
    (∀ os i xs r, r.Distinct → r.Allows ρ → (∀ x ∈ xs, x.KnownTo r) →
      ∀ ms, List.Forall₂ (· ≤ ·) ms xs → (∀ m ∈ ms, Consistent ρ m) →
      (∀ (j : Nat) (m : Node), ms[j]? = some m → m.types ≤ Overload.argumentTypes os (i + j)) →
      (narrowOperands os i xs r).fault = none ∧
        List.Forall₂ (· ≤ ·) ms (narrowOperands os i xs r).subject ∧
        (narrowOperands os i xs r).registry.Allows ρ) ∧
    (∀ allowed n r, r.Distinct → r.Allows ρ → n.KnownTo r → ∀ m, m ≤ n → Consistent ρ m →
      m.types ≤ allowed →
      (restrict allowed n r).fault = none ∧ m ≤ (restrict allowed n r).subject ∧
        (restrict allowed n r).registry.Allows ρ) := by
  apply stabilize.mutual_induct
  case case1 =>
    intro r v s _ hρ _ m hm _
    rw [stabilize]
    exact ⟨rfl, hm, hρ⟩
  case case2 =>
    intro r name producer s ts e r' he _ hρ hn m hm hc
    obtain ⟨us, rfl, hus⟩ := le_parameter_iff.mp hm
    cases hc with
    | parameter hne =>
      obtain ⟨u, hu, -⟩ := Registry.exists_narrow_of_allows hρ hn.of_parameter hne hus
      rw [he] at hu
      cases hu
  case case3 =>
    intro r name producer s ts r' hr' _ hρ hn m hm hc
    rw [stabilize_parameter_ok hr']
    obtain ⟨us, rfl, hus⟩ := le_parameter_iff.mp hm
    cases hc with
    | parameter hne =>
      obtain ⟨s, hs, hsρ⟩ := Registry.exists_narrow_of_allows hρ hn.of_parameter hne hus
      obtain rfl : r' = s := Changed.ok.inj (hr'.symm.trans hs)
      exact ⟨rfl, .parameter (hsρ.le_typesOf name), hsρ⟩
  case case4 =>
    intro r op xs s ts os hos _ _ _ m hm hc
    obtain ⟨ms, us, rfl, hms, hus⟩ := le_operation_iff.mp hm
    exact absurd (List.isEmpty_iff.mp hos) (hc.le_viable hms hus).1
  case case5 =>
    intro r op xs s ts os hos narrowed next hlt _ ihxs ih hr hρ hn m hm hc
    rw [stabilize_again hos hlt]
    obtain ⟨ms, us, rfl, hms, hus⟩ := le_operation_iff.mp hm
    obtain ⟨-, hresults, hargs⟩ := hc.le_viable hms hus
    obtain ⟨-, hsub, hreg⟩ := ihxs hr hρ hn.of_operation ms hms hc.of_operation fun j m hj => by
      rw [Nat.zero_add]
      exact hargs j m hj
    have hle := narrowOperands_le os 0 xs hr
    have hknown := hn.of_le (.operation hle.1 (results_viable_le op xs ts)) hle.2
    exact ih (Registry.distinct_of_le hle.2 hr) hreg hknown _ (.operation hsub hresults) hc
  case case6 =>
    intro r op xs s ts os hos narrowed next hlt ihxs hr hρ hn m hm hc
    rw [stabilize_stop hos hlt]
    obtain ⟨ms, us, rfl, hms, hus⟩ := le_operation_iff.mp hm
    obtain ⟨-, hresults, hargs⟩ := hc.le_viable hms hus
    obtain ⟨hf, hsub, hreg⟩ := ihxs hr hρ hn.of_operation ms hms hc.of_operation fun j m hj => by
      rw [Nat.zero_add]
      exact hargs j m hj
    exact ⟨hf, .operation hsub hresults, hreg⟩
  case case7 =>
    intro os i r _ hρ _ ms hms _ _
    rw [narrowOperands]
    exact ⟨rfl, hms, hρ⟩
  case case8 =>
    intro os i r x xs first fault hf ih hr hρ hn ms hms hc hargs
    obtain ⟨m, ms, hmx, hms, rfl⟩ := List.forall₂_cons_right_iff.mp hms
    have hx := ih hr hρ (hn x List.mem_cons_self) m hmx (hc m List.mem_cons_self) (hargs 0 m rfl)
    exact absurd (hf.symm.trans hx.1) (by simp)
  case case9 =>
    intro os i r x xs first hf ihx ihxs hr hρ hn ms hms hc hargs
    rw [narrowOperands_cons hf]
    obtain ⟨m, ms, hmx, hmxs, rfl⟩ := List.forall₂_cons_right_iff.mp hms
    have hle := restrict_le (Overload.argumentTypes os i) x hr
    obtain ⟨-, hx, hreg⟩ :=
      ihx hr hρ (hn x List.mem_cons_self) m hmx (hc m List.mem_cons_self) (hargs 0 m rfl)
    have hknown := KnownTo.all_of_le (fun y hy => hn y (List.mem_cons_of_mem _ hy))
      (forall₂_le_refl xs) hle.2
    obtain ⟨hf', hxs, hreg'⟩ := ihxs (Registry.distinct_of_le hle.2 hr) hreg hknown ms hmxs
      (fun m hm => hc m (List.mem_cons_of_mem _ hm)) fun j m hj => by
        rw [Nat.add_assoc, Nat.add_comm 1 j]
        exact hargs (j + 1) m hj
    exact ⟨hf', .cons hx hxs, hreg'⟩
  case case10 =>
    intro allowed n r ts hts _ _ _ m hm hc hallowed
    have := TypeSet.ne_empty_of_le (TypeSet.le_inter (types_le_of_le hm) hallowed) hc.types_ne_empty
    exact absurd hts this
  case case11 =>
    intro allowed n r ts hne hts _ hρ _ m hm _ _
    rw [restrict_unchanged hne hts]
    exact ⟨rfl, hm, hρ⟩
  case case12 =>
    intro allowed n r ts hne hts ih hr hρ hn m hm hc hallowed
    rw [restrict_narrower hne hts]
    have hin := TypeSet.le_inter (types_le_of_le hm) hallowed
    have hle : n.withTypes (n.types.inter allowed) ≤ n := withTypes_le (TypeSet.inter_le_left _ _)
    exact ih hr hρ (hn.of_le hle le_rfl) m (le_withTypes hm hin) hc

theorem stabilize_keeps {ρ : String → TypeSet} {n m : Node} (hr : r.Distinct) (hρ : r.Allows ρ)
    (hn : n.KnownTo r) (hm : m ≤ n) (hc : Consistent ρ m) :
    (stabilize n r).fault = none ∧ m ≤ (stabilize n r).subject ∧
      (stabilize n r).registry.Allows ρ :=
  (narrowing_keeps ρ).1 n r hr hρ hn m hm hc

theorem restrict_keeps {ρ : String → TypeSet} {allowed : TypeSet} {n m : Node} (hr : r.Distinct)
    (hρ : r.Allows ρ) (hn : n.KnownTo r) (hm : m ≤ n) (hc : Consistent ρ m)
    (hallowed : m.types ≤ allowed) :
    (restrict allowed n r).fault = none ∧ m ≤ (restrict allowed n r).subject ∧
      (restrict allowed n r).registry.Allows ρ :=
  (narrowing_keeps ρ).2.2 allowed n r hr hρ hn m hm hc hallowed

/-! ### Narrowing keeps references above the registry -/

/-- Every parameter of the tree is registered, and no reference lacks a type that the registry
has. -/
def CoveredBy (r : Registry) : Node → Prop :=
  EveryReference fun name ts => r.contains name = true ∧ r.typesOf name ≤ ts

theorem CoveredBy.knownTo {n : Node} (h : n.CoveredBy r) : n.KnownTo r := h.imp fun _ _ h => h.1

theorem CoveredBy.of_refines {n : Node} {r s : Registry} (h : n.CoveredBy r) (hs : s.Refines r) :
    n.CoveredBy s :=
  h.imp fun name _ ⟨hc, ht⟩ => ⟨hs.contains name hc, (hs.types name).trans ht⟩

theorem CoveredBy.of_registry_le {n : Node} {r s : Registry} (h : n.CoveredBy r) (hs : s ≤ r) :
    n.CoveredBy s := h.of_refines (Registry.refines_of_le hs)

/-- A tree stays covered when one of its operands is narrowed and stays covered. -/
theorem CoveredBy.of_operand {op : Operation} {xs ys : List Node} {x y : Node} {s : Span}
    {ts : TypeSet} {r' : Registry} (h : (operation op (xs ++ x :: ys) s ts).CoveredBy r)
    (hr : r' ≤ r) (hy : y.CoveredBy r') : (operation op (xs ++ y :: ys) s ts).CoveredBy r' := by
  have hoperands := h.of_operation
  simp only [List.mem_append, List.mem_cons] at hoperands
  refine .operation fun z hz => ?_
  simp only [List.mem_append, List.mem_cons] at hz
  rcases hz with hz | rfl | hz
  · exact CoveredBy.of_registry_le (hoperands z (.inl hz)) hr
  · exact hy
  · exact CoveredBy.of_registry_le (hoperands z (.inr (.inr hz))) hr

theorem CoveredBy.of_mem_operands {n : Node} (h : n.CoveredBy r) :
    ∀ x ∈ n.operands, x.CoveredBy r := by
  cases n with
  | operation => exact h.of_operation
  | _ => simp [operands]

private theorem narrowing_covers :
    (∀ n r, r.Distinct → (∀ x ∈ n.operands, x.CoveredBy r) → (stabilize n r).fault = none →
      (stabilize n r).subject.CoveredBy (stabilize n r).registry) ∧
    (∀ os i xs r, r.Distinct → (∀ x ∈ xs, x.CoveredBy r) → (narrowOperands os i xs r).fault = none →
      ∀ x ∈ (narrowOperands os i xs r).subject, x.CoveredBy (narrowOperands os i xs r).registry) ∧
    (∀ allowed n r, r.Distinct → n.CoveredBy r → (restrict allowed n r).fault = none →
      (restrict allowed n r).subject.CoveredBy (restrict allowed n r).registry) := by
  apply stabilize.mutual_induct
  case case1 =>
    intro r v s _ _ _
    rw [stabilize]
    exact .constant v s
  case case2 =>
    intro r name producer s ts e left he _ _ hf
    rw [stabilize_parameter_error he] at hf
    cases hf
  case case3 =>
    intro r name producer s ts r' hr' hr _ _
    rw [stabilize_parameter_ok hr']
    refine .parameter ⟨?_, le_rfl⟩
    obtain ⟨p, hp, -⟩ := Registry.narrow_eq_ok_iff.mp hr'
    rw [Registry.contains_eq_of_le (Registry.le_of_narrow hr hr')]
    exact Registry.contains_iff.mpr ⟨p, hp⟩
  case case4 =>
    intro r op xs s ts os hos _ _ hf
    rw [stabilize_mismatch hos] at hf
    cases hf
  case case5 =>
    intro r op xs s ts os hos narrowed next hlt _ ihxs ih hr hxs hf
    rw [stabilize_again hos hlt] at hf ⊢
    have hle := narrowOperands_le os 0 xs hr
    exact ih (Registry.distinct_of_le hle.2 hr) (ihxs hr hxs (Option.isNone_iff_eq_none.mp hlt.2)) hf
  case case6 =>
    intro r op xs s ts os hos narrowed next hlt ihxs hr hxs hf
    rw [stabilize_stop hos hlt] at hf ⊢
    exact .operation (ihxs hr hxs hf)
  case case7 =>
    intro os i r _ hxs _
    rw [narrowOperands]
    exact hxs
  case case8 =>
    intro os i r x xs first fault hfault _ _ _ hf
    rw [narrowOperands_fault hfault] at hf
    cases hf
  case case9 =>
    intro os i r x xs first hfirst ihx ihxs hr hxs hf
    rw [narrowOperands_cons hfirst] at hf ⊢
    have hle := restrict_le (Overload.argumentTypes os i) x hr
    have hdistinct := Registry.distinct_of_le hle.2 hr
    have hle' := narrowOperands_le os (i + 1) xs hdistinct
    have hrest := ihxs hdistinct
      (fun y hy => (hxs y (List.mem_cons_of_mem _ hy)).of_registry_le hle.2) hf
    intro y hy
    rcases List.mem_cons.mp hy with rfl | hy
    · exact (ihx hr (hxs x List.mem_cons_self) hfirst).of_registry_le hle'.2
    · exact hrest y hy
  case case10 =>
    intro allowed n r ts hts _ _ hf
    rw [restrict_conflict hts] at hf
    cases hf
  case case11 =>
    intro allowed n r ts hne hts _ hn _
    rw [restrict_unchanged hne hts]
    exact hn
  case case12 =>
    intro allowed n r ts hne hts ih hr hn hf
    rw [restrict_narrower hne hts] at hf ⊢
    refine ih hr ?_ hf
    have := hn.of_mem_operands
    cases n <;> exact this

theorem stabilize_covers {n : Node} (hr : r.Distinct) (hn : ∀ x ∈ n.operands, x.CoveredBy r)
    (hf : (stabilize n r).fault = none) :
    (stabilize n r).subject.CoveredBy (stabilize n r).registry :=
  narrowing_covers.1 n r hr hn hf

theorem restrict_covers {allowed : TypeSet} {n : Node} (hr : r.Distinct) (hn : n.CoveredBy r)
    (hf : (restrict allowed n r).fault = none) :
    (restrict allowed n r).subject.CoveredBy (restrict allowed n r).registry :=
  narrowing_covers.2.2 allowed n r hr hn hf

/-- An operation that can be stabilized has an overload for its operands. -/
theorem exists_accepts_of_stabilize {op : Operation} {xs : List Node} {s : Span} {ts : TypeSet}
    (hf : (stabilize (operation op xs s ts) r).fault = none) :
    ∃ o ∈ op.overloads, o.accepts (xs.map types) = true := by
  by_cases hos : (viable op xs ts).isEmpty = true
  · rw [stabilize_mismatch hos] at hf
    cases hf
  · have hne : viable op xs ts ≠ [] := fun he => hos (by rw [he]; rfl)
    obtain ⟨o, ho⟩ := List.exists_mem_of_ne_nil _ hne
    exact ⟨o, (mem_viable.mp ho).1, (mem_viable.mp ho).2.1⟩

/-! ### Where narrowing is at rest -/

theorem restrict_rest {allowed : TypeSet} {n : Node} (hr : r.Distinct)
    (hf : (restrict allowed n r).fault = none) (h : (restrict allowed n r).subject = n) :
    (restrict allowed n r).registry = r ∧ n.types ≤ allowed := by
  by_cases hne : n.types.inter allowed = .empty
  · rw [restrict_conflict hne] at hf
    cases hf
  by_cases hin : n.types.inter allowed = n.types
  · rw [restrict_unchanged hne hin]
    refine ⟨rfl, ?_⟩
    rw [← hin]
    exact TypeSet.inter_le_right _ _
  · rw [restrict_narrower hne hin] at h
    have hle := (stabilize_le (n.withTypes (n.types.inter allowed)) hr).1
    rw [h] at hle
    have htypes := types_le_of_le hle
    rw [types_withTypes (TypeSet.inter_le_left _ _) hne] at htypes
    exact absurd (le_antisymm (TypeSet.inter_le_left _ _) htypes) hin

theorem narrowOperands_rest {os : List Overload} {i : Nat} {xs : List Node} (hr : r.Distinct)
    (hf : (narrowOperands os i xs r).fault = none) (h : (narrowOperands os i xs r).subject = xs) :
    (narrowOperands os i xs r).registry = r ∧
      ∀ (j : Nat) (x : Node), xs[j]? = some x → x.types ≤ Overload.argumentTypes os (i + j) := by
  induction xs generalizing i r with
  | nil =>
    rw [narrowOperands]
    exact ⟨rfl, by simp⟩
  | cons x xs ih =>
    cases hx : (restrict (Overload.argumentTypes os i) x r).fault with
    | some fault =>
      rw [narrowOperands_fault hx] at hf
      cases hf
    | none =>
      rw [narrowOperands_cons hx] at hf h ⊢
      obtain ⟨hsub, hsubs⟩ := List.cons.inj h
      obtain ⟨hreg, htypes⟩ := restrict_rest hr hx hsub
      rw [hreg] at hf hsubs ⊢
      obtain ⟨hreg', hrest⟩ := ih hr hf hsubs
      refine ⟨hreg', fun j y hj => ?_⟩
      cases j with
      | zero =>
        obtain rfl : x = y := Option.some.inj hj
        exact htypes
      | succ j =>
        rw [Nat.add_comm j 1, ← Nat.add_assoc]
        exact hrest j y hj

/-- A reference that stabilizing leaves alone has the set of its parameter in the registry. -/
theorem stabilize_parameter_rest {name : String} {producer : Bool} {s : Span} {ts : TypeSet}
    (hr : r.Distinct) (hts : r.typesOf name ≤ ts)
    (hf : (stabilize (parameter name producer s ts) r).fault = none)
    (h : (stabilize (parameter name producer s ts) r).subject = parameter name producer s ts) :
    (stabilize (parameter name producer s ts) r).registry = r ∧
      Consistent r.typesOf (parameter name producer s ts) := by
  cases hnarrow : r.narrow name ts with
  | error e left =>
    rw [stabilize_parameter_error hnarrow] at hf
    cases hf
  | ok r' =>
    rw [stabilize_parameter_ok hnarrow] at h ⊢
    obtain rfl : r' = r := Registry.narrow_of_le hr hnarrow hts
    injection h with _ _ _ heq
    subst heq
    exact ⟨rfl, .parameter (Registry.typesOf_of_narrow hnarrow).2⟩

/-- An operation that stabilizing leaves alone has the sets that its viable overloads leave. -/
theorem stabilize_rest {op : Operation} {xs : List Node} {s : Span} {ts : TypeSet}
    (hr : r.Distinct) (hf : (stabilize (operation op xs s ts) r).fault = none)
    (h : (stabilize (operation op xs s ts) r).subject = operation op xs s ts) :
    (stabilize (operation op xs s ts) r).registry = r ∧ viable op xs ts ≠ [] ∧
      Overload.results (viable op xs ts) = ts ∧
      ∀ (i : Nat) (x : Node), xs[i]? = some x →
        x.types ≤ Overload.argumentTypes (viable op xs ts) i := by
  by_cases hos : (viable op xs ts).isEmpty = true
  · rw [stabilize_mismatch hos] at hf
    cases hf
  have hle := narrowOperands_le (viable op xs ts) 0 xs hr
  by_cases hlt : (operation op (narrowOperands (viable op xs ts) 0 xs r).subject s
        (Overload.results (viable op xs ts))).weight < (operation op xs s ts).weight ∧
      (narrowOperands (viable op xs ts) 0 xs r).fault.isNone = true
  · -- stabilizing went on below the node, so it cannot have come back to it
    rw [stabilize_again hos hlt] at h
    have hsub := (stabilize_le (operation op (narrowOperands (viable op xs ts) 0 xs r).subject s
      (Overload.results (viable op xs ts))) (Registry.distinct_of_le hle.2 hr)).1
    rw [h] at hsub
    have := weight_mono hsub
    omega
  · rw [stabilize_stop hos hlt] at hf h ⊢
    injection h with _ hxs _ hts
    obtain ⟨hreg, hargs⟩ := narrowOperands_rest hr hf hxs
    refine ⟨hreg, fun he => hos (by rw [he]; rfl), hts, fun i x hi => ?_⟩
    have := hargs i x hi
    rwa [Nat.zero_add] at this

/-! ### Sweeps -/

section Sweeps

variable {op : Operation} {xs : List Node} {x : Node} {s : Span} {ts : TypeSet}

theorem sweep_operation_fault {fault : TypeFault} (h : (sweepAll xs r).fault = some fault) :
    sweep (operation op xs s ts) r =
      ⟨operation op (sweepAll xs r).subject s ts, (sweepAll xs r).registry, some fault⟩ := by
  rw [sweep, h]

theorem sweep_operation (h : (sweepAll xs r).fault = none) :
    sweep (operation op xs s ts) r =
      stabilize (operation op (sweepAll xs r).subject s ts) (sweepAll xs r).registry := by
  rw [sweep, h]

theorem sweepAll_fault {fault : TypeFault} (h : (sweep x r).fault = some fault) :
    sweepAll (x :: xs) r = ⟨(sweep x r).subject :: xs, (sweep x r).registry, some fault⟩ := by
  rw [sweepAll, h]

theorem sweepAll_cons (h : (sweep x r).fault = none) :
    sweepAll (x :: xs) r =
      ⟨(sweep x r).subject :: (sweepAll xs (sweep x r).registry).subject,
        (sweepAll xs (sweep x r).registry).registry,
        (sweepAll xs (sweep x r).registry).fault⟩ := by
  rw [sweepAll, h]

end Sweeps

mutual

theorem sweep_le (n : Node) {r : Registry} (hr : r.Distinct) :
    (sweep n r).subject ≤ n ∧ (sweep n r).registry ≤ r := by
  match n with
  | constant v s => exact stabilize_le _ hr
  | parameter name producer s ts => exact stabilize_le _ hr
  | operation op xs s ts =>
    obtain ⟨hxs, hreg⟩ := sweepAll_le xs hr
    cases hf : (sweepAll xs r).fault with
    | some fault =>
      rw [sweep_operation_fault hf]
      exact ⟨.operation hxs le_rfl, hreg⟩
    | none =>
      rw [sweep_operation hf]
      obtain ⟨hsub, hreg'⟩ := stabilize_le (operation op (sweepAll xs r).subject s ts)
        (Registry.distinct_of_le hreg hr)
      exact ⟨hsub.trans (.operation hxs le_rfl), hreg'.trans hreg⟩

theorem sweepAll_le (xs : List Node) {r : Registry} (hr : r.Distinct) :
    List.Forall₂ (· ≤ ·) (sweepAll xs r).subject xs ∧ (sweepAll xs r).registry ≤ r := by
  match xs with
  | [] => exact ⟨.nil, le_rfl⟩
  | x :: xs =>
    obtain ⟨hx, hreg⟩ := sweep_le x hr
    cases hf : (sweep x r).fault with
    | some fault =>
      rw [sweepAll_fault hf]
      exact ⟨.cons hx (forall₂_le_refl xs), hreg⟩
    | none =>
      rw [sweepAll_cons hf]
      obtain ⟨hxs, hreg'⟩ := sweepAll_le xs (Registry.distinct_of_le hreg hr)
      exact ⟨.cons hx hxs, hreg'.trans hreg⟩

end

mutual

theorem sweep_keeps {ρ : String → TypeSet} (n : Node) {m : Node} {r : Registry} (hr : r.Distinct)
    (hρ : r.Allows ρ) (hn : n.KnownTo r) (hm : m ≤ n) (hc : Consistent ρ m) :
    (sweep n r).fault = none ∧ m ≤ (sweep n r).subject ∧ (sweep n r).registry.Allows ρ := by
  match n with
  | constant v s => exact stabilize_keeps hr hρ hn hm hc
  | parameter name producer s ts => exact stabilize_keeps hr hρ hn hm hc
  | operation op xs s ts =>
    obtain ⟨ms, us, rfl, hms, hus⟩ := le_operation_iff.mp hm
    have hle := sweepAll_le xs hr
    obtain ⟨hf, hsub, hreg⟩ := sweepAll_keeps xs hr hρ hn.of_operation hms hc.of_operation
    rw [sweep_operation hf]
    have hknown : (operation op (sweepAll xs r).subject s ts).KnownTo (sweepAll xs r).registry :=
      hn.of_le (.operation hle.1 le_rfl) hle.2
    exact stabilize_keeps (Registry.distinct_of_le hle.2 hr) hreg hknown (.operation hsub hus) hc

theorem sweepAll_keeps {ρ : String → TypeSet} (xs : List Node) {ms : List Node} {r : Registry}
    (hr : r.Distinct) (hρ : r.Allows ρ) (hxs : ∀ x ∈ xs, x.KnownTo r)
    (hms : List.Forall₂ (· ≤ ·) ms xs) (hc : ∀ m ∈ ms, Consistent ρ m) :
    (sweepAll xs r).fault = none ∧ List.Forall₂ (· ≤ ·) ms (sweepAll xs r).subject ∧
      (sweepAll xs r).registry.Allows ρ := by
  match xs with
  | [] => exact ⟨rfl, hms, hρ⟩
  | x :: xs =>
    obtain ⟨m, ms, hmx, hmxs, rfl⟩ := List.forall₂_cons_right_iff.mp hms
    have hle := sweep_le x hr
    obtain ⟨hf, hx, hreg⟩ :=
      sweep_keeps x hr hρ (hxs x List.mem_cons_self) hmx (hc m List.mem_cons_self)
    rw [sweepAll_cons hf]
    have hknown := KnownTo.all_of_le (fun y hy => hxs y (List.mem_cons_of_mem _ hy))
      (forall₂_le_refl xs) hle.2
    obtain ⟨hf', hsub, hreg'⟩ := sweepAll_keeps xs (Registry.distinct_of_le hle.2 hr) hreg hknown
      hmxs fun m hm => hc m (List.mem_cons_of_mem _ hm)
    exact ⟨hf', .cons hx hsub, hreg'⟩

end

mutual

theorem sweep_covers (n : Node) {r : Registry} (hr : r.Distinct) (hn : n.CoveredBy r)
    (hf : (sweep n r).fault = none) : (sweep n r).subject.CoveredBy (sweep n r).registry := by
  match n with
  | constant v s => exact stabilize_covers hr (by simp [operands]) hf
  | parameter name producer s ts => exact stabilize_covers hr (by simp [operands]) hf
  | operation op xs s ts =>
    cases hxs : (sweepAll xs r).fault with
    | some fault =>
      rw [sweep_operation_fault hxs] at hf
      cases hf
    | none =>
      rw [sweep_operation hxs] at hf ⊢
      have hle := sweepAll_le xs hr
      refine stabilize_covers (Registry.distinct_of_le hle.2 hr) ?_ hf
      exact sweepAll_covers xs hr hn.of_operation hxs

theorem sweepAll_covers (xs : List Node) {r : Registry} (hr : r.Distinct)
    (hxs : ∀ x ∈ xs, x.CoveredBy r) (hf : (sweepAll xs r).fault = none) :
    ∀ x ∈ (sweepAll xs r).subject, x.CoveredBy (sweepAll xs r).registry := by
  match xs with
  | [] => exact hxs
  | x :: xs =>
    cases hx : (sweep x r).fault with
    | some fault =>
      rw [sweepAll_fault hx] at hf
      cases hf
    | none =>
      rw [sweepAll_cons hx] at hf ⊢
      have hle := sweep_le x hr
      have hdistinct := Registry.distinct_of_le hle.2 hr
      have hrest := sweepAll_covers xs hdistinct
        (fun y hy => (hxs y (List.mem_cons_of_mem _ hy)).of_registry_le hle.2) hf
      intro y hy
      rcases List.mem_cons.mp hy with rfl | hy
      · exact (sweep_covers x hr (hxs x List.mem_cons_self) hx).of_registry_le
          (sweepAll_le xs hdistinct).2
      · exact hrest y hy

end

mutual

/-- A tree that a sweep leaves alone is consistent, and so is the registry left alone. -/
theorem sweep_rest (n : Node) {r : Registry} (hr : r.Distinct) (hn : n.CoveredBy r)
    (hf : (sweep n r).fault = none) (h : (sweep n r).subject = n) :
    (sweep n r).registry = r ∧ Consistent r.typesOf n := by
  match n with
  | constant v s =>
    rw [sweep, stabilize]
    · exact ⟨rfl, .constant v s⟩
    · simp
  | parameter name producer s ts =>
    exact stabilize_parameter_rest hr hn.of_parameter.2 hf h
  | operation op xs s ts =>
    cases hxs : (sweepAll xs r).fault with
    | some fault =>
      rw [sweep_operation_fault hxs] at hf
      cases hf
    | none =>
      rw [sweep_operation hxs] at hf h ⊢
      have hle := sweepAll_le xs hr
      have hsub := (stabilize_le (operation op (sweepAll xs r).subject s ts)
        (Registry.distinct_of_le hle.2 hr)).1
      rw [h] at hsub
      -- going down from the operands and up again leads back to the operands
      have hback := le_antisymm (show operation op (sweepAll xs r).subject s ts ≤ _ from
        .operation hle.1 le_rfl) hsub
      injection hback with _ hback
      obtain ⟨hreg, hc⟩ := sweepAll_rest xs hr hn.of_operation hxs hback
      rw [hback, hreg] at hf h ⊢
      obtain ⟨hreg', hne, hres, hargs⟩ := stabilize_rest hr hf h
      exact ⟨hreg', .operation hc hne hres hargs⟩

theorem sweepAll_rest (xs : List Node) {r : Registry} (hr : r.Distinct)
    (hxs : ∀ x ∈ xs, x.CoveredBy r) (hf : (sweepAll xs r).fault = none)
    (h : (sweepAll xs r).subject = xs) :
    (sweepAll xs r).registry = r ∧ ∀ x ∈ xs, Consistent r.typesOf x := by
  match xs with
  | [] => exact ⟨rfl, by simp⟩
  | x :: xs =>
    cases hx : (sweep x r).fault with
    | some fault =>
      rw [sweepAll_fault hx] at hf
      cases hf
    | none =>
      rw [sweepAll_cons hx] at hf h ⊢
      obtain ⟨hsub, hsubs⟩ := List.cons.inj h
      obtain ⟨hreg, hc⟩ := sweep_rest x hr (hxs x List.mem_cons_self) hx hsub
      rw [hreg] at hf hsubs ⊢
      obtain ⟨hreg', hcs⟩ :=
        sweepAll_rest xs hr (fun y hy => hxs y (List.mem_cons_of_mem _ hy)) hf hsubs
      exact ⟨hreg', List.forall_mem_cons.mpr ⟨hc, hcs⟩⟩

end

/-! ### Propagation -/

theorem propagate_le (n : Node) {r : Registry} (hr : r.Distinct) :
    (propagate n r).subject ≤ n ∧ (propagate n r).registry ≤ r := by
  induction n, r using propagate.induct with
  | case1 n r next hlt ih =>
    rw [propagate]
    rw [if_pos hlt]
    obtain ⟨hsub, hreg⟩ := sweep_le n hr
    obtain ⟨hsub', hreg'⟩ := ih (Registry.distinct_of_le hreg hr)
    exact ⟨hsub'.trans hsub, hreg'.trans hreg⟩
  | case2 n r next hlt =>
    rw [propagate]
    rw [if_neg hlt]
    exact sweep_le n hr

theorem propagate_keeps {ρ : String → TypeSet} (n : Node) {m : Node} {r : Registry}
    (hr : r.Distinct) (hρ : r.Allows ρ) (hn : n.KnownTo r) (hm : m ≤ n) (hc : Consistent ρ m) :
    (propagate n r).fault = none ∧ m ≤ (propagate n r).subject ∧
      (propagate n r).registry.Allows ρ := by
  induction n, r using propagate.induct with
  | case1 n r next hlt ih =>
    rw [propagate]
    rw [if_pos hlt]
    have hle := sweep_le n hr
    obtain ⟨-, hsub, hreg⟩ := sweep_keeps n hr hρ hn hm hc
    exact ih (Registry.distinct_of_le hle.2 hr) hreg (hn.of_le hle.1 hle.2) hsub
  | case2 n r next hlt =>
    rw [propagate]
    rw [if_neg hlt]
    exact sweep_keeps n hr hρ hn hm hc

/-- Where propagation ends without a fault the tree is consistent. -/
theorem propagate_consistent (n : Node) {r : Registry} (hr : r.Distinct) (hn : n.CoveredBy r)
    (hf : (propagate n r).fault = none) :
    (propagate n r).subject.CoveredBy (propagate n r).registry ∧
      Consistent (propagate n r).registry.typesOf (propagate n r).subject := by
  induction n, r using propagate.induct with
  | case1 n r next hlt ih =>
    rw [propagate] at hf ⊢
    rw [if_pos hlt] at hf ⊢
    have hle := sweep_le n hr
    have hcov := sweep_covers n hr hn (Option.isNone_iff_eq_none.mp hlt.2)
    exact ih (Registry.distinct_of_le hle.2 hr) hcov hf
  | case2 n r next hlt =>
    rw [propagate] at hf ⊢
    rw [if_neg hlt] at hf ⊢
    have hle := sweep_le n hr
    -- the last sweep did not make the tree lighter, so it left the tree alone
    have hsame : (sweep n r).subject = n := by
      refine eq_of_le_of_weight_le hle.1 ?_
      by_contra hw
      exact hlt ⟨Nat.lt_of_not_le hw, Option.isNone_iff_eq_none.mpr hf⟩
    obtain ⟨hreg, hc⟩ := sweep_rest n hr hn hf hsame
    rw [hsame, hreg]
    exact ⟨hn, hc⟩

end TolerantExpr.Node
