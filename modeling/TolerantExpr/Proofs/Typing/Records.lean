import TolerantExpr.Proofs.Typing.Tables

/-!
# What a registry has recorded

A registry is asked to take note of names and to restrict what it knows of them. Whatever is asked,
nothing that it has recorded is lost or contradicted: types are only ruled out, and the order, the
preference and the use of a parameter stay once they are there. A request is refused exactly if no
parameter could meet it and keep what is recorded, and then the registry that it leaves behind is the
one it came to. Parameters are fixed as soon as each name that was mentioned has one type.
-/

namespace TolerantExpr

/-! ### Parameters -/

/-- A parameter and what it is later on: nothing that was recorded of it is lost. -/
structure OpenParameter.Retains (p q : OpenParameter) : Prop extends Continues p q where
  order : q.order = p.order
  preference : p.preference ≠ .unset → q.preference = p.preference

namespace OpenParameter.Retains

variable {p q u : OpenParameter}

theorem refl (p : OpenParameter) : p.Retains p := ⟨.refl p, rfl, fun _ => rfl⟩

theorem trans (h : p.Retains q) (h' : q.Retains u) : p.Retains u where
  toContinues := h.toContinues.trans h'.toContinues
  order := h'.order.trans h.order
  preference hp := by
    have hq := h.preference hp
    rw [← hq] at hp ⊢
    exact h'.preference hp

end OpenParameter.Retains

/-- What can be asked of a parameter. -/
inductive Demand where
  | narrow (allowed : TypeSet)
  | pin (t : ValueType)
  | prefer (wanted : Preference)
  | recordUse (producer : Bool)
deriving DecidableEq

namespace Demand

def apply : Demand → OpenParameter → Changed OpenParameter
  | narrow allowed, p => p.narrow allowed
  | pin t, p => p.pin t
  | prefer wanted, p => p.prefer wanted
  | recordUse producer, p => p.recordUse producer

/-- The parameter is what is asked for. -/
def MetBy : Demand → OpenParameter → Prop
  | narrow allowed, p => p.types ≤ allowed
  | pin t, p => p.types ≤ .only t
  | prefer wanted, p => wanted = .unset ∨ p.preference = wanted
  | recordUse producer, p => p.producer = some producer

variable {d : Demand} {p q : OpenParameter}

theorem MetBy.of_retains (h : d.MetBy p) (hq : p.Retains q) : d.MetBy q := by
  cases d with
  | narrow allowed => exact hq.types.trans h
  | pin t => exact hq.types.trans h
  | prefer wanted =>
    by_cases hw : wanted = .unset
    · exact .inl hw
    · obtain rfl := h.resolve_left hw
      exact .inr (hq.preference hw)
  | recordUse producer => exact hq.producer producer h

private theorem narrow_spec {allowed : TypeSet} (h : p.narrow allowed = .ok q) :
    p.Retains q ∧ q.types ≤ allowed ∧ (p.types ≠ .empty → q.types ≠ .empty) := by
  obtain ⟨hne, rfl⟩ := OpenParameter.narrow_eq_ok_iff.mp h
  exact ⟨⟨⟨rfl, TypeSet.inter_le_left _ _, fun _ hb => hb⟩, rfl, fun _ => rfl⟩,
    TypeSet.inter_le_right _ _, fun _ => hne⟩

/-- A demand that is accepted is met, and nothing is lost. -/
theorem apply_spec (h : d.apply p = .ok q) :
    p.Retains q ∧ d.MetBy q ∧ (p.types ≠ .empty → q.types ≠ .empty) := by
  cases d with
  | narrow allowed => exact narrow_spec h
  | pin t => exact narrow_spec h
  | prefer wanted =>
    rcases OpenParameter.prefer_eq_ok_iff.mp h with ⟨hw, rfl⟩ | ⟨hkept, rfl⟩
    · exact ⟨.refl q, .inl hw, id⟩
    · exact ⟨⟨⟨rfl, le_rfl, fun _ hb => hb⟩, rfl, fun hset => (hkept.resolve_left hset).symm⟩,
        .inr rfl, id⟩
  | recordUse producer =>
    obtain ⟨hkept, rfl⟩ := OpenParameter.recordUse_eq_ok_iff.mp h
    refine ⟨⟨⟨rfl, le_rfl, fun b hb => ?_⟩, rfl, fun _ => rfl⟩, rfl, id⟩
    rw [hb] at hkept
    exact (hkept.resolve_left (Option.some_ne_none b)).symm

/-- A demand that is refused leaves the parameter as it was. -/
theorem eq_of_apply_error {e : ParameterError} (h : d.apply p = .error e q) : q = p := by
  cases d with
  | narrow allowed => exact OpenParameter.eq_of_narrow_error h
  | pin t => exact OpenParameter.eq_of_narrow_error h
  | prefer wanted => exact (OpenParameter.eq_of_prefer_error h).2
  | recordUse producer => exact OpenParameter.eq_of_recordUse_error h

private theorem exists_narrow {allowed : TypeSet} (hq : p.Retains q) (hne : q.types ≠ .empty)
    (h : q.types ≤ allowed) : ∃ u, p.narrow allowed = .ok u :=
  ⟨_, OpenParameter.narrow_eq_ok_iff.mpr
    ⟨TypeSet.ne_empty_of_le (TypeSet.le_inter hq.types h) hne, rfl⟩⟩

/-- A demand is accepted exactly if it can be met without losing anything. -/
theorem exists_apply_iff (hp : p.types ≠ .empty) :
    (∃ q, d.apply p = .ok q) ↔ ∃ q, p.Retains q ∧ d.MetBy q ∧ q.types ≠ .empty := by
  constructor
  · rintro ⟨q, h⟩
    obtain ⟨hq, hd, hne⟩ := apply_spec h
    exact ⟨q, hq, hd, hne hp⟩
  · rintro ⟨q, hq, hd, hne⟩
    cases d with
    | narrow allowed => exact exists_narrow hq hne hd
    | pin t => exact exists_narrow hq hne hd
    | prefer wanted =>
      by_cases hw : wanted = .unset
      · exact ⟨p, OpenParameter.prefer_eq_ok_iff.mpr (.inl ⟨hw, rfl⟩)⟩
      · refine ⟨_, OpenParameter.prefer_eq_ok_iff.mpr (.inr ⟨?_, rfl⟩)⟩
        by_cases hset : p.preference = .unset
        · exact .inl hset
        · exact .inr ((hq.preference hset).symm.trans (hd.resolve_left hw))
    | recordUse producer =>
      refine ⟨_, OpenParameter.recordUse_eq_ok_iff.mpr ⟨?_, rfl⟩⟩
      cases hcurrent : p.producer with
      | none => exact .inl rfl
      | some current => exact .inr ((hq.producer current hcurrent).symm.trans hd)

end Demand

namespace Registry

variable {r s t : Registry}

/-! ### Entries -/

theorem mem_put_iff {p q : OpenParameter} :
    q ∈ (r.put p).entries ↔ q = p ∨ q ∈ r.entries ∧ q.name ≠ p.name := by
  by_cases h : r.contains p.name = true
  · rw [put_of_contains h, List.mem_map]
    constructor
    · rintro ⟨u, hu, rfl⟩
      split
      · exact .inl rfl
      · rename_i hname
        exact .inr ⟨hu, hname⟩
    · rintro (rfl | ⟨hq, hname⟩)
      · obtain ⟨u, hu⟩ := contains_iff.mp h
        obtain ⟨hmem, hname⟩ := get?_eq_some hu
        exact ⟨u, hmem, if_pos hname⟩
      · exact ⟨q, hq, if_neg hname⟩
  · rw [put_of_not_contains h, List.mem_append, List.mem_singleton, or_comm]
    refine or_congr_right (and_iff_left_of_imp fun hq hname => ?_).symm
    exact h (hname ▸ contains_of_mem hq)

/-- No set of types is empty. -/
def Possible (r : Registry) : Prop := ∀ p ∈ r.entries, p.types ≠ .empty

theorem possible_put {p : OpenParameter} (hr : r.Possible) (hp : p.types ≠ .empty) :
    (r.put p).Possible := by
  intro q hq
  rcases mem_put_iff.mp hq with rfl | ⟨hq, -⟩
  · exact hp
  · exact hr q hq

/-! ### What is kept -/

/-- A registry and what it is later on: every parameter is still there, and nothing that was
recorded of it is lost. -/
structure Retains (r s : Registry) : Prop where
  parameters : ∀ name p, r.get? name = some p → ∃ q, s.get? name = some q ∧ p.Retains q
  used : ∀ name ∈ r.used, name ∈ s.used

theorem Retains.refl (r : Registry) : r.Retains r := ⟨fun _ p hp => ⟨p, hp, .refl p⟩, fun _ h => h⟩

theorem Retains.trans (h : r.Retains s) (h' : s.Retains t) : r.Retains t where
  parameters name p hp := by
    obtain ⟨q, hq, hpq⟩ := h.parameters name p hp
    obtain ⟨u, hu, hqu⟩ := h'.parameters name q hq
    exact ⟨u, hu, hpq.trans hqu⟩
  used name hname := h'.used name (h.used name hname)

theorem Retains.contains (h : r.Retains s) {name : String} (hname : r.contains name = true) :
    s.contains name = true := by
  obtain ⟨p, hp⟩ := contains_iff.mp hname
  obtain ⟨q, hq, -⟩ := h.parameters name p hp
  exact contains_iff.mpr ⟨q, hq⟩

/-- What holds of a registry from the start, whatever is asked of it. -/
structure WellKept (r : Registry) : Prop where
  distinct : r.Distinct
  ordered : r.Ordered
  possible : r.Possible
  known : ∀ name ∈ r.used, r.contains name = true

/-! ### Changes -/

theorem exists_change_error_iff {name : String} {f : OpenParameter → Changed OpenParameter} :
    (∃ e s, r.change name f = .error e s) ↔ ∀ p, r.get? name = some p → ¬∃ q, f p = .ok q := by
  unfold change
  cases r.get? name with
  | none => simp
  | some p => cases hf : f p <;> simp [hf, Changed.map]

/-- A parameter that keeps what is recorded takes the place of the one that was there. -/
theorem put_spec (hr : r.WellKept) {p q : OpenParameter} (hp : r.get? p.name = some p)
    (hpq : p.Retains q) (hq : q.types ≠ .empty) :
    (r.put q).WellKept ∧ r.Retains (r.put q) ∧ (r.put q).get? p.name = some q ∧
      (r.put q).used = r.used := by
  have hpq' : r.get? q.name = some p := hpq.name ▸ hp
  have hput := put_of_contains (contains_iff.mpr ⟨p, hpq'⟩)
  have hget := get?_put (contains_iff.mpr ⟨p, hpq'⟩)
  have hretains : r.Retains (r.put q) := by
    refine ⟨fun name u hu => ?_, by rw [hput]; exact fun _ h => h⟩
    rw [hget]
    split
    · rename_i hname
      rw [← hname, hpq'] at hu
      exact ⟨q, rfl, Option.some.inj hu ▸ hpq⟩
    · exact ⟨u, hu, .refl u⟩
  refine ⟨⟨distinct_put hr.distinct q, ?_, ?_, ?_⟩, hretains, ?_, by rw [hput]⟩
  · exact (extends_put hr.distinct hpq' hpq.toContinues hpq.order).ordered hr.ordered
  · exact possible_put hr.possible hq
  · rw [hput]
    intro name hname
    rw [← hput]
    exact hretains.contains (hr.known name hname)
  · rw [hget, if_pos hpq.name]

theorem mention_spec (hr : r.WellKept) (name : String) :
    (r.mention name).WellKept ∧ r.Retains (r.mention name) := by
  have hretains : r.Retains (r.mention name) := by
    refine ⟨fun m p hp => ⟨p, ?_, .refl p⟩, (mem_used_mention r name).2⟩
    rw [get?_mention, hp, Option.some_or]
  refine ⟨⟨distinct_mention hr.distinct name, (extends_mention r name).ordered hr.ordered, ?_, ?_⟩,
    hretains⟩
  · rcases entries_mention r name with ⟨-, he⟩ | ⟨-, he⟩ <;> rw [Possible, he]
    · exact hr.possible
    · refine List.forall_mem_append.mpr ⟨hr.possible, List.forall_mem_singleton.mpr ?_⟩
      exact (by decide : TypeSet.full ≠ .empty)
  · intro m hm
    rcases mem_used_mention_iff.mp hm with hm | rfl
    · exact hretains.contains (hr.known m hm)
    · exact contains_mention r m

/-! ### Requests -/

/-- What can be asked of a registry. -/
inductive Request where
  | mention (name : String)
  | change (name : String) (d : Demand)
deriving DecidableEq

namespace Request

def serve : Request → Registry → Changed Registry
  | mention name, r => .ok (r.mention name)
  | change name (.narrow allowed), r => r.narrow name allowed
  | change name (.pin t), r => r.pin name t
  | change name (.prefer wanted), r => r.prefer name wanted
  | change name (.recordUse producer), r => r.recordUse name producer

theorem serve_change (name : String) (d : Demand) (r : Registry) :
    (change name d).serve r = r.change name d.apply := by
  cases d <;> rfl

/-- What is asked for holds in the registry. -/
def MetBy : Request → Registry → Prop
  | mention name, r => name ∈ r.used ∧ r.contains name = true
  | change name d, r => ∃ p, r.get? name = some p ∧ d.MetBy p

/-- No parameter of the name could be what is asked for and keep what is recorded of it. -/
def Contradicts : Request → Registry → Prop
  | mention _, _ => False
  | change name d, r => ∀ p, r.get? name = some p →
      ¬∃ q, p.Retains q ∧ d.MetBy q ∧ q.types ≠ .empty

variable {q : Request}

theorem MetBy.of_retains (h : q.MetBy r) (hs : r.Retains s) : q.MetBy s := by
  cases q with
  | mention name => exact ⟨hs.used name h.1, hs.contains h.2⟩
  | change name d =>
    obtain ⟨p, hp, hd⟩ := h
    obtain ⟨u, hu, hpu⟩ := hs.parameters name p hp
    exact ⟨u, hu, hd.of_retains hpu⟩

/-- A step keeps a registry well, loses nothing, and does what it was asked for. -/
theorem serve_spec (hr : r.WellKept) (h : q.serve r = .ok s) :
    s.WellKept ∧ r.Retains s ∧ q.MetBy s ∧
      ∀ name, name ∈ s.used ↔ name ∈ r.used ∨ q = mention name := by
  cases q with
  | mention name =>
    obtain rfl := Changed.ok.inj h
    obtain ⟨hkept, hretains⟩ := mention_spec hr name
    refine ⟨hkept, hretains, ⟨(mem_used_mention r name).1, contains_mention r name⟩, fun m => ?_⟩
    rw [mem_used_mention_iff, mention.injEq, eq_comm (a := m)]
  | change name d =>
    rw [serve_change] at h
    obtain ⟨p, u, hp, hu, rfl⟩ := change_eq_ok_iff.mp h
    obtain ⟨hmem, rfl⟩ := get?_eq_some hp
    obtain ⟨hpu, hmet, hne⟩ := Demand.apply_spec hu
    obtain ⟨hkept, hretains, hget, hused⟩ := put_spec hr hp hpu (hne (hr.possible p hmem))
    refine ⟨hkept, hretains, ⟨u, hget, hmet⟩, fun m => ?_⟩
    rw [hused]
    simp

theorem exists_serve_error_iff (hr : r.WellKept) :
    (∃ e s, q.serve r = .error e s) ↔ q.Contradicts r := by
  cases q with
  | mention name =>
    constructor
    · rintro ⟨e, s, ⟨⟩⟩
    · exact False.elim
  | change name d =>
    rw [serve_change, exists_change_error_iff]
    refine forall₂_congr fun p hp => not_congr ?_
    exact Demand.exists_apply_iff (hr.possible p (get?_eq_some hp).1)

/-- A request that is refused leaves the registry as it was. -/
theorem eq_of_serve_error (hr : r.Distinct) {e : ParameterError} (h : q.serve r = .error e s) :
    s = r := by
  cases q with
  | mention name => cases h
  | change name d =>
    rw [serve_change] at h
    exact eq_of_change_error hr (fun _ _ _ => Demand.eq_of_apply_error) h

end Request

/-! ### Runs -/

/-- The registry that a request leaves behind, whether it was refused or not. -/
def after (r : Registry) (q : Request) : Registry :=
  match q.serve r with
  | .ok s => s
  | .error _ s => s

theorem after_of_refused (hr : r.Distinct) {q : Request} {e : ParameterError}
    (h : q.serve r = .error e s) : r.after q = r := by
  rw [after, h]
  exact Request.eq_of_serve_error hr h

def afterAll (r : Registry) (requests : List Request) : Registry := requests.foldl after r

theorem after_spec (hr : r.WellKept) (q : Request) :
    (r.after q).WellKept ∧ r.Retains (r.after q) ∧
      ∀ name, name ∈ (r.after q).used ↔ name ∈ r.used ∨ q = .mention name := by
  cases h : q.serve r with
  | ok s =>
    obtain ⟨hkept, hretains, -, hused⟩ := Request.serve_spec hr h
    rw [after, h]
    exact ⟨hkept, hretains, hused⟩
  | error e s =>
    rw [after_of_refused hr.distinct h]
    refine ⟨hr, .refl r, fun name => ⟨.inl, ?_⟩⟩
    rintro (hname | rfl)
    · exact hname
    · cases h

/-- A run keeps a registry well and loses nothing, and the names that were mentioned are used. -/
theorem afterAll_spec (hr : r.WellKept) (requests : List Request) :
    (r.afterAll requests).WellKept ∧ r.Retains (r.afterAll requests) ∧
      ∀ name, name ∈ (r.afterAll requests).used ↔ name ∈ r.used ∨ .mention name ∈ requests := by
  induction requests generalizing r with
  | nil => exact ⟨hr, .refl r, by simp [afterAll]⟩
  | cons q requests ih =>
    obtain ⟨hkept, hretains, hused⟩ := after_spec hr q
    obtain ⟨hkept', hretains', hused'⟩ := ih hkept
    refine ⟨hkept', hretains.trans hretains', fun name => ?_⟩
    rw [afterAll, List.foldl_cons, ← afterAll, hused', hused, List.mem_cons, eq_comm (a := q),
      or_assoc]

/-! ### Registries to start from -/

/-- A new registry, or one that knows the parameters of a table that was fixed. -/
inductive Initial : Registry → Prop
  | new : Initial {}
  | seeded {s : Registry} {table : ParameterTable} (hs : s.Distinct) (h : s.fix = .ok table) :
      Initial (ofTable table)

theorem Initial.wellKept (h : Initial r) : r.WellKept := by
  cases h with
  | new => exact ⟨List.nodup_nil, ⟨.nil, by simp⟩, by simp [Possible], by simp⟩
  | @seeded s table hs h =>
    have hlawful := lawful_of_fix hs h
    refine ⟨distinct_ofTable table, ordered_ofTable hlawful, ?_, by simp [used_ofTable]⟩
    rw [Possible, entries_ofTable hlawful.distinct]
    exact List.forall_mem_map.mpr fun f _ => TypeSet.only_ne_empty f.type

theorem Initial.used_eq (h : Initial r) : r.used = [] := by
  cases h with
  | new => rfl
  | seeded hs h => exact used_ofTable _

/-! ### Fixing -/

/-- The table has exactly the parameters that were mentioned, numbered in their order. -/
structure Tabulates (requests : List Request) (r : Registry) (table : ParameterTable) : Prop where
  names : ∀ name, name ∈ table.names ↔ .mention name ∈ requests
  distinct : table.names.Nodup
  slots : table.map FixedParameter.order = List.range table.length
  parameters : ∃ ps : List OpenParameter, ps.Pairwise (fun p q => p.order < q.order) ∧
    (∀ p, p ∈ ps ↔ p ∈ r.entries ∧ .mention p.name ∈ requests) ∧
    List.Forall₂ OpenParameter.FixesTo ps table

theorem exists_fix_iff : (∃ table, r.fix = .ok table) ↔
    ∀ p ∈ r.entries, p.name ∈ r.used → ∃ t, p.types = .only t := by
  constructor
  · rintro ⟨table, h⟩ p hp hused
    obtain ⟨f, -, hpf⟩ := exists_of_forall₂_of_mem_right (fixAll_eq_ok_iff.mp h).1.flip
      (mem_fixed_iff.mpr ⟨hp, hused⟩)
    exact ⟨f.type, hpf.types⟩
  · intro h
    refine exists_fixAll 0 fun p hp => ?_
    obtain ⟨hmem, hused⟩ := mem_fixed_iff.mp hp
    exact h p hmem hused

variable {requests : List Request}

theorem exists_fix_iff_mentioned (hr : r.WellKept)
    (hused : ∀ name, name ∈ r.used ↔ .mention name ∈ requests) :
    (∃ table, r.fix = .ok table) ↔
      ∀ name, .mention name ∈ requests → ∃ p t, r.get? name = some p ∧ p.types = .only t := by
  rw [exists_fix_iff]
  constructor
  · intro h name hname
    rw [← hused] at hname
    obtain ⟨p, hp⟩ := contains_iff.mp (hr.known name hname)
    obtain ⟨hmem, rfl⟩ := get?_eq_some hp
    obtain ⟨t, ht⟩ := h p hmem hname
    exact ⟨p, t, hp, ht⟩
  · intro h p hp hname
    obtain ⟨q, t, hq, ht⟩ := h p.name ((hused _).mp hname)
    obtain rfl := Option.some.inj ((get?_of_mem hr.distinct hp).symm.trans hq)
    exact ⟨t, ht⟩

theorem tabulates_of_fix (hr : r.WellKept)
    (hused : ∀ name, name ∈ r.used ↔ .mention name ∈ requests) {table : ParameterTable}
    (h : r.fix = .ok table) : r.Tabulates requests table where
  names name := by
    rw [mem_names_of_fix h, ← hused]
    exact ⟨fun hname => hname.2, fun hname => ⟨hr.known name hname, hname⟩⟩
  distinct := nodup_names_of_fix hr.distinct h
  slots := by
    refine List.ext_getElem (by simp) fun i hi _ => ?_
    rw [List.getElem_map, List.getElem_range]
    exact (lawful_of_fix hr.distinct h).orders i _ (List.getElem?_eq_getElem _)
  parameters := by
    rw [fix_of_ordered hr.ordered] at h
    refine ⟨_, (List.pairwise_map.mp hr.ordered.increasing).filter _, fun p => ?_,
      (fixAll_eq_ok_iff.mp h).1⟩
    rw [List.mem_filter, decide_eq_true_eq, hused]

/-! ### Reliability -/

/-- What those who ask a registry can rely on. -/
structure Reliable (requests : List Request) (r : Registry) : Prop where
  possible : r.Possible
  retains : ∀ later, r.Retains (r.afterAll later)
  met : ∀ (q : Request) (s : Registry) later, q.serve r = .ok s → q.MetBy (s.afterAll later)
  refused : ∀ q : Request, (∃ e s, q.serve r = .error e s) ↔ q.Contradicts r
  unchanged : ∀ (q : Request) e s, q.serve r = .error e s → s = r
  fixes : (∃ table, r.fix = .ok table) ↔
    ∀ name, .mention name ∈ requests → ∃ p t, r.get? name = some p ∧ p.types = .only t
  tabulates : ∀ table, r.fix = .ok table → r.Tabulates requests table

/-- After whatever was asked of it, a registry has lost nothing, refuses only what contradicts its
records, and fixes exactly the parameters that were mentioned. -/
theorem Initial.reliable_afterAll (h : Initial r) (requests : List Request) :
    (r.afterAll requests).Reliable requests := by
  obtain ⟨hkept, -, hused⟩ := afterAll_spec h.wellKept requests
  simp only [h.used_eq, List.not_mem_nil, false_or] at hused
  refine
    { possible := hkept.possible
      retains := fun later => (afterAll_spec hkept later).2.1
      met := fun q s later hs => ?_
      refused := fun q => Request.exists_serve_error_iff hkept
      unchanged := fun q e s => Request.eq_of_serve_error hkept.distinct
      fixes := exists_fix_iff_mentioned hkept hused
      tabulates := fun table => tabulates_of_fix hkept hused }
  obtain ⟨hs, -, hmet, -⟩ := Request.serve_spec hkept hs
  exact hmet.of_retains (afterAll_spec hs later).2.1

/-- A parameter of an earlier expression is used again, and cannot become a string. -/
theorem reliable_afterAll_rate :
    let r := ofTable [⟨"rate", .numeric, .unset, false, 0⟩]
    let requests := [.mention "rate", .change "rate" (.pin .string), .mention "count"]
    r.Initial ∧ (r.afterAll requests).Reliable requests := by
  have hlawful : ParameterTable.Lawful [⟨"rate", .numeric, .unset, false, 0⟩] := by
    refine ⟨by decide, fun i f hf => ?_⟩
    cases i with
    | zero => exact Option.some.inj hf ▸ rfl
    | succ i => cases hf
  obtain ⟨s, hs, h⟩ := lawful_iff_exists_fix.mp hlawful
  exact ⟨.seeded hs h, (Initial.seeded hs h).reliable_afterAll _⟩

end Registry
end TolerantExpr
