import TolerantExpr.Proofs.Lists
import TolerantExpr.Proofs.Typing.Sets

/-!
# The order on registries

A registry lies below another one if it knows the same parameters, in the same places and with the
same uses, and no parameter has a type that it lacks in the other one. Narrowing a parameter leads
to a registry below the one it started from. Names are kept distinct, so that looking up a name
finds every entry.
-/

namespace TolerantExpr

theorem Changed.toExcept_eq_ok_iff {α : Type} {c : Changed α} {x : α} :
    c.toExcept = .ok x ↔ c = .ok x := by
  cases c <;> simp [toExcept]

theorem Changed.toExcept_eq_error_iff {α : Type} {c : Changed α} {e : ParameterError} :
    c.toExcept = .error e ↔ ∃ x, c = .error e x := by
  cases c <;> simp [toExcept]

/-- The same parameter with fewer types. -/
instance : LE OpenParameter :=
  ⟨fun p q => p = { q with types := p.types } ∧ p.types ≤ q.types⟩

namespace OpenParameter

theorem le_def {p q : OpenParameter} :
    p ≤ q ↔ p = { q with types := p.types } ∧ p.types ≤ q.types := Iff.rfl

theorem name_eq_of_le {p q : OpenParameter} (h : p ≤ q) : p.name = q.name := by
  rw [(le_def.mp h).1]

theorem producer_eq_of_le {p q : OpenParameter} (h : p ≤ q) : p.producer = q.producer := by
  rw [(le_def.mp h).1]

instance : Preorder OpenParameter where
  le_refl _ := ⟨rfl, le_rfl⟩
  le_trans p q r hpq hqr := by
    refine ⟨?_, hpq.2.trans hqr.2⟩
    rw [hpq.1, hqr.1]

theorem narrow_eq_ok_iff {p q : OpenParameter} {allowed : TypeSet} :
    p.narrow allowed = .ok q ↔
      p.types.inter allowed ≠ .empty ∧ q = { p with types := p.types.inter allowed } := by
  unfold narrow
  dsimp only
  split
  · rename_i h
    simp [h]
  · rename_i h
    simp [h, eq_comm]

theorem prefer_eq_ok_iff {p q : OpenParameter} {wanted : Preference} :
    p.prefer wanted = .ok q ↔ wanted = .unset ∧ q = p ∨
      (p.preference = .unset ∨ p.preference = wanted) ∧ q = { p with preference := wanted } := by
  obtain ⟨name, types, preference, producer, order⟩ := p
  cases wanted <;> cases preference <;> simp [prefer, eq_comm]

theorem recordUse_eq_ok_iff {p q : OpenParameter} {producer : Bool} :
    p.recordUse producer = .ok q ↔
      (p.producer = none ∨ p.producer = some producer) ∧
        q = { p with producer := some producer } := by
  obtain ⟨name, types, preference, use, order⟩ := p
  cases use with
  | none => simp [recordUse, eq_comm]
  | some use => cases use <;> cases producer <;> simp [recordUse, eq_comm]

/-! A change that fails has written nothing. -/

theorem eq_of_narrow_error {p q : OpenParameter} {allowed : TypeSet} {e : ParameterError}
    (h : p.narrow allowed = .error e q) : q = p := by
  unfold narrow at h
  dsimp only at h
  split at h <;> cases h
  rfl

theorem eq_of_prefer_error {p q : OpenParameter} {wanted : Preference} {e : ParameterError}
    (h : p.prefer wanted = .error e q) : e = .preferenceConflict p.name ∧ q = p := by
  unfold prefer at h
  split at h
  · cases h
  · split at h <;> cases h
    exact ⟨rfl, rfl⟩

theorem eq_of_recordUse_error {p q : OpenParameter} {producer : Bool} {e : ParameterError}
    (h : p.recordUse producer = .error e q) : q = p := by
  unfold recordUse at h
  split at h
  · cases h
  · split at h <;> cases h
    rfl

end OpenParameter

namespace Registry

/-- No name has two entries. -/
def Distinct (r : Registry) : Prop := (r.entries.map OpenParameter.name).Nodup

/-! ### Looking up -/

theorem get?_eq_some {r : Registry} {name : String} {p : OpenParameter} (h : r.get? name = some p) :
    p ∈ r.entries ∧ p.name = name := by
  refine ⟨List.mem_of_find?_eq_some h, ?_⟩
  simpa using List.find?_some h

theorem get?_of_mem {r : Registry} (hr : r.Distinct) {p : OpenParameter} (hp : p ∈ r.entries) :
    r.get? p.name = some p := by
  obtain ⟨entries, used, nextOrder⟩ := r
  unfold Distinct at hr
  unfold get?
  dsimp only at hp hr ⊢
  induction entries with
  | nil => simp at hp
  | cons q qs ih =>
    rw [List.map_cons, List.nodup_cons] at hr
    rcases List.mem_cons.mp hp with rfl | hp
    · simp
    · have hne : q.name ≠ p.name := fun he => hr.1 (he ▸ List.mem_map_of_mem hp)
      rw [List.find?_cons_of_neg (by simpa using hne)]
      exact ih hr.2 hp

theorem contains_iff {r : Registry} {name : String} :
    r.contains name = true ↔ ∃ p, r.get? name = some p := by
  rw [contains, Option.isSome_iff_exists]

theorem contains_of_mem {r : Registry} {p : OpenParameter} (hp : p ∈ r.entries) :
    r.contains p.name = true := by
  rw [contains, get?, List.find?_isSome]
  exact ⟨p, hp, by simp⟩

theorem typesOf_of_get? {r : Registry} {name : String} {p : OpenParameter}
    (h : r.get? name = some p) : r.typesOf name = p.types := by
  rw [typesOf, h]

theorem put_of_contains {r : Registry} {p : OpenParameter} (h : r.contains p.name = true) :
    r.put p = { r with entries := r.entries.map fun q => if q.name = p.name then p else q } := by
  rw [put, if_pos h]

theorem get?_put {r : Registry} {p : OpenParameter} (h : r.contains p.name = true) (name : String) :
    (r.put p).get? name = if p.name = name then some p else r.get? name := by
  have hname : ∀ q : OpenParameter, (if q.name = p.name then p else q).name = q.name := by
    intro q
    split
    · rename_i hq
      exact hq.symm
    · rfl
  rw [put_of_contains h, get?, List.find?_map]
  simp only [Function.comp_def, hname]
  cases hg : r.get? name with
  | none =>
    have hne : p.name ≠ name := by
      intro heq
      subst heq
      rw [contains, hg] at h
      simp at h
    rw [get?] at hg
    rw [hg, if_neg hne]
    rfl
  | some q =>
    have hq := (get?_eq_some hg).2
    rw [get?] at hg
    rw [hg, Option.map_some, hq]
    simp only [eq_comm (a := name)]
    split <;> rfl

/-! ### The order -/

/-- The same registry with fewer types left to its parameters. -/
structure Below (r s : Registry) : Prop where
  used_eq : r.used = s.used
  nextOrder_eq : r.nextOrder = s.nextOrder
  entries : List.Forall₂ (· ≤ ·) r.entries s.entries

instance : LE Registry := ⟨Below⟩

instance : Preorder Registry where
  le_refl r := ⟨rfl, rfl, List.forall₂_same.mpr fun p _ => le_refl p⟩
  le_trans r s t hrs hst := by
    refine ⟨hrs.used_eq.trans hst.used_eq, hrs.nextOrder_eq.trans hst.nextOrder_eq, ?_⟩
    exact forall₂_comp_of_mem hrs.entries hst.entries fun _ _ _ _ => le_trans

theorem names_eq_of_le {r s : Registry} (h : r ≤ s) :
    r.entries.map OpenParameter.name = s.entries.map OpenParameter.name :=
  map_eq_map_iff.mpr (h.entries.imp fun _ _ => OpenParameter.name_eq_of_le)

theorem distinct_of_le {r s : Registry} (h : r ≤ s) (hs : s.Distinct) : r.Distinct := by
  rw [Distinct, names_eq_of_le h]
  exact hs

theorem get?_rel_of_le {r s : Registry} (h : r ≤ s) (name : String) :
    Option.Rel (· ≤ ·) (r.get? name) (s.get? name) := by
  unfold get?
  have hentries := h.entries
  generalize r.entries = ps, s.entries = qs at hentries
  induction hentries with
  | nil => exact .none
  | @cons p q _ _ hpq _ ih =>
    rw [List.find?_cons, List.find?_cons, OpenParameter.name_eq_of_le hpq]
    split
    · exact .some hpq
    · exact ih

theorem contains_eq_of_le {r s : Registry} (h : r ≤ s) (name : String) :
    r.contains name = s.contains name := by
  unfold contains
  have hrel := get?_rel_of_le h name
  generalize r.get? name = p, s.get? name = q at hrel
  cases hrel <;> rfl

theorem typesOf_le_of_le {r s : Registry} (h : r ≤ s) (name : String) :
    r.typesOf name ≤ s.typesOf name := by
  unfold typesOf
  have hrel := get?_rel_of_le h name
  generalize r.get? name = p, s.get? name = q at hrel
  cases hrel with
  | none => exact le_rfl
  | some h => exact h.2

/-- Putting in a parameter with fewer types leads down. -/
theorem put_le {r : Registry} (hr : r.Distinct) {p q : OpenParameter}
    (hp : r.get? p.name = some p) (hq : q ≤ p) : r.put q ≤ r := by
  have hname := OpenParameter.name_eq_of_le hq
  have hc : r.contains q.name = true := contains_iff.mpr ⟨p, hname ▸ hp⟩
  rw [put_of_contains hc]
  refine ⟨rfl, rfl, ?_⟩
  rw [List.forall₂_map_left_iff, List.forall₂_same]
  intro s hs
  split
  · rename_i heq
    -- the entry of that name is the one that was looked up
    have := get?_of_mem hr hs
    rw [heq, hname, hp] at this
    exact Option.some.inj this ▸ hq
  · exact le_rfl

/-- How many types are left over a list of parameters. -/
private theorem card_entries_mono {ps qs : List OpenParameter} (h : List.Forall₂ (· ≤ ·) ps qs) :
    ps.foldr (fun p n => p.types.card + n) 0 ≤ qs.foldr (fun p n => p.types.card + n) 0 ∧
      (qs.foldr (fun p n => p.types.card + n) 0 ≤ ps.foldr (fun p n => p.types.card + n) 0 →
        ps = qs) := by
  induction h with
  | nil => exact ⟨Nat.le_refl _, fun _ => rfl⟩
  | @cons p q ps qs hpq _ ih =>
    obtain ⟨ihle, iheq⟩ := ih
    have hcard := TypeSet.card_mono hpq.2
    simp only [List.foldr_cons]
    refine ⟨by omega, fun hle => ?_⟩
    have htypes := TypeSet.eq_of_le_of_card_le hpq.2 (by omega)
    have hp : p = q := by rw [hpq.1, htypes]
    rw [hp, iheq (by omega)]

/-- A registry below another one that has as many types left is the same registry. -/
theorem eq_of_le_of_weight_le {r s : Registry} (h : s ≤ r) (hw : r.weight ≤ s.weight) : s = r := by
  obtain ⟨hused, horder, hentries⟩ := h
  have he := (card_entries_mono hentries).2 hw
  obtain ⟨entries, used, nextOrder⟩ := r
  obtain ⟨entries', used', nextOrder'⟩ := s
  simp only at hused horder he
  rw [hused, horder, he]

theorem weight_mono {r s : Registry} (h : s ≤ r) : s.weight ≤ r.weight :=
  (card_entries_mono h.entries).1

theorem weight_lt_of_le_of_ne {r s : Registry} (h : s ≤ r) {name : String}
    (hne : s.typesOf name ≠ r.typesOf name) : s.weight < r.weight := by
  by_contra hlt
  rw [eq_of_le_of_weight_le h (Nat.le_of_not_lt hlt)] at hne
  exact hne rfl

/-! ### Undecided parameters -/

theorem firstUndecided?_eq_none_iff {r : Registry} :
    r.firstUndecided? = none ↔ ∀ p ∈ r.entries, ∃ t, p.types = .only t := by
  unfold firstUndecided? sorted
  rw [List.find?_eq_none]
  refine forall_congr' fun p => ?_
  rw [List.mem_mergeSort]
  refine imp_congr_right fun _ => ?_
  rw [Bool.not_eq_true, Option.isNone_eq_false_iff, Option.isSome_iff_exists]
  simp only [TypeSet.single?_eq_some_iff]

theorem exists_typesOf_eq {r : Registry} (h : r.firstUndecided? = none) {name : String}
    (hc : r.contains name = true) : ∃ t, r.typesOf name = .only t := by
  obtain ⟨p, hp⟩ := contains_iff.mp hc
  rw [typesOf_of_get? hp]
  exact firstUndecided?_eq_none_iff.mp h p (get?_eq_some hp).1

theorem mem_of_firstUndecided? {r : Registry} {p : OpenParameter} (h : r.firstUndecided? = some p) :
    p ∈ r.entries ∧ ∀ t, p.types ≠ .only t := by
  unfold firstUndecided? sorted at h
  refine ⟨List.mem_mergeSort.mp (List.mem_of_find?_eq_some h), fun t ht => ?_⟩
  have hnone := List.find?_some h
  rw [ht, TypeSet.single?_only] at hnone
  cases hnone

/-! ### Changing a parameter -/

/-- A parameter that is put where it already stands changes nothing. -/
theorem put_eq_self {r : Registry} (hr : r.Distinct) {p : OpenParameter}
    (hp : r.get? p.name = some p) : r.put p = r := by
  have hentries : (r.entries.map fun q => if q.name = p.name then p else q) = r.entries := by
    refine (List.map_congr_left fun q hq => ?_).trans (List.map_id _)
    split
    · rename_i heq
      exact Option.some.inj (hp.symm.trans (heq ▸ get?_of_mem hr hq))
    · rfl
  rw [put_of_contains (contains_iff.mpr ⟨p, hp⟩), hentries]

theorem change_eq_ok_iff {r s : Registry} {name : String}
    {f : OpenParameter → Changed OpenParameter} :
    r.change name f = .ok s ↔ ∃ p q, r.get? name = some p ∧ f p = .ok q ∧ s = r.put q := by
  unfold change
  cases r.get? name with
  | none => simp
  | some p =>
    cases hf : f p with
    | error e q => simp [hf, Changed.map]
    | ok q => simp [hf, Changed.map, eq_comm]

theorem change_eq_error_iff {r s : Registry} {name : String} {e : ParameterError}
    {f : OpenParameter → Changed OpenParameter} :
    r.change name f = .error e s ↔ r.get? name = none ∧ e = .unknown name ∧ s = r ∨
      ∃ p q, r.get? name = some p ∧ f p = .error e q ∧ s = r.put q := by
  unfold change
  cases r.get? name with
  | none => simp [eq_comm]
  | some p =>
    cases hf : f p with
    | error e' q => simp [hf, Changed.map, and_assoc, eq_comm]
    | ok q => simp [hf, Changed.map]

/-- A change that leaves a parameter as it was when it fails does so within a registry. -/
theorem eq_of_change_error {r s : Registry} (hr : r.Distinct) {name : String} {e : ParameterError}
    {f : OpenParameter → Changed OpenParameter} (hf : ∀ p e q, f p = .error e q → q = p)
    (h : r.change name f = .error e s) : s = r := by
  rcases change_eq_error_iff.mp h with ⟨-, -, rfl⟩ | ⟨p, q, hp, hq, rfl⟩
  · rfl
  · obtain rfl := hf p e q hq
    exact put_eq_self hr ((get?_eq_some hp).2 ▸ hp)

/-! ### Narrowing a parameter -/

theorem narrow_eq_ok_iff {r s : Registry} {name : String} {allowed : TypeSet} :
    r.narrow name allowed = .ok s ↔ ∃ p, r.get? name = some p ∧
      p.types.inter allowed ≠ .empty ∧ s = r.put { p with types := p.types.inter allowed } := by
  rw [narrow, change_eq_ok_iff]
  refine exists_congr fun p => ⟨?_, ?_⟩
  · rintro ⟨q, hp, hq, rfl⟩
    obtain ⟨hne, rfl⟩ := OpenParameter.narrow_eq_ok_iff.mp hq
    exact ⟨hp, hne, rfl⟩
  · rintro ⟨hp, hne, rfl⟩
    exact ⟨_, hp, OpenParameter.narrow_eq_ok_iff.mpr ⟨hne, rfl⟩, rfl⟩

theorem eq_of_narrow_error {r s : Registry} (hr : r.Distinct) {name : String} {allowed : TypeSet}
    {e : ParameterError} (h : r.narrow name allowed = .error e s) : s = r :=
  eq_of_change_error hr (fun _ _ _ => OpenParameter.eq_of_narrow_error) h

theorem le_of_narrow {r s : Registry} (hr : r.Distinct) {name : String} {allowed : TypeSet}
    (h : r.narrow name allowed = .ok s) : s ≤ r := by
  obtain ⟨p, hp, -, rfl⟩ := narrow_eq_ok_iff.mp h
  have hname := (get?_eq_some hp).2
  exact put_le hr (hname ▸ hp) ⟨rfl, TypeSet.inter_le_left _ _⟩

theorem typesOf_of_narrow {r s : Registry} {name : String} {allowed : TypeSet}
    (h : r.narrow name allowed = .ok s) :
    s.typesOf name = (r.typesOf name).inter allowed ∧ s.typesOf name ≠ .empty := by
  obtain ⟨p, hp, hne, rfl⟩ := narrow_eq_ok_iff.mp h
  have hname := (get?_eq_some hp).2
  have hget := get?_put (r := r) (p := { p with types := p.types.inter allowed })
    (contains_iff.mpr ⟨p, hname ▸ hp⟩) name
  rw [if_pos hname] at hget
  rw [typesOf_of_get? hget, typesOf_of_get? hp]
  exact ⟨rfl, hne⟩

/-- Narrowing to types that the parameter is already within changes nothing. -/
theorem narrow_of_le {r s : Registry} (hr : r.Distinct) {name : String} {allowed : TypeSet}
    (h : r.narrow name allowed = .ok s) (hle : r.typesOf name ≤ allowed) : s = r := by
  obtain ⟨p, hp, -, rfl⟩ := narrow_eq_ok_iff.mp h
  obtain ⟨-, rfl⟩ := get?_eq_some hp
  rw [typesOf_of_get? hp] at hle
  rw [TypeSet.inter_eq_left hle]
  exact put_eq_self hr hp

/-! ### Choices that a registry allows -/

/-- Every parameter may still have the types that it has in the choice. -/
def Allows (r : Registry) (ρ : String → TypeSet) : Prop := ∀ p ∈ r.entries, ρ p.name ≤ p.types

theorem Allows.le_typesOf {r : Registry} {ρ : String → TypeSet} (h : r.Allows ρ) (name : String) :
    ρ name ≤ r.typesOf name := by
  unfold typesOf
  cases hg : r.get? name with
  | none => exact TypeSet.le_full _
  | some p =>
    obtain ⟨hmem, rfl⟩ := get?_eq_some hg
    exact h p hmem

/-- A choice survives a narrowing that it agrees with. -/
theorem exists_narrow_of_allows {r : Registry} {ρ : String → TypeSet} {name : String}
    {allowed : TypeSet} (h : r.Allows ρ) (hc : r.contains name = true) (hne : ρ name ≠ .empty)
    (hle : ρ name ≤ allowed) : ∃ s, r.narrow name allowed = .ok s ∧ s.Allows ρ := by
  obtain ⟨p, hp⟩ := contains_iff.mp hc
  obtain ⟨hmem, rfl⟩ := get?_eq_some hp
  have hin := TypeSet.le_inter (h p hmem) hle
  refine ⟨_, narrow_eq_ok_iff.mpr ⟨p, hp, TypeSet.ne_empty_of_le hin hne, rfl⟩, ?_⟩
  have hput := put_of_contains (p := { p with types := p.types.inter allowed }) hc
  rw [hput]
  intro q hq
  obtain ⟨s, hs, rfl⟩ := List.mem_map.mp hq
  split
  · exact hin
  · exact h s hs

/-! ### Putting parameters in -/

theorem contains_iff_mem_names {r : Registry} {name : String} :
    r.contains name = true ↔ name ∈ r.entries.map OpenParameter.name := by
  rw [contains, get?, List.find?_isSome, List.mem_map]
  simp only [decide_eq_true_eq]

theorem names_put_of_contains {r : Registry} {p : OpenParameter} (h : r.contains p.name = true) :
    (r.put p).entries.map OpenParameter.name = r.entries.map OpenParameter.name := by
  rw [put_of_contains h, List.map_map]
  refine List.map_congr_left fun q _ => ?_
  dsimp only [Function.comp]
  split
  · rename_i hq
    exact hq.symm
  · rfl

theorem put_of_not_contains {r : Registry} {p : OpenParameter} (h : ¬r.contains p.name = true) :
    r.put p = { r with entries := r.entries ++ [p] } := by
  rw [put, if_neg h]

theorem distinct_append {entries : List OpenParameter} {p : OpenParameter}
    (hr : (entries.map OpenParameter.name).Nodup)
    (h : p.name ∉ entries.map OpenParameter.name) :
    ((entries ++ [p]).map OpenParameter.name).Nodup := by
  rw [List.map_append, List.nodup_append]
  refine ⟨hr, by simp, ?_⟩
  intro a ha b hb hab
  obtain rfl : b = p.name := by simpa using hb
  exact h (hab ▸ ha)

theorem distinct_put {r : Registry} (hr : r.Distinct) (p : OpenParameter) : (r.put p).Distinct := by
  by_cases h : r.contains p.name = true
  · unfold Distinct
    rw [names_put_of_contains h]
    exact hr
  · rw [put_of_not_contains h]
    exact distinct_append hr fun hm => h (contains_iff_mem_names.mpr hm)

theorem distinct_ofTable (table : ParameterTable) : (ofTable table).Distinct := by
  have key : ∀ (table : ParameterTable) (r : Registry), r.Distinct →
      (table.foldl (fun r p => r.adopt (.fixed p)) r).Distinct := by
    intro table
    induction table with
    | nil => exact fun r hr => hr
    | cons p ps ih =>
      intro r hr
      exact ih _ (distinct_put hr (Parameter.fixed p).toOpen)
  exact key table {} List.nodup_nil

/-! ### Growing

While a tree is built, its registry learns names and rules out types. -/

/-- The first registry knows all that the second one knows, and allows no more. -/
structure Refines (s r : Registry) : Prop where
  contains : ∀ name, r.contains name = true → s.contains name = true
  types : ∀ name, s.typesOf name ≤ r.typesOf name
  used : ∀ name ∈ r.used, name ∈ s.used

theorem Refines.refl (r : Registry) : r.Refines r := ⟨fun _ h => h, fun _ => le_rfl, fun _ h => h⟩

theorem Refines.trans {r s t : Registry} (hst : s.Refines t) (hrs : r.Refines s) : r.Refines t where
  contains name h := hrs.contains name (hst.contains name h)
  types name := (hrs.types name).trans (hst.types name)
  used name h := hrs.used name (hst.used name h)

theorem refines_of_le {r s : Registry} (h : s ≤ r) : s.Refines r where
  contains name hc := by
    rw [contains_eq_of_le h]
    exact hc
  types := typesOf_le_of_le h
  used name hu := by
    rw [h.used_eq]
    exact hu

theorem entries_mention (r : Registry) (name : String) :
    r.contains name = true ∧ (r.mention name).entries = r.entries ∨
      ¬r.contains name = true ∧
        (r.mention name).entries = r.entries ++ [{ name := name, order := r.nextOrder }] := by
  have hused : ∀ used, ({ r with used := used } : Registry).contains name = r.contains name :=
    fun _ => rfl
  by_cases hc : r.contains name = true
  · refine .inl ⟨hc, ?_⟩
    unfold mention
    split <;> simp only [hused, hc, ↓reduceIte]
  · refine .inr ⟨hc, ?_⟩
    unfold mention
    split <;> simp only [hused, hc, Bool.false_eq_true, ↓reduceIte, put]

theorem mem_used_mention_iff {r : Registry} {name m : String} :
    m ∈ (r.mention name).used ↔ m ∈ r.used ∨ m = name := by
  have hused : (r.mention name).used = if name ∈ r.used then r.used else name :: r.used := by
    unfold mention put
    dsimp only
    repeat' split
    all_goals rfl
  rw [hused]
  split
  · rename_i h
    constructor
    · exact .inl
    · rintro (hm | rfl)
      · exact hm
      · exact h
  · rw [List.mem_cons, or_comm]

theorem mem_used_mention (r : Registry) (name : String) :
    name ∈ (r.mention name).used ∧ ∀ m ∈ r.used, m ∈ (r.mention name).used :=
  ⟨mem_used_mention_iff.mpr (.inr rfl), fun _ hm => mem_used_mention_iff.mpr (.inl hm)⟩

theorem get?_mention (r : Registry) (name m : String) :
    (r.mention name).get? m =
      (r.get? m).or (if name = m then some { name := name, order := r.nextOrder } else none) := by
  unfold get?
  rcases entries_mention r name with ⟨hc, he⟩ | ⟨-, he⟩ <;> rw [he]
  · split
    · rename_i hm
      obtain ⟨p, hp⟩ := contains_iff.mp hc
      rw [← hm]
      unfold get? at hp
      rw [hp]
      rfl
    · rw [Option.or_none]
  · rw [List.find?_append]
    simp [List.find?_cons, List.find?_nil]
    split <;> simp_all

theorem mention_refines (r : Registry) (name : String) : (r.mention name).Refines r where
  contains m h := by
    obtain ⟨p, hp⟩ := contains_iff.mp h
    exact contains_iff.mpr ⟨p, by rw [get?_mention, hp, Option.some_or]⟩
  types m := by
    unfold typesOf
    rw [get?_mention]
    cases r.get? m with
    | some p => exact le_rfl
    | none => exact TypeSet.le_full _
  used := (mem_used_mention r name).2

theorem contains_mention (r : Registry) (name : String) :
    (r.mention name).contains name = true := by
  rw [contains, get?_mention, if_pos rfl]
  cases r.get? name <;> rfl

theorem distinct_mention {r : Registry} (hr : r.Distinct) (name : String) :
    (r.mention name).Distinct := by
  unfold Distinct
  rcases entries_mention r name with ⟨-, he⟩ | ⟨hc, he⟩ <;> rw [he]
  · exact hr
  · exact distinct_append hr fun hm => hc (contains_iff_mem_names.mpr hm)

theorem recordUse_eq_ok_iff {r s : Registry} {name : String} {producer : Bool} :
    r.recordUse name producer = .ok s ↔ ∃ p, r.get? name = some p ∧
      (p.producer = none ∨ p.producer = some producer) ∧
      s = r.put { p with producer := some producer } := by
  rw [recordUse, change_eq_ok_iff]
  refine exists_congr fun p => ⟨?_, ?_⟩
  · rintro ⟨q, hp, hq, rfl⟩
    obtain ⟨huse, rfl⟩ := OpenParameter.recordUse_eq_ok_iff.mp hq
    exact ⟨hp, huse, rfl⟩
  · rintro ⟨hp, huse, rfl⟩
    exact ⟨_, hp, OpenParameter.recordUse_eq_ok_iff.mpr ⟨huse, rfl⟩, rfl⟩

theorem eq_of_recordUse_error {r s : Registry} (hr : r.Distinct) {name : String} {producer : Bool}
    {e : ParameterError} (h : r.recordUse name producer = .error e s) : s = r :=
  eq_of_change_error hr (fun _ _ _ => OpenParameter.eq_of_recordUse_error) h

/-- Recording a use leaves the types and the names as they are. -/
theorem recordUse_refines {r s : Registry} {name : String} {producer : Bool}
    (h : r.recordUse name producer = .ok s) :
    s.Refines r ∧ (r.Distinct → s.Distinct) ∧ ∀ m, s.typesOf m = r.typesOf m := by
  obtain ⟨p, hp, -, rfl⟩ := recordUse_eq_ok_iff.mp h
  obtain ⟨-, rfl⟩ := get?_eq_some hp
  have hc : r.contains p.name = true := contains_iff.mpr ⟨p, hp⟩
  have hget := get?_put (p := { p with producer := some producer }) hc
  have htypes : ∀ m, (r.put { p with producer := some producer }).typesOf m = r.typesOf m := by
    intro m
    unfold typesOf
    rw [hget]
    by_cases hm : p.name = m
    · rw [if_pos hm, ← hm, hp]
    · rw [if_neg hm]
  refine ⟨⟨fun m hm => ?_, fun m => (htypes m).le, ?_⟩, fun hr => distinct_put hr _, htypes⟩
  · rw [contains, hget]
    split
    · rfl
    · exact hm
  · rw [put_of_contains (p := { p with producer := some producer }) hc]
    exact fun _ hm => hm

/-! ### Agreement on uses -/

/-- No parameter has been used in another way than the choice says. -/
def AgreesWith (r : Registry) (π : String → Bool) : Prop :=
  ∀ p ∈ r.entries, ∀ producer, p.producer = some producer → producer = π p.name

theorem AgreesWith.of_le {r s : Registry} {π : String → Bool} (h : r.AgreesWith π) (hs : s ≤ r) :
    s.AgreesWith π := by
  intro p hp producer hproducer
  obtain ⟨q, hq, hpq⟩ := exists_of_forall₂_of_mem_right hs.entries.flip hp
  rw [OpenParameter.producer_eq_of_le hpq] at hproducer
  rw [OpenParameter.name_eq_of_le hpq]
  exact h q hq producer hproducer

/-- A use that a choice agrees with can be recorded, and loses nothing that the choice needs. -/
theorem exists_recordUse_mention {r : Registry} {ρ : String → TypeSet} {π : String → Bool}
    {name : String} {producer : Bool} (hρ : r.Allows ρ) (hπ : r.AgreesWith π)
    (h : producer = π name) :
    ∃ s, (r.mention name).recordUse name producer = .ok s ∧ s.Allows ρ ∧ s.AgreesWith π := by
  have hmem : ∀ p ∈ (r.mention name).entries,
      ρ p.name ≤ p.types ∧ ∀ b, p.producer = some b → b = π p.name := by
    intro p hp
    rcases entries_mention r name with ⟨-, he⟩ | ⟨-, he⟩ <;> rw [he] at hp
    · exact ⟨hρ p hp, hπ p hp⟩
    · rcases List.mem_append.mp hp with hp | hp
      · exact ⟨hρ p hp, hπ p hp⟩
      · obtain rfl := List.mem_singleton.mp hp
        exact ⟨TypeSet.le_full _, by simp⟩
  obtain ⟨p, hp⟩ := contains_iff.mp (contains_mention r name)
  obtain ⟨hpmem, hname⟩ := get?_eq_some hp
  have huse : p.producer = none ∨ p.producer = some producer := by
    cases hb : p.producer with
    | none => exact .inl rfl
    | some b =>
      have := (hmem p hpmem).2 b hb
      rw [hname, ← h] at this
      exact .inr (this ▸ rfl)
  refine ⟨_, recordUse_eq_ok_iff.mpr ⟨p, hp, huse, rfl⟩, ?_⟩
  have hc : (r.mention name).contains p.name = true := contains_of_mem hpmem
  have hall : ∀ q ∈ ((r.mention name).put { p with producer := some producer }).entries,
      ρ q.name ≤ q.types ∧ ∀ b, q.producer = some b → b = π q.name := by
    rw [put_of_contains (p := { p with producer := some producer }) hc]
    intro q hq
    obtain ⟨u, hu, rfl⟩ := List.mem_map.mp hq
    split
    · refine ⟨(hmem p hpmem).1, ?_⟩
      rintro b ⟨⟩
      rw [h, hname]
    · exact hmem u hu
  exact ⟨fun q hq => (hall q hq).1, fun q hq => (hall q hq).2⟩

end Registry
end TolerantExpr
