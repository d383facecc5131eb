import TolerantExpr.Proofs.Typing.Reanalysis

/-!
# Doubles or integers

A numeric parameter can be wanted as a double, where it is an argument of a function that works on
doubles, and as an integer, where it is an operand of a shift or of `&` or `|` between numbers. The
preferences of a tree can be recorded exactly if no parameter is wanted as both, and each parameter
then has the preference that some operation has for it. In what order the operations come makes no
difference. A preference that a parameter brings along from a table is one more such want.
-/

namespace TolerantExpr

/-! ### Wants -/

/-- An operation with a set of types takes its numeric operands in a representation. -/
inductive Operation.Takes : Operation → TypeSet → Preference → Prop where
  | call {f : Builtin} (h : f.preference = .float) (ts : TypeSet) : Takes (.call f) ts .float
  | shift (op : Shift) (ts : TypeSet) : Takes (.binary (.shift op)) ts .integer
  | logical (op : Logical) : Takes (.binary (.logical op)) (.only .numeric) .integer

theorem Builtin.preference_ne_integer (f : Builtin) : f.preference ≠ .integer := by
  cases f <;> decide

/-- Two preferences go together, or are the two opposite ones. -/
theorem Preference.compatible_or_opposite (v w : Preference) :
    (w = .unset ∨ v = .unset ∨ v = w) ∨ v = .float ∧ w = .integer ∨ v = .integer ∧ w = .float := by
  cases v <;> cases w <;> decide

theorem Operation.takes_iff {op : Operation} {ts : TypeSet} {w : Preference} :
    op.Takes ts w ↔ Analysis.operandPreference op ts.single? = w ∧ w ≠ .unset := by
  constructor
  · intro h
    cases h with
    | call h => exact ⟨h, by decide⟩
    | shift op => exact ⟨rfl, by decide⟩
    | logical op =>
      rw [TypeSet.single?_only]
      exact ⟨rfl, by decide⟩
  · intro h
    obtain ⟨rfl, hset⟩ := h
    match op with
    | .call f =>
      rw [Analysis.operandPreference] at hset ⊢
      cases hf : f.preference with
      | unset => exact absurd hf hset
      | float => exact .call hf ts
      | integer => exact absurd hf f.preference_ne_integer
    | .binary (.shift op) => exact .shift op ts
    | .binary (.logical op) =>
      by_cases hts : ts.single? = some .numeric
      · rw [Analysis.operandPreference, if_pos hts]
        rw [TypeSet.single?_eq_some_iff] at hts
        rw [hts]
        exact .logical op
      · rw [Analysis.operandPreference, if_neg hts] at hset
        exact absurd rfl hset
    | .binary (.arithmetic op) | .binary (.comparison op) | .negate => exact absurd rfl hset

namespace Node

/-- Somewhere in the tree a parameter is a numeric operand of an operation that takes it in
a representation. -/
def Wants (n : Node) (name : String) (w : Preference) : Prop :=
  ∃ op xs s ts producer t, (operation op xs s ts).Subtree n ∧
    parameter name producer t (.only .numeric) ∈ xs ∧ op.Takes ts w

theorem mem_demandAt_iff {x : Node} {name : String} {w wanted : Preference} :
    (name, w) ∈ x.demandAt wanted ↔
      ∃ producer t, x = parameter name producer t (.only .numeric) ∧ wanted = w := by
  cases x with
  | constant v s => simp [demandAt]
  | operation op xs s ts => simp [demandAt]
  | parameter m producer s ts =>
    rw [demandAt]
    by_cases hts : ts.single? = some .numeric
    · rw [if_pos hts, List.mem_singleton]
      obtain rfl := TypeSet.single?_eq_some_iff.mp hts
      simp [eq_comm]
    · rw [if_neg hts]
      refine iff_of_false List.not_mem_nil ?_
      intro h
      obtain ⟨_, _, heq, -⟩ := h
      cases heq
      exact hts (TypeSet.single?_only _)

/-- The demands of a tree are the wants of its operations, beside demands for nothing. -/
theorem mem_demands_iff {n : Node} {name : String} {w : Preference} (hw : w ≠ .unset) :
    (name, w) ∈ n.demands ↔ n.Wants name w := by
  induction n with
  | constant v s =>
    refine iff_of_false List.not_mem_nil ?_
    rintro ⟨op, xs, t, ts, producer, u, ⟨⟩, -⟩
  | parameter m p s us =>
    refine iff_of_false List.not_mem_nil ?_
    rintro ⟨op, xs, t, ts, producer, u, ⟨⟩, -⟩
  | operation op xs s ts ih =>
    rw [demands, List.mem_append, List.mem_flatMap, mem_demandsAll_iff]
    constructor
    · rintro (⟨x, hx, hd⟩ | ⟨x, hx, hd⟩)
      · obtain ⟨producer, t, rfl, hop⟩ := mem_demandAt_iff.mp hd
        exact ⟨op, xs, s, ts, producer, t, .refl, hx, Operation.takes_iff.mpr ⟨hop, hw⟩⟩
      · obtain ⟨op', ys, t, us, producer, u, hsub, hmem, htakes⟩ := (ih x hx).mp hd
        exact ⟨op', ys, t, us, producer, u, .operand hx hsub, hmem, htakes⟩
    · rintro ⟨op', ys, t, us, producer, u, hsub, hmem, htakes⟩
      cases hsub with
      | refl =>
        obtain ⟨hop, -⟩ := Operation.takes_iff.mp htakes
        exact .inl ⟨_, hmem, mem_demandAt_iff.mpr ⟨producer, u, rfl, hop⟩⟩
      | operand hx hsub =>
        exact .inr ⟨_, hx, (ih _ hx).mpr ⟨op', ys, t, us, producer, u, hsub, hmem, htakes⟩⟩

end Node

/-! ### Demands in any order -/

namespace Registry

variable {r s : Registry} {ds : List (String × Preference)} {name : String} {w : Preference}

/-- One of some demands asks for a preference, or it is there already. -/
def Asked (r : Registry) (ds : List (String × Preference)) (name : String) (w : Preference) : Prop :=
  r.preferenceOf name = w ∨ (name, w) ∈ ds

theorem exists_prefer (hc : r.contains name = true)
    (h : w = .unset ∨ r.preferenceOf name = .unset ∨ r.preferenceOf name = w) :
    ∃ s, r.prefer name w = .ok s := by
  obtain ⟨p, hp⟩ := contains_iff.mp hc
  rw [preferenceOf_of_get? hp] at h
  rcases h with hw | hkept
  · exact ⟨_, change_eq_ok_iff.mpr ⟨p, p, hp, OpenParameter.prefer_eq_ok_iff.mpr (.inl ⟨hw, rfl⟩), rfl⟩⟩
  · exact ⟨_, change_eq_ok_iff.mpr
      ⟨p, _, hp, OpenParameter.prefer_eq_ok_iff.mpr (.inr ⟨hkept, rfl⟩), rfl⟩⟩

/-- A preference is there already or is the one that is asked for. -/
theorem preferenceOf_prefer_cases (h : r.prefer name w = .ok s) (m : String) :
    s.preferenceOf m = r.preferenceOf m ∨ name = m ∧ s.preferenceOf m = w := by
  obtain ⟨p, q, hp, hq, rfl⟩ := change_eq_ok_iff.mp h
  obtain ⟨-, rfl⟩ := get?_eq_some hp
  rcases OpenParameter.prefer_eq_ok_iff.mp hq with ⟨-, rfl⟩ | ⟨-, rfl⟩
  · rw [preferenceOf_put hp]
    split
    · rename_i hm
      exact .inl (hm ▸ (preferenceOf_of_get? hp).symm)
    · exact .inl rfl
  · rw [preferenceOf_put (q := { p with preference := w }) hp]
    split
    · rename_i hm
      exact .inr ⟨hm, rfl⟩
    · exact .inl rfl

/-- What is asked of what one demand leaves was asked before. -/
theorem Asked.of_prefer {m : String} {v : Preference} (hs : r.prefer name v = .ok s)
    (h : s.Asked ds m w) : r.Asked ((name, v) :: ds) m w := by
  rcases h with h | h
  · rcases preferenceOf_prefer_cases hs m with hkept | ⟨rfl, hasked⟩
    · exact .inl (hkept.symm.trans h)
    · exact .inr (List.mem_cons.mpr (.inl (by rw [← h, hasked])))
  · exact .inr (List.mem_cons_of_mem _ h)

/-- After demands were met, the preferences are what was asked for. -/
theorem preferenceOf_preferAll_iff (h : r.preferAll ds = .ok s) (hw : w ≠ .unset) :
    s.preferenceOf name = w ↔ r.Asked ds name w := by
  constructor
  · intro hname
    have hself : s.Asked [] name w := .inl hname
    clear hname
    induction ds generalizing r with
    | nil =>
      obtain rfl := Except.ok.inj h
      exact hself
    | cons d ds ih =>
      obtain ⟨t, ht, h⟩ := preferAll_cons_eq_ok_iff.mp h
      exact (ih h).of_prefer ht
  · intro hasked
    obtain ⟨hmet, hkept⟩ := preferenceOf_preferAll h
    rcases hasked with hname | hd
    · rcases hkept name with hunset | hname'
      · exact absurd (hname.symm.trans hunset) hw
      · exact hname'.trans hname
    · exact (hmet _ hd).resolve_left hw

/-- Demands can be met, whatever their order is, exactly if no parameter is asked for both as a
double and as an integer. -/
theorem exists_preferAll_iff (hc : ∀ d ∈ ds, r.contains d.1 = true) :
    (∃ s, r.preferAll ds = .ok s) ↔ ¬∃ m, r.Asked ds m .float ∧ r.Asked ds m .integer := by
  constructor
  · rintro ⟨s, h⟩ ⟨m, hfloat, hinteger⟩
    have hfloat := (preferenceOf_preferAll_iff h (by decide)).mpr hfloat
    have hinteger := (preferenceOf_preferAll_iff h (by decide)).mpr hinteger
    rw [hfloat] at hinteger
    cases hinteger
  · intro h
    induction ds generalizing r with
    | nil => exact ⟨r, rfl⟩
    | cons d ds ih =>
      obtain ⟨m, w⟩ := d
      rw [List.forall_mem_cons] at hc
      have hasked : r.Asked ((m, w) :: ds) m w := .inr List.mem_cons_self
      obtain hcompatible | ⟨hp, rfl⟩ | ⟨hp, rfl⟩ :=
        Preference.compatible_or_opposite (r.preferenceOf m) w
      rotate_left
      · exact absurd ⟨m, .inl hp, hasked⟩ h
      · exact absurd ⟨m, hasked, .inl hp⟩ h
      obtain ⟨t, ht⟩ := exists_prefer hc.1 hcompatible
      have hct : ∀ d ∈ ds, t.contains d.1 = true := fun d hd => by
        rw [(prefer_sameTypes ht).contains]
        exact hc.2 d hd
      obtain ⟨s, hs⟩ := ih hct fun ⟨n, hfloat, hinteger⟩ =>
        h ⟨n, hfloat.of_prefer ht, hinteger.of_prefer ht⟩
      exact ⟨s, preferAll_cons_eq_ok_iff.mpr ⟨t, ht, hs⟩⟩

/-- A registry that starts from a table has the preferences of the table. -/
theorem preferenceOf_ofTable_iff {table : ParameterTable} (h : table.names.Nodup)
    (hw : w ≠ .unset) :
    (ofTable table).preferenceOf name = w ↔ ∃ f ∈ table, f.name = name ∧ f.preference = w := by
  have hentries := entries_ofTable h
  constructor
  · intro hname
    unfold preferenceOf at hname
    split at hname
    · rename_i p hp
      obtain ⟨hmem, hpname⟩ := get?_eq_some hp
      rw [hentries] at hmem
      obtain ⟨f, hf, rfl⟩ := List.mem_map.mp hmem
      exact ⟨f, hf, hpname, hname⟩
    · exact absurd hname.symm hw
  · rintro ⟨f, hf, rfl, rfl⟩
    have hmem : f.toOpen ∈ (ofTable table).entries := by
      rw [hentries]
      exact List.mem_map_of_mem hf
    exact preferenceOf_of_get? (get?_of_mem (distinct_ofTable table) hmem)

end Registry

/-! ### Preferences of a tree -/

namespace Analysis

variable {e : Expr} {x : Extraction} {formatters : Formatters} {seed : ParameterTable}
  {n root : Node} {σ : State} {s : Registry} {name : String} {w : Preference}

/-- A parameter is wanted in a representation by an operation in the tree, or by the table that the
analysis starts from. -/
def Wanted (seed : ParameterTable) (root : Node) (name : String) (w : Preference) : Prop :=
  root.Wants name w ∨ ∃ f ∈ seed, f.name = name ∧ f.preference = w

theorem asked_iff_wanted (hseed : seed.names.Nodup)
    (hs : ∀ m, s.preferenceOf m = (Registry.ofTable seed).preferenceOf m) (hw : w ≠ .unset) :
    s.Asked root.demands name w ↔ Wanted seed root name w := by
  rw [Registry.Asked, hs, Registry.preferenceOf_ofTable_iff hseed hw, Node.mem_demands_iff hw,
    Wanted, or_comm]

/-- Where types are determined, with the parameters of a table known from the start or, if that is
empty, with none, preferences fail exactly if some parameter is wanted both as a double and as an
integer. Otherwise the parameters stay, and each has the preference that it is wanted with, or none
if it is not wanted. -/
theorem preferences_by_wants (hseed : seed.names.Nodup)
    (hb : (build x formatters e).run { registry := .ofTable seed } = (.ok n, σ))
    (hd : determine n σ.registry = .ok (root, s)) :
    ((∃ fault, preferences root s = .error fault) ↔
      ∃ name, Wanted seed root name .float ∧ Wanted seed root name .integer) ∧
    ∀ s', preferences root s = .ok s' → (∀ name, s'.contains name = s.contains name) ∧
      ∀ p ∈ s'.entries,
        (p.preference = .float ↔ Wanted seed root p.name .float) ∧
        (p.preference = .integer ↔ Wanted seed root p.name .integer) ∧
        (p.preference = .unset ↔
          ¬Wanted seed root p.name .float ∧ ¬Wanted seed root p.name .integer) := by
  have hr := Registry.distinct_ofTable seed
  have hbuilt := built_of_run hr hb
  obtain ⟨-, hreg, hcov, -⟩ := determine_spec hbuilt.distinct hbuilt.covered hd
  have hdistinct := Registry.distinct_of_le hreg hbuilt.distinct
  have hasked (name : String) (w : Preference) (hw : w ≠ .unset) :
      s.Asked root.demands name w ↔ Wanted seed root name w :=
    asked_iff_wanted hseed ((grown_of_run hr hb).of_le hreg).preferences hw
  constructor
  · have hmet := Registry.exists_preferAll_iff hcov.knownTo.contains_of_mem_demands
    simp only [hasked _ .float (by decide), hasked _ .integer (by decide),
      ← preferences_eq_ok_iff] at hmet
    rw [← not_iff_not, ← hmet]
    cases preferences root s <;> simp
  · intro s' hs'
    refine ⟨(preferences_sameTypes hs').contains, fun p hp => ?_⟩
    have hall := preferences_eq_ok_iff.mp hs'
    have hget := Registry.get?_of_mem ((preferences_sameTypes hs').distinct hdistinct) hp
    have hwanted (w : Preference) (hw : w ≠ .unset) :
        p.preference = w ↔ Wanted seed root p.name w := by
      rw [← Registry.preferenceOf_of_get? hget, Registry.preferenceOf_preferAll_iff hall hw,
        hasked _ w hw]
    refine ⟨hwanted .float (by decide), hwanted .integer (by decide), ?_⟩
    rw [← hwanted .float (by decide), ← hwanted .integer (by decide)]
    cases p.preference <;> simp

/-- How `y << x` is read. -/
def shiftByX : Expr :=
  .binary (.shift .left) (.name "y" ⟨0, 1⟩) (.name "x" ⟨5, 6⟩) ⟨0, 6⟩

/-- The tree of `y << x`. -/
def shiftByXRoot : Node :=
  .operation (.binary (.shift .left)) [.parameter "y" false ⟨0, 1⟩ (.only .numeric),
    .parameter "x" false ⟨5, 6⟩ (.only .numeric)] ⟨0, 6⟩ (.only .numeric)

theorem shiftByXRoot_wants : shiftByXRoot.Wants "x" .integer :=
  ⟨_, _, _, _, false, ⟨5, 6⟩, .refl, List.mem_cons_of_mem _ List.mem_cons_self, .shift .left _⟩

/-- With a table that has `x` as a double, the preferences of a shift by `x` fail. -/
theorem preferences_by_wants_shiftByX :
    ∃ n σ s, (build (Extraction.ofText {} "y << x") [] shiftByX).run
        { registry := .ofTable [⟨"x", .numeric, .float, false, 0⟩] } = (.ok n, σ) ∧
      determine n σ.registry = .ok (shiftByXRoot, s) ∧
      ∃ fault, preferences shiftByXRoot s = .error fault := by
  have hstages :
      (((build (Extraction.ofText {} "y << x") [] shiftByX).run
        { registry := .ofTable [⟨"x", .numeric, .float, false, 0⟩] }).1.toOption.bind fun n =>
        (determine n ((build (Extraction.ofText {} "y << x") [] shiftByX).run
          { registry := .ofTable [⟨"x", .numeric, .float, false, 0⟩] }).2.registry).toOption.map
            Prod.fst) = some shiftByXRoot := by cbv
  rcases hb : (build (Extraction.ofText {} "y << x") [] shiftByX).run
      { registry := .ofTable [⟨"x", .numeric, .float, false, 0⟩] } with ⟨fault | n, σ⟩ <;>
    rw [hb] at hstages
  · cases hstages
  cases hd : determine n σ.registry with
  | error d =>
    simp [Except.toOption, hd] at hstages
  | ok settled =>
    obtain ⟨root, s⟩ := settled
    simp only [Except.toOption, Option.bind_some, hd, Option.map_some, Option.some.injEq] at hstages
    obtain rfl := hstages
    refine ⟨n, σ, s, rfl, hd, ?_⟩
    refine (preferences_by_wants (by decide) hb hd).1.mpr ⟨"x", .inr ?_, .inl shiftByXRoot_wants⟩
    exact ⟨_, List.mem_cons_self, rfl, rfl⟩

end Analysis
end TolerantExpr
