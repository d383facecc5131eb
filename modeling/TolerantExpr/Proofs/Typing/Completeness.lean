import TolerantExpr.Expr.Parse
import TolerantExpr.Proofs.Typing.Analyses
import Mathlib

/-!
# When an analysis succeeds

An expression has a type under a choice of types for its parameters if every operator and call has
an overload for its operands. Defaults are committed one after the other and never taken back, so
a type under some choice is not enough: it takes a choice that agrees with every default that is
presumed. With one the analysis succeeds, unless a constant part has no value or a parameter would
have to be both an integer and a double.
-/

namespace TolerantExpr

/-- No name is used both as a producer and as a plain parameter. -/
def Expr.UsesConsistent (x : Extraction) (e : Expr) : Prop :=
  ∀ u ∈ e.uses x, ∀ v ∈ e.uses x, u.1 = v.1 → u.2 = v.2

/-- Consistent uses are those of some choice of the producers. -/
theorem Expr.UsesConsistent.exists_choice {x : Extraction} {e : Expr} (h : e.UsesConsistent x) :
    ∃ π : String → Bool, ∀ u ∈ e.uses x, u.2 = π u.1 := by
  refine ⟨fun n => decide ((n, true) ∈ e.uses x), fun ⟨n, producer⟩ hu => ?_⟩
  cases producer with
  | true => exact (decide_eq_true hu).symm
  | false =>
    refine (decide_eq_false fun htrue => ?_).symm
    cases h _ hu _ htrue rfl

namespace Analysis

/-! ### Faults of preferences -/

/-- A parameter would have to be both an integer and a double. -/
def IsPreferenceConflict (fault : TypeFault) : Prop :=
  ∃ name span, fault = .ofParameter (.preferenceConflict name) span

section PreferenceFaults

variable {P : Span → Prop}

theorem preferAt_fault {wanted : Preference} {n : Node} {r : Registry} {fault : TypeFault}
    (hn : n.KnownTo r) (hP : n.EverySpan P) (h : preferAt wanted n r = .error fault) :
    IsPreferenceConflict fault ∧ P fault.span := by
  unfold preferAt at h
  split at h
  · rename_i name producer span ts
    obtain ⟨p, hp⟩ := Registry.contains_iff.mp hn.of_parameter
    split at h
    · obtain ⟨e, he, rfl⟩ := except_mapError_eq_error_iff.mp h
      obtain ⟨s, hs⟩ := Changed.toExcept_eq_error_iff.mp he
      rcases Registry.change_eq_error_iff.mp hs with ⟨hnone, -⟩ | ⟨q, u, -, hu, -⟩
      · rw [hp] at hnone
        cases hnone
      · obtain ⟨rfl, -⟩ := OpenParameter.eq_of_prefer_error hu
        exact ⟨⟨q.name, span, rfl⟩, hP.span⟩
    · cases h
  · cases h

theorem KnownTo.of_sameTypes {n : Node} {r s : Registry} (h : n.KnownTo r) (hs : s.SameTypes r) :
    n.KnownTo s := by
  refine h.imp fun name _ hc => ?_
  rw [hs.contains]
  exact hc

theorem preferAtEach_fault {wanted : Preference} {xs : List Node} {r : Registry}
    {fault : TypeFault} (hxs : ∀ x ∈ xs, x.KnownTo r) (hP : ∀ x ∈ xs, x.EverySpan P)
    (h : xs.foldlM (fun r x => preferAt wanted x r) r = .error fault) :
    IsPreferenceConflict fault ∧ P fault.span := by
  induction xs generalizing r with
  | nil => cases h
  | cons x xs ih =>
    rw [List.foldlM_cons, except_bind_eq_error_iff] at h
    rcases h with h | ⟨s, hs, h⟩
    · exact preferAt_fault (hxs x List.mem_cons_self) (hP x List.mem_cons_self) h
    · refine ih (fun y hy => ?_) (fun y hy => hP y (List.mem_cons_of_mem _ hy)) h
      exact KnownTo.of_sameTypes (hxs y (List.mem_cons_of_mem _ hy)) (preferAt_sameTypes hs)

mutual

/-- Preferences fail by a conflict, at the span of a node. -/
theorem preferences_fault {n : Node} {r : Registry} {fault : TypeFault} (hn : n.KnownTo r)
    (hP : n.EverySpan P) (h : preferences n r = .error fault) :
    IsPreferenceConflict fault ∧ P fault.span := by
  match n with
  | .constant v span => cases h
  | .parameter name producer span ts => cases h
  | .operation op xs span ts =>
    rw [preferences, except_bind_eq_error_iff] at h
    rcases h with h | ⟨s, hs, h⟩
    · exact preferAtEach_fault hn.of_operation hP.of_operation h
    · refine preferencesAll_fault (fun x hx => ?_) hP.of_operation h
      exact KnownTo.of_sameTypes (hn.of_operation x hx) (preferAtEach_sameTypes hs)

theorem preferencesAll_fault {xs : List Node} {r : Registry} {fault : TypeFault}
    (hxs : ∀ x ∈ xs, x.KnownTo r) (hP : ∀ x ∈ xs, x.EverySpan P)
    (h : preferencesAll xs r = .error fault) : IsPreferenceConflict fault ∧ P fault.span := by
  match xs with
  | [] => cases h
  | x :: xs =>
    rw [preferencesAll, except_bind_eq_error_iff] at h
    rcases h with h | ⟨s, hs, h⟩
    · exact preferences_fault (hxs x List.mem_cons_self) (hP x List.mem_cons_self) h
    · refine preferencesAll_fault (fun y hy => ?_) (fun y hy => hP y (List.mem_cons_of_mem _ hy)) h
      exact KnownTo.of_sameTypes (hxs y (List.mem_cons_of_mem _ hy)) (preferences_sameTypes hs)

end

end PreferenceFaults

/-! ### Success -/

/-- The defaults that are presumed while the types of an expression are determined, in order. An
expression whose tree cannot be built has none. -/
def presumed (e : Expr) (x : Extraction) (r : Registry) (formatters : Formatters) :
    List (String × ValueType) :=
  match (build x formatters e).run { registry := r } with
  | (.ok n, σ) => presumptions n σ.registry
  | (.error _, _) => []

variable {e : Expr} {x : Extraction} {source : String} {r : Registry} {formatters : Formatters}
  {a : Analysis}

theorem presumed_of_run {n : Node} {σ : State}
    (h : (build x formatters e).run { registry := r } = (.ok n, σ)) :
    presumed e x r formatters = presumptions n σ.registry := by
  unfold presumed
  rw [h]

/-- The types that a successful analysis finds for the parameters give the expression its type,
and agree with what was presumed. -/
theorem exists_hasType_of_ofExpr (hr : r.Distinct) (h : ofExpr e x source r formatters = .ok a) :
    ∃ τ t, e.HasType x τ t ∧ ∀ d ∈ presumed e x r formatters, τ d.1 = d.2 := by
  obtain ⟨n, σ, s, s', hb, hd, ht, -, -⟩ := ofExpr_eq_ok_iff.mp h
  have hbuilt := built_of_run hr hb
  obtain ⟨hle, -, hcov, hcons, hnone, hpres⟩ := determine_spec hbuilt.distinct hbuilt.covered hd
  obtain ⟨t, ht⟩ := Option.isSome_iff_exists.mp ht
  rw [Node.type?, TypeSet.single?_eq_some_iff] at ht
  refine ⟨fun name => (s.typesOf name).single?.getD .numeric, t, ?_, fun d hd => ?_⟩
  · have hrefs := (hcons.references.and hcov).imp (Q := fun name ts =>
        ts = .only ((s.typesOf name).single?.getD .numeric)) fun name ts h => by
      obtain ⟨hts, hc, -⟩ := h
      obtain ⟨u, hu⟩ := Registry.exists_typesOf_eq hnone hc
      rw [hts, hu, TypeSet.single?_only, Option.getD_some]
    have hroot := (resolved_of_decided hcons hcov hnone).hasType hrefs ht
    exact (hbuilt.types _ t).mp ((Node.hasType_iff_of_le hle).mp hroot)
  · rw [presumed_of_run hb] at hd
    dsimp only
    rw [hpres d hd, TypeSet.single?_only, Option.getD_some]

theorem ofExpr_of_build_error {fault : TypeFault} {σ : State}
    (h : (build x formatters e).run { registry := r } = (.error fault, σ)) :
    ofExpr e x source r formatters = .error (report source σ fault) := by
  unfold ofExpr
  rw [h]
  rfl

theorem ofExpr_of_preferences_error {n root : Node} {σ : State} {s : Registry} {fault : TypeFault}
    (hb : (build x formatters e).run { registry := r } = (.ok n, σ))
    (hd : determine n σ.registry = .ok (root, s)) (ht : root.type?.isSome = true)
    (h : preferences root s = .error fault) :
    ofExpr e x source r formatters = .error (report source σ fault) := by
  unfold ofExpr
  rw [hb]
  refine except_bind_eq_error_iff.mpr (.inr ⟨n, rfl, ?_⟩)
  refine except_bind_eq_error_iff.mpr (.inr ⟨(root, s), by rw [hd]; rfl, ?_⟩)
  dsimp only
  rw [Option.isNone_eq_false_iff.mpr ht]
  exact except_bind_eq_error_iff.mpr (.inl (by rw [h]; rfl))

/-- An expression with a type under a choice that the registry leaves open and that agrees with
the defaults can be analyzed, or meets a fault of folding or of preferences. -/
theorem ofExpr_of_hasType (source : String) {τ : String → ValueType} {π : String → Bool}
    {t : ValueType} (hr : r.Distinct) (hopen : Open τ π r) (he : e.HasType x τ t)
    (hu : ∀ u ∈ e.uses x, u.2 = π u.1) (hd : ∀ d ∈ presumed e x r formatters, τ d.1 = d.2) :
    (∃ a, ofExpr e x source r formatters = .ok a) ∨
      ∃ f, ofExpr e x source r formatters = .error f ∧
        (IsFold f.fault ∨ IsPreferenceConflict f.fault) := by
  have hkeeps : Meets (build x formatters e) { registry := r }
      (fun n υ => Open τ π υ.registry ∧ Admits τ t n) fun fault _ => IsFold fault :=
    build_keeps e _ t hr hopen he hu
  unfold Meets at hkeeps
  rcases hb : (build x formatters e).run { registry := r } with ⟨fault | n, σ⟩
  · rw [hb] at hkeeps
    exact .inr ⟨_, ofExpr_of_build_error hb, .inl hkeeps⟩
  rw [hb] at hkeeps
  obtain ⟨⟨hallows, -⟩, m, hm, hc, hmt⟩ := hkeeps
  have hbuilt := built_of_run hr hb
  rw [presumed_of_run hb] at hd
  obtain ⟨root, s, hdet, hroot, -⟩ :=
    determine_keeps hbuilt.distinct hbuilt.covered hallows hm hc hd
  obtain ⟨-, hreg, hcov, -, hnone, -⟩ := determine_spec hbuilt.distinct hbuilt.covered hdet
  have ht := type?_of_determine hbuilt hdet
  cases hp : preferences root s with
  | error fault =>
    exact .inr ⟨_, ofExpr_of_preferences_error hb hdet ht hp,
      .inr (preferences_fault (P := fun _ => True) hcov.knownTo (fun _ _ => trivial) hp).1⟩
  | ok s' =>
    have hsame := preferences_sameTypes hp
    have hdistinct := hsame.distinct (Registry.distinct_of_le hreg hbuilt.distinct)
    have hdecided : ∀ p ∈ s'.sorted.filter fun p => p.name ∈ s'.used,
        ∃ u, p.types = .only u := by
      intro p hmem
      obtain ⟨hentry, -⟩ := Registry.mem_fixed_iff.mp hmem
      have hget := Registry.get?_of_mem hdistinct hentry
      have hcontains := Registry.contains_of_mem hentry
      rw [hsame.contains] at hcontains
      obtain ⟨u, hu⟩ := Registry.exists_typesOf_eq hnone hcontains
      rw [← hsame.types, Registry.typesOf_of_get? hget] at hu
      exact ⟨u, hu⟩
    obtain ⟨table, htable⟩ := Registry.exists_fixAll 0 hdecided
    exact .inl ⟨⟨root, table⟩, ofExpr_eq_ok_iff.mpr ⟨n, σ, s, s', hb, hdet, ht, hp, htable⟩⟩

theorem open_empty (τ : String → ValueType) (π : String → Bool) : Open τ π {} where
  allows := by simp [Registry.Allows]
  agrees := by simp [Registry.AgreesWith]

/-- An expression with consistent uses that meets no fault of folding or of preferences can be
analyzed exactly if it has a type under a choice that agrees with every default that is
presumed. -/
theorem ofExpr_succeeds_iff (hu : e.UsesConsistent x)
    (h : ∀ f, ofExpr e x source {} formatters = .error f →
      ¬IsFold f.fault ∧ ¬IsPreferenceConflict f.fault) :
    (∃ a, ofExpr e x source {} formatters = .ok a) ↔
      ∃ τ t, e.HasType x τ t ∧ ∀ d ∈ presumed e x {} formatters, τ d.1 = d.2 := by
  have hr : Registry.Distinct {} := List.nodup_nil
  constructor
  · intro h
    obtain ⟨a, ha⟩ := h
    exact exists_hasType_of_ofExpr hr ha
  · intro h
    obtain ⟨τ, t, he, hd⟩ := h
    obtain ⟨π, hπ⟩ := hu.exists_choice
    have hcases := ofExpr_of_hasType source hr (open_empty τ π) he hπ hd
    rcases hcases with ha | ⟨f, hf, hfold | hpreference⟩
    · exact ha
    · exact absurd hfold (h f hf).1
    · exact absurd hpreference (h f hf).2

/-- How `x + x` is read. -/
def sumWithItself : Expr :=
  .binary (.arithmetic .add) (.name "x" ⟨0, 1⟩) (.name "x" ⟨4, 5⟩) ⟨0, 5⟩

/-- A sum of a parameter with itself has a type under a choice that agrees with its default, and
can be analyzed. -/
theorem ofExpr_succeeds_iff_sum :
    (∃ a, ofExpr sumWithItself (Extraction.ofText {} "x + x") "x + x" {} [] = .ok a) ∧
      ((∃ a, ofExpr sumWithItself (Extraction.ofText {} "x + x") "x + x" {} [] = .ok a) ↔
        ∃ τ t, sumWithItself.HasType (Extraction.ofText {} "x + x") τ t ∧
          ∀ d ∈ presumed sumWithItself (Extraction.ofText {} "x + x") {} [], τ d.1 = d.2) := by
  have hok : ∃ a, ofExpr sumWithItself (Extraction.ofText {} "x + x") "x + x" {} [] = .ok a := by
    have hisOk : (ofExpr sumWithItself (Extraction.ofText {} "x + x") "x + x" {} []).isOk = true := by
      cbv
    cases ha : ofExpr sumWithItself (Extraction.ofText {} "x + x") "x + x" {} [] with
    | ok a => exact ⟨a, rfl⟩
    | error f =>
      rw [ha] at hisOk
      cases hisOk
  refine ⟨hok, ofExpr_succeeds_iff ?_ fun f hf => ?_⟩
  · have huses : sumWithItself.uses (Extraction.ofText {} "x + x") =
        [("x", false), ("x", false)] := by cbv
    unfold Expr.UsesConsistent
    rw [huses]
    decide
  · obtain ⟨a, ha⟩ := hok
    rw [hf] at ha
    cases ha

/-- The sum of a string with itself can be compared with a string, but not once the parameter is
presumed to be a number. -/
theorem ofExpr_rejects_typed :
    ∃ e, Expr.parse (Extraction.ofText {} "x + x = \"a\"").skeleton defaultMaxDepth = .ok e ∧
      e.UsesConsistent (Extraction.ofText {} "x + x = \"a\"") ∧
      (∃ τ t, e.HasType (Extraction.ofText {} "x + x = \"a\"") τ t) ∧
      ∃ f, ofExpr e (Extraction.ofText {} "x + x = \"a\"") "x + x = \"a\"" {} [] = .error f ∧
        ¬IsFold f.fault ∧ ¬IsPreferenceConflict f.fault := by
  refine ⟨.binary (.comparison .eq) sumWithItself (.name "__const0" ⟨9, 17⟩) ⟨0, 17⟩, by cbv,
    ?_, ?_, ?_⟩
  · have huses : Expr.uses (Extraction.ofText {} "x + x = \"a\"")
        (.binary (.comparison .eq) sumWithItself (.name "__const0" ⟨9, 17⟩) ⟨0, 17⟩) =
        [("x", false), ("x", false)] := by cbv
    unfold Expr.UsesConsistent
    rw [huses]
    decide
  · have hsum : sumWithItself.HasType (Extraction.ofText {} "x + x = \"a\"") (fun _ => .string)
        .string :=
      .binary (o := ⟨[.string, .string], .string⟩) _ (by decide)
        (.cons (.name (by cbv)) (.cons (.name (by cbv)) .nil))
    have hliteral : Expr.HasType (Extraction.ofText {} "x + x = \"a\"") (fun _ => .string)
        (.name "__const0" ⟨9, 17⟩) .string :=
      .excerpt (y := ⟨"__const0", .string "a", ⟨8, 11⟩, ⟨9, 17⟩⟩) (by cbv)
    exact ⟨_, _, .binary (o := ⟨[.string, .string], .boolean⟩) _ (by decide)
      (.cons hsum (.cons hliteral .nil))⟩
  · have hfails : ofExpr (.binary (.comparison .eq) sumWithItself (.name "__const0" ⟨9, 17⟩) ⟨0, 17⟩)
        (Extraction.ofText {} "x + x = \"a\"") "x + x = \"a\"" {} [] =
        .error ⟨.invalid "operator '+' produces Numeric where String is required" ⟨0, 5⟩,
          "x + x = \"a\"", []⟩ := by cbv
    refine ⟨_, hfails, ?_, ?_⟩
    · intro h
      obtain ⟨reported, hreported⟩ := h
      cases hreported
    · intro h
      obtain ⟨name, span, hconflict⟩ := h
      simp [TypeFault.ofParameter, TypeFault.invalid] at hconflict

end Analysis
end TolerantExpr
