import TolerantExpr.Proofs.Typing.Propagation

/-!
# Loops that go by reports

Each part of narrowing can report whether it has changed a node, and a loop can go on for as long
as a round of it reports a change. The rules below describe the executions of such loops; nothing
in them falls from round to round. Still every task has an execution, it leads where narrowing
leads, and its report is right, so that each round but the last one makes a tree lighter.
-/

namespace TolerantExpr.Node

/-! ### Tasks -/

/-- A part of narrowing, with the nodes that it is about. -/
inductive Task where
  | stabilize (n : Node)
  | restrict (allowed : TypeSet) (n : Node)
  | narrowOperands (overloads : List Overload) (position : Nat) (operands : List Node)
  | pin (t : ValueType) (n : Node)
  | sweep (n : Node)
  | sweepAll (operands : List Node)

namespace Task

abbrev Subject : Task → Type
  | stabilize _ | restrict _ _ | pin _ _ | sweep _ => Node
  | narrowOperands _ _ _ | sweepAll _ => List Node

def subject : (task : Task) → task.Subject
  | stabilize n | restrict _ n | pin _ n | sweep n => n
  | narrowOperands _ _ operands | sweepAll operands => operands

def run : (task : Task) → Registry → Narrowed task.Subject
  | stabilize n, r => n.stabilize r
  | restrict allowed n, r => n.restrict allowed r
  | narrowOperands overloads position operands, r =>
    Node.narrowOperands overloads position operands r
  | pin t n, r => n.pin t r
  | sweep n, r => n.sweep r
  | sweepAll operands, r => Node.sweepAll operands r

end Task

/-! ### Executions -/

/-- An execution of a task, and whether it reports a change. A fault leaves nothing to report. -/
inductive Executes : (task : Task) → Registry → Narrowed task.Subject → Bool → Prop where
  | constant (v : Value) (s : Span) (r : Registry) :
    Executes (.stabilize (constant v s)) r ⟨constant v s, r, none⟩ false
  | unregistered {name : String} {producer : Bool} {s : Span} {ts : TypeSet} {r : Registry}
    {e : ParameterError} {left : Registry} (h : r.narrow name ts = .error e left) :
    Executes (.stabilize (parameter name producer s ts)) r
      ⟨parameter name producer s ts, left, some (.ofParameter e s)⟩ false
  | parameter {name : String} {producer : Bool} {s : Span} {ts : TypeSet} {r r' : Registry}
    (h : r.narrow name ts = .ok r') :
    Executes (.stabilize (parameter name producer s ts)) r
      ⟨parameter name producer s (r'.typesOf name), r', none⟩ (decide (r'.typesOf name ≠ ts))
  | mismatch {op : Operation} {xs : List Node} {s : Span} {ts : TypeSet} {r : Registry}
    (h : (viable op xs ts).isEmpty = true) :
    Executes (.stabilize (operation op xs s ts)) r
      ⟨operation op xs s ts, r, some (mismatch op xs s ts)⟩ false
  | stop {op : Operation} {xs : List Node} {s : Span} {ts : TypeSet} {r : Registry}
    {below : Narrowed (List Node)} {changed : Bool} (hos : ¬(viable op xs ts).isEmpty = true)
    (hxs : Executes (.narrowOperands (viable op xs ts) 0 xs) r below changed)
    (h : below.fault ≠ none ∨ changed = false ∧ Overload.results (viable op xs ts) = ts) :
    Executes (.stabilize (operation op xs s ts)) r
      ⟨operation op below.subject s (Overload.results (viable op xs ts)), below.registry,
        below.fault⟩ false
  | again {op : Operation} {xs : List Node} {s : Span} {ts : TypeSet} {r : Registry}
    {below : Narrowed (List Node)} {next : Narrowed Node} {changed more : Bool}
    (hos : ¬(viable op xs ts).isEmpty = true)
    (hxs : Executes (.narrowOperands (viable op xs ts) 0 xs) r below changed)
    (hf : below.fault = none) (h : changed = true ∨ Overload.results (viable op xs ts) ≠ ts)
    (hnext : Executes
      (.stabilize (operation op below.subject s (Overload.results (viable op xs ts))))
      below.registry next more) :
    Executes (.stabilize (operation op xs s ts)) r next true
  | conflict {allowed : TypeSet} {n : Node} {r : Registry} (h : n.types.inter allowed = .empty) :
    Executes (.restrict allowed n) r ⟨n, r, some (n.conflict allowed)⟩ false
  | unchanged {allowed : TypeSet} {n : Node} {r : Registry} (hne : n.types.inter allowed ≠ .empty)
    (h : n.types.inter allowed = n.types) : Executes (.restrict allowed n) r ⟨n, r, none⟩ false
  | narrower {allowed : TypeSet} {n : Node} {r : Registry} {next : Narrowed Node} {changed : Bool}
    (hne : n.types.inter allowed ≠ .empty) (h : n.types.inter allowed ≠ n.types)
    (hnext : Executes (.stabilize (n.withTypes (n.types.inter allowed))) r next changed) :
    Executes (.restrict allowed n) r next true
  | narrowNil (os : List Overload) (i : Nat) (r : Registry) :
    Executes (.narrowOperands os i []) r ⟨[], r, none⟩ false
  | narrowFault {os : List Overload} {i : Nat} {x : Node} {xs : List Node} {r : Registry}
    {first : Narrowed Node} {changed : Bool} {fault : TypeFault}
    (hx : Executes (.restrict (Overload.argumentTypes os i) x) r first changed)
    (hf : first.fault = some fault) :
    Executes (.narrowOperands os i (x :: xs)) r ⟨first.subject :: xs, first.registry, some fault⟩
      false
  | narrowCons {os : List Overload} {i : Nat} {x : Node} {xs : List Node} {r : Registry}
    {first : Narrowed Node} {rest : Narrowed (List Node)} {changed more : Bool}
    (hx : Executes (.restrict (Overload.argumentTypes os i) x) r first changed)
    (hf : first.fault = none)
    (hxs : Executes (.narrowOperands os (i + 1) xs) first.registry rest more) :
    Executes (.narrowOperands os i (x :: xs)) r
      ⟨first.subject :: rest.subject, rest.registry, rest.fault⟩ (changed || more)
  | refused {t : ValueType} {n : Node} {r : Registry} (h : n.types.has t = false) :
    Executes (.pin t n) r ⟨n, r, some (n.conflict (.only t))⟩ false
  | pin {t : ValueType} {n : Node} {r : Registry} {next : Narrowed Node} {changed : Bool}
    (h : n.types.has t = true) (hnext : Executes (.restrict (.only t) n) r next changed) :
    Executes (.pin t n) r next changed
  | sweepConstant {v : Value} {s : Span} {r : Registry} {next : Narrowed Node} {changed : Bool}
    (h : Executes (.stabilize (constant v s)) r next changed) :
    Executes (.sweep (constant v s)) r next changed
  | sweepParameter {name : String} {producer : Bool} {s : Span} {ts : TypeSet} {r : Registry}
    {next : Narrowed Node} {changed : Bool}
    (h : Executes (.stabilize (parameter name producer s ts)) r next changed) :
    Executes (.sweep (parameter name producer s ts)) r next changed
  | sweepFault {op : Operation} {xs : List Node} {s : Span} {ts : TypeSet} {r : Registry}
    {below : Narrowed (List Node)} {changed : Bool} {fault : TypeFault}
    (hxs : Executes (.sweepAll xs) r below changed) (hf : below.fault = some fault) :
    Executes (.sweep (operation op xs s ts)) r
      ⟨operation op below.subject s ts, below.registry, some fault⟩ false
  | sweep {op : Operation} {xs : List Node} {s : Span} {ts : TypeSet} {r : Registry}
    {below : Narrowed (List Node)} {next : Narrowed Node} {changed more : Bool}
    (hxs : Executes (.sweepAll xs) r below changed) (hf : below.fault = none)
    (hnext : Executes (.stabilize (operation op below.subject s ts)) below.registry next more) :
    Executes (.sweep (operation op xs s ts)) r next (changed || more)
  | sweepAllNil (r : Registry) : Executes (.sweepAll []) r ⟨[], r, none⟩ false
  | sweepAllFault {x : Node} {xs : List Node} {r : Registry} {first : Narrowed Node}
    {changed : Bool} {fault : TypeFault} (hx : Executes (.sweep x) r first changed)
    (hf : first.fault = some fault) :
    Executes (.sweepAll (x :: xs)) r ⟨first.subject :: xs, first.registry, some fault⟩ false
  | sweepAllCons {x : Node} {xs : List Node} {r : Registry} {first : Narrowed Node}
    {rest : Narrowed (List Node)} {changed more : Bool} (hx : Executes (.sweep x) r first changed)
    (hf : first.fault = none) (hxs : Executes (.sweepAll xs) first.registry rest more) :
    Executes (.sweepAll (x :: xs)) r ⟨first.subject :: rest.subject, rest.registry, rest.fault⟩
      (changed || more)

section Executions

variable {n x : Node} {xs : List Node} {r : Registry} {allowed : TypeSet} {t : ValueType}
  {op : Operation} {s : Span} {ts : TypeSet} {changed more : Bool}

/-! ### Reports -/

theorem weight_lt_of_le_of_ne {m n : Node} (h : m ≤ n) (hne : m ≠ n) : m.weight < n.weight := by
  by_contra hlt
  exact hne (eq_of_le_of_weight_le h (Nat.le_of_not_lt hlt))

/-- On the way down, the end is not the start exactly if something changed before or after. -/
private theorem ne_iff_of_le {k m n : Node} (hkm : k ≤ m) (hmn : m ≤ n) :
    k ≠ n ↔ m ≠ n ∨ k ≠ m := by
  constructor
  · intro hne
    by_contra h
    push Not at h
    exact hne (h.2.trans h.1)
  · rintro (hne | hne) rfl
    · exact hne (le_antisymm hmn hkm)
    · exact hne (le_antisymm hkm hmn)

theorem operation_ne_iff {ys : List Node} {us : TypeSet} :
    operation op xs s ts ≠ operation op ys s us ↔ xs ≠ ys ∨ ts ≠ us := by
  rw [Ne, operation.injEq, ← not_and_or]
  simp

/-- A report is right: without a fault, a change is reported exactly if there is one. -/
def Reported {α : Type} (changed : Bool) (next : Narrowed α) (subject : α) : Prop :=
  next.fault = none → (changed = true ↔ next.subject ≠ subject)

namespace Reported

variable {α : Type} {subject : α}

theorem of_fault {next : Narrowed α} (h : next.fault ≠ none) : Reported changed next subject :=
  fun hf => absurd hf h

theorem of_eq {next last : Narrowed α} (hreport : Reported changed next subject)
    (h : next = last) : Reported changed last subject := h ▸ hreport

theorem refl (subject : α) (r : Registry) : Reported false ⟨subject, r, none⟩ subject :=
  fun _ => iff_of_false Bool.false_ne_true fun h => h rfl

theorem eq_false {next : Narrowed α} (h : Reported changed next subject)
    (hf : next.fault = none) (hsame : next.subject = subject) : changed = false := by
  rw [← Bool.not_eq_true, h hf, not_not]
  exact hsame

theorem eq_of_false {next : Narrowed α} (h : Reported false next subject)
    (hf : next.fault = none) : next.subject = subject := by
  by_contra hne
  cases (h hf).mpr hne

/-- The report of a list is put together from those of its first node and of the others. -/
theorem cons {first : Narrowed Node} {rest : Narrowed (List Node)} (hx : Reported changed first x) (hf : first.fault = none)
    (hxs : Reported more rest xs) :
    Reported (changed || more) ⟨first.subject :: rest.subject, rest.registry, rest.fault⟩
      (x :: xs) := by
  intro hrest
  have hcons : first.subject :: rest.subject ≠ x :: xs ↔
      first.subject ≠ x ∨ rest.subject ≠ xs := by
    rw [Ne, List.cons.injEq, not_and_or]
  rw [Bool.or_eq_true, hx hf, hxs hrest]
  exact hcons.symm

end Reported

/-! ### Executions lead where narrowing leads -/

theorem stop_spec (hos : ¬(viable op xs ts).isEmpty = true)
    (hreport : Reported changed (narrowOperands (viable op xs ts) 0 xs r) xs)
    (h : (narrowOperands (viable op xs ts) 0 xs r).fault ≠ none ∨
      changed = false ∧ Overload.results (viable op xs ts) = ts) :
    stabilize (operation op xs s ts) r =
      ⟨operation op (narrowOperands (viable op xs ts) 0 xs r).subject s
          (Overload.results (viable op xs ts)),
        (narrowOperands (viable op xs ts) 0 xs r).registry,
        (narrowOperands (viable op xs ts) 0 xs r).fault⟩ ∧
      Reported false (stabilize (operation op xs s ts) r) (operation op xs s ts) := by
  have hrest : (narrowOperands (viable op xs ts) 0 xs r).fault = none →
      operation op (narrowOperands (viable op xs ts) 0 xs r).subject s
        (Overload.results (viable op xs ts)) = operation op xs s ts := by
    intro hf
    obtain ⟨hchanged, hts⟩ := h.resolve_left fun hne => hne hf
    by_contra hne
    rcases operation_ne_iff.mp hne with hsub | hsub
    · rw [← hreport hf, hchanged] at hsub
      cases hsub
    · exact hsub hts
  have hstop : stabilize (operation op xs s ts) r = _ := stabilize_stop hos fun hlt => by
    rw [hrest (Option.isNone_iff_eq_none.mp hlt.2)] at hlt
    exact Nat.lt_irrefl _ hlt.1
  refine ⟨hstop, fun hf => ?_⟩
  rw [hstop] at hf ⊢
  exact iff_of_false Bool.false_ne_true fun hne => hne (hrest hf)

/-- A round that reports a change makes the operation lighter, so that stabilizing goes on. -/
theorem again_spec (hr : r.Distinct) (hos : ¬(viable op xs ts).isEmpty = true)
    (hreport : Reported changed (narrowOperands (viable op xs ts) 0 xs r) xs)
    (hf : (narrowOperands (viable op xs ts) 0 xs r).fault = none)
    (h : changed = true ∨ Overload.results (viable op xs ts) ≠ ts) :
    stabilize (operation op xs s ts) r =
      stabilize (operation op (narrowOperands (viable op xs ts) 0 xs r).subject s
          (Overload.results (viable op xs ts)))
        (narrowOperands (viable op xs ts) 0 xs r).registry ∧
      Reported true (stabilize (operation op xs s ts) r) (operation op xs s ts) := by
  obtain ⟨hbelow, hreg⟩ := narrowOperands_le (viable op xs ts) 0 xs hr
  have hle : operation op (narrowOperands (viable op xs ts) 0 xs r).subject s
      (Overload.results (viable op xs ts)) ≤ operation op xs s ts :=
    .operation hbelow (results_viable_le op xs ts)
  have hne : operation op (narrowOperands (viable op xs ts) 0 xs r).subject s
      (Overload.results (viable op xs ts)) ≠ operation op xs s ts :=
    operation_ne_iff.mpr (h.imp_left (hreport hf).mp)
  have hagain : stabilize (operation op xs s ts) r = _ := stabilize_again hos
    ⟨weight_lt_of_le_of_ne hle hne, Option.isNone_iff_eq_none.mpr hf⟩
  refine ⟨hagain, fun _ => iff_of_true rfl ?_⟩
  rw [hagain]
  have hnext := (stabilize_le (operation op (narrowOperands (viable op xs ts) 0 xs r).subject s
    (Overload.results (viable op xs ts))) (Registry.distinct_of_le hreg hr)).1
  exact (ne_iff_of_le hnext hle).mpr (.inl hne)

theorem narrower_spec (hr : r.Distinct) (hne : n.types.inter allowed ≠ .empty)
    (h : n.types.inter allowed ≠ n.types) : Reported true (restrict allowed n r) n := by
  rw [restrict_narrower hne h]
  refine fun _ => iff_of_true rfl fun hsame => ?_
  have hle := types_le_of_le (stabilize_le (n.withTypes (n.types.inter allowed)) hr).1
  rw [hsame, types_withTypes (TypeSet.inter_le_left _ _) hne] at hle
  exact h (le_antisymm (TypeSet.inter_le_left _ _) hle)

theorem pin_of_not_has (h : n.types.has t = false) :
    pin t n r = ⟨n, r, some (n.conflict (.only t))⟩ := by
  refine restrict_conflict (by_contra fun hne => ?_)
  have hle := TypeSet.inter_le_left n.types (.only t)
  rw [TypeSet.eq_only_of_le (TypeSet.inter_le_right _ _) hne, TypeSet.only_le_iff, h] at hle
  cases hle

theorem sweep_spec (hr : r.Distinct) (hreport : Reported changed (sweepAll xs r) xs)
    (hf : (sweepAll xs r).fault = none)
    (hnext : Reported more
      (stabilize (operation op (sweepAll xs r).subject s ts) (sweepAll xs r).registry)
      (operation op (sweepAll xs r).subject s ts)) :
    Reported (changed || more) (sweep (operation op xs s ts) r) (operation op xs s ts) := by
  rw [sweep_operation hf]
  intro hfault
  obtain ⟨hbelow, hreg⟩ := sweepAll_le xs hr
  have hle : operation op (sweepAll xs r).subject s ts ≤ operation op xs s ts :=
    .operation hbelow le_rfl
  have hnext' := (stabilize_le (operation op (sweepAll xs r).subject s ts)
    (Registry.distinct_of_le hreg hr)).1
  rw [Bool.or_eq_true, hreport hf, hnext hfault, ne_iff_of_le hnext' hle, operation_ne_iff]
  simp

/-- An execution leads where the task leads, and its report is right. -/
theorem Executes.spec {task : Task} {next : Narrowed task.Subject}
    (h : Executes task r next changed) (hr : r.Distinct) :
    next = task.run r ∧ Reported changed next task.subject := by
  induction h with
  | constant v s r =>
    refine ⟨?_, .refl _ _⟩
    rw [Task.run, stabilize]
  | unregistered h => exact ⟨(stabilize_parameter_error h).symm, .of_fault (by simp)⟩
  | parameter h =>
    refine ⟨(stabilize_parameter_ok h).symm, fun _ => ?_⟩
    rw [decide_eq_true_eq, Task.subject, Ne, Ne, parameter.injEq]
    simp
  | mismatch h => exact ⟨(stabilize_mismatch h).symm, .of_fault (by simp)⟩
  | stop hos _ h ih =>
    obtain ⟨rfl, hreport⟩ := ih hr
    obtain ⟨hstop, hreport'⟩ := stop_spec hos hreport h
    exact ⟨hstop.symm, hreport'.of_eq hstop⟩
  | again hos _ hf h _ ihxs ih =>
    obtain ⟨rfl, hreport⟩ := ihxs hr
    obtain ⟨hagain, hreport'⟩ := again_spec hr hos hreport hf h
    obtain ⟨rfl, -⟩ := ih (Registry.distinct_of_le (narrowOperands_le _ _ _ hr).2 hr)
    exact ⟨hagain.symm, hreport'.of_eq hagain⟩
  | conflict h => exact ⟨(restrict_conflict h).symm, .of_fault (by simp)⟩
  | unchanged hne h => exact ⟨(restrict_unchanged hne h).symm, .refl _ _⟩
  | narrower hne h _ ih =>
    obtain ⟨rfl, -⟩ := ih hr
    exact ⟨(restrict_narrower hne h).symm,
      (narrower_spec hr hne h).of_eq (restrict_narrower hne h)⟩
  | narrowNil os i r =>
    refine ⟨?_, .refl _ _⟩
    rw [Task.run, narrowOperands]
  | narrowFault _ hf ih =>
    obtain ⟨rfl, -⟩ := ih hr
    exact ⟨(narrowOperands_fault hf).symm, .of_fault (by simp)⟩
  | narrowCons _ hf _ ihx ihxs =>
    obtain ⟨rfl, hreport⟩ := ihx hr
    obtain ⟨rfl, hreports⟩ := ihxs (Registry.distinct_of_le (restrict_le _ _ hr).2 hr)
    exact ⟨(narrowOperands_cons hf).symm, hreport.cons hf hreports⟩
  | refused h => exact ⟨(pin_of_not_has h).symm, .of_fault (by simp)⟩
  | pin _ _ ih => exact ih hr
  | sweepConstant _ ih => exact ih hr
  | sweepParameter _ ih => exact ih hr
  | sweepFault _ hf ih =>
    obtain ⟨rfl, -⟩ := ih hr
    exact ⟨(sweep_operation_fault hf).symm, .of_fault (by simp)⟩
  | sweep _ hf _ ihxs ih =>
    obtain ⟨rfl, hreport⟩ := ihxs hr
    obtain ⟨rfl, hreport'⟩ := ih (Registry.distinct_of_le (sweepAll_le _ hr).2 hr)
    exact ⟨(sweep_operation hf).symm,
      (sweep_spec hr hreport hf hreport').of_eq (sweep_operation hf)⟩
  | sweepAllNil r => exact ⟨rfl, .refl _ _⟩
  | sweepAllFault _ hf ih =>
    obtain ⟨rfl, -⟩ := ih hr
    exact ⟨(sweepAll_fault hf).symm, .of_fault (by simp)⟩
  | sweepAllCons _ hf _ ihx ihxs =>
    obtain ⟨rfl, hreport⟩ := ihx hr
    obtain ⟨rfl, hreports⟩ := ihxs (Registry.distinct_of_le (sweep_le _ hr).2 hr)
    exact ⟨(sweepAll_cons hf).symm, hreport.cons hf hreports⟩

/-! ### Every task has an execution -/

private theorem narrowing_executes :
    (∀ n r, r.Distinct → ∃ b, Executes (.stabilize n) r (stabilize n r) b) ∧
    (∀ os i xs r, r.Distinct →
      ∃ b, Executes (.narrowOperands os i xs) r (narrowOperands os i xs r) b) ∧
    (∀ allowed n r, r.Distinct → ∃ b, Executes (.restrict allowed n) r (restrict allowed n r) b) := by
  apply stabilize.mutual_induct
  case case1 =>
    intro r v s _
    rw [stabilize]
    exact ⟨_, .constant v s r⟩
  case case2 =>
    intro r name producer s ts e left he _
    rw [stabilize_parameter_error he]
    exact ⟨_, .unregistered he⟩
  case case3 =>
    intro r name producer s ts r' hr' _
    rw [stabilize_parameter_ok hr']
    exact ⟨_, .parameter hr'⟩
  case case4 =>
    intro r op xs s ts os hos _
    rw [stabilize_mismatch hos]
    exact ⟨_, .mismatch hos⟩
  case case5 =>
    intro r op xs s ts os hos narrowed next hlt _ ihxs ih hr
    rw [stabilize_again hos hlt]
    obtain ⟨changed, hxs⟩ := ihxs hr
    obtain ⟨more, hnext⟩ := ih (Registry.distinct_of_le (narrowOperands_le _ _ _ hr).2 hr)
    have hf := Option.isNone_iff_eq_none.mp hlt.2
    -- the operation has become lighter, so it is another one, and the round has reported it
    have hne : next ≠ operation op xs s ts := fun he => Nat.lt_irrefl _ (he ▸ hlt.1)
    exact ⟨true, .again hos hxs hf ((operation_ne_iff.mp hne).imp_left ((hxs.spec hr).2 hf).mpr)
      hnext⟩
  case case6 =>
    intro r op xs s ts os hos narrowed next hlt ihxs hr
    rw [stabilize_stop hos hlt]
    obtain ⟨changed, hxs⟩ := ihxs hr
    refine ⟨false, .stop hos hxs ?_⟩
    by_cases hf : (narrowOperands (viable op xs ts) 0 xs r).fault = none
    · have hle : next ≤ operation op xs s ts :=
        .operation (narrowOperands_le _ _ _ hr).1 (results_viable_le op xs ts)
      have hsame : next = operation op xs s ts := by
        refine eq_of_le_of_weight_le hle (Nat.le_of_not_lt fun hw => hlt ⟨hw, ?_⟩)
        exact Option.isNone_iff_eq_none.mpr hf
      injection hsame with _ hsub _ hts
      exact .inr ⟨(hxs.spec hr).2.eq_false hf hsub, hts⟩
    · exact .inl hf
  case case7 =>
    intro os i r _
    rw [narrowOperands]
    exact ⟨_, .narrowNil os i r⟩
  case case8 =>
    intro os i r x xs first fault hf ih hr
    rw [narrowOperands_fault hf]
    obtain ⟨_, hx⟩ := ih hr
    exact ⟨_, .narrowFault hx hf⟩
  case case9 =>
    intro os i r x xs first hf ihx ihxs hr
    rw [narrowOperands_cons hf]
    obtain ⟨_, hx⟩ := ihx hr
    obtain ⟨_, hxs⟩ := ihxs (Registry.distinct_of_le (restrict_le _ _ hr).2 hr)
    exact ⟨_, .narrowCons hx hf hxs⟩
  case case10 =>
    intro allowed n r ts hts _
    rw [restrict_conflict hts]
    exact ⟨_, .conflict hts⟩
  case case11 =>
    intro allowed n r ts hne hts _
    rw [restrict_unchanged hne hts]
    exact ⟨_, .unchanged hne hts⟩
  case case12 =>
    intro allowed n r ts hne hts ih hr
    rw [restrict_narrower hne hts]
    obtain ⟨_, hnext⟩ := ih hr
    exact ⟨_, .narrower hne hts hnext⟩

end Executions

mutual

private theorem sweep_executes (n : Node) {r : Registry} (hr : r.Distinct) :
    ∃ b, Executes (.sweep n) r (sweep n r) b := by
  match n with
  | constant v s =>
    obtain ⟨_, h⟩ := narrowing_executes.1 (constant v s) r hr
    exact ⟨_, .sweepConstant h⟩
  | parameter name producer s ts =>
    obtain ⟨_, h⟩ := narrowing_executes.1 (parameter name producer s ts) r hr
    exact ⟨_, .sweepParameter h⟩
  | operation op xs s ts =>
    obtain ⟨_, hxs⟩ := sweepAll_executes xs hr
    cases hf : (sweepAll xs r).fault with
    | some fault =>
      rw [sweep_operation_fault hf]
      exact ⟨_, .sweepFault hxs hf⟩
    | none =>
      rw [sweep_operation hf]
      obtain ⟨_, h⟩ := narrowing_executes.1 (operation op (sweepAll xs r).subject s ts) _
        (Registry.distinct_of_le (sweepAll_le xs hr).2 hr)
      exact ⟨_, .sweep hxs hf h⟩

private theorem sweepAll_executes (xs : List Node) {r : Registry} (hr : r.Distinct) :
    ∃ b, Executes (.sweepAll xs) r (sweepAll xs r) b := by
  match xs with
  | [] => exact ⟨_, .sweepAllNil r⟩
  | x :: xs =>
    obtain ⟨_, hx⟩ := sweep_executes x hr
    cases hf : (sweep x r).fault with
    | some fault =>
      rw [sweepAll_fault hf]
      exact ⟨_, .sweepAllFault hx hf⟩
    | none =>
      rw [sweepAll_cons hf]
      obtain ⟨_, hxs⟩ := sweepAll_executes xs (Registry.distinct_of_le (sweep_le x hr).2 hr)
      exact ⟨_, .sweepAllCons hx hf hxs⟩

end

theorem exists_executes (task : Task) {r : Registry} (hr : r.Distinct) :
    ∃ b, Executes task r (task.run r) b := by
  cases task with
  | stabilize n => exact narrowing_executes.1 n r hr
  | restrict allowed n => exact narrowing_executes.2.2 allowed n r hr
  | narrowOperands os i xs => exact narrowing_executes.2.1 os i xs r hr
  | pin t n =>
    cases h : n.types.has t with
    | false =>
      rw [Task.run, pin_of_not_has h]
      exact ⟨_, .refused h⟩
    | true =>
      obtain ⟨_, hnext⟩ := narrowing_executes.2.2 (.only t) n r hr
      exact ⟨_, .pin h hnext⟩
  | sweep n => exact sweep_executes n hr
  | sweepAll xs => exact sweepAll_executes xs hr

/-! ### Repeated sweeps -/

/-- An execution that sweeps a tree until a sweep reports no change, and how many sweeps it
takes. -/
inductive Propagates : Nat → Node → Registry → Narrowed Node → Prop where
  | stop {n : Node} {r : Registry} {next : Narrowed Node} {changed : Bool}
    (h : Executes (.sweep n) r next changed) (hstop : next.fault ≠ none ∨ changed = false) :
    Propagates 1 n r next
  | again {k : Nat} {n : Node} {r : Registry} {next last : Narrowed Node}
    (h : Executes (.sweep n) r next true) (hf : next.fault = none)
    (rest : Propagates k next.subject next.registry last) : Propagates (k + 1) n r last

/-- Every sweep but the last one makes the tree lighter. -/
theorem exists_propagates (n : Node) {r : Registry} (hr : r.Distinct) :
    ∃ k ≤ n.weight, Propagates k n r (propagate n r) := by
  induction hw : n.weight using Nat.strongRecOn generalizing n r with
  | ind w ih =>
    obtain ⟨changed, h⟩ := exists_executes (.sweep n) hr
    have hreport := (h.spec hr).2
    obtain ⟨hagain, hstop⟩ := propagate_eq n hr
    by_cases hend : (sweep n r).fault ≠ none ∨ (sweep n r).subject = n
    · rw [hstop hend]
      refine ⟨1, hw ▸ weight_pos n, .stop h ?_⟩
      by_cases hf : (sweep n r).fault = none
      · exact .inr (hreport.eq_false hf (hend.resolve_left fun hne => hne hf))
      · exact .inl hf
    · obtain ⟨hf, hne⟩ := not_or.mp hend
      rw [ne_eq, not_not] at hf
      rw [hagain hf hne]
      obtain ⟨hle, hreg⟩ := sweep_le n hr
      have hlt := hw ▸ weight_lt_of_le_of_ne hle hne
      obtain ⟨k, hk, hrest⟩ := ih _ hlt (sweep n r).subject (Registry.distinct_of_le hreg hr) rfl
      obtain rfl := (hreport hf).mpr hne
      exact ⟨k + 1, Nat.lt_of_le_of_lt hk hlt, .again h hf hrest⟩

theorem Propagates.eq {k : Nat} {n : Node} {r : Registry} {last : Narrowed Node}
    (h : Propagates k n r last) (hr : r.Distinct) : last = propagate n r := by
  induction h with
  | @stop n r next changed h hstop =>
    obtain ⟨rfl, hreport⟩ := h.spec hr
    refine ((propagate_eq n hr).2 ?_).symm
    by_cases hf : (sweep n r).fault = none
    · obtain rfl := hstop.resolve_left fun hne => hne hf
      exact .inr (hreport.eq_of_false hf)
    · exact .inl hf
  | @again k n r next last h hf _ ih =>
    obtain ⟨rfl, hreport⟩ := h.spec hr
    rw [ih (Registry.distinct_of_le (sweep_le n hr).2 hr)]
    exact ((propagate_eq n hr).1 hf ((hreport hf).mp rfl)).symm

end TolerantExpr.Node
