import TolerantExpr.Proofs.Evaluation.Programs
import TolerantExpr.Proofs.Typing.Folding

/-!
# Folding keeps the meaning of a tree

A tree and what it is folded to have code that runs alike, in both modes and whatever the arguments
and the tolerance are. Folding applies an operation where code would leave out an operand, and
compares exactly where code may be tolerant, but never where this makes a difference: the left
operand decides a Boolean `&` or `|` of constants as applying it does, and comparisons of numbers
are left alone. Folding fails exactly where evaluation of a constant part would.
-/

namespace TolerantExpr

namespace Code

/-- Code that runs alike, whatever the arguments and the tolerance are. -/
def RunsAlike (formatters : Formatters) (c d : Code) : Prop :=
  ∀ slots tolerance, c.run ⟨slots, tolerance, formatters⟩ = d.run ⟨slots, tolerance, formatters⟩

/-- Two trees have code that runs alike, or none for the same reason. -/
inductive Agree (formatters : Formatters) :
    Except CodeError Code → Except CodeError Code → Prop where
  | ok {c d : Code} (h : RunsAlike formatters c d) : Agree formatters (.ok c) (.ok d)
  | error (e : CodeError) : Agree formatters (.error e) (.error e)

variable {formatters : Formatters} {mode : Mode} {table : ParameterTable}

theorem RunsAlike.refl (c : Code) : RunsAlike formatters c c := fun _ _ => rfl

theorem RunsAlike.trans {c d e : Code} (h : RunsAlike formatters c d)
    (h' : RunsAlike formatters d e) : RunsAlike formatters c e :=
  fun slots tolerance => (h slots tolerance).trans (h' slots tolerance)

theorem Agree.refl (r : Except CodeError Code) : Agree formatters r r := by
  cases r with
  | ok c => exact .ok (.refl c)
  | error e => exact .error e

theorem Agree.trans {r s t : Except CodeError Code} (h : Agree formatters r s)
    (h' : Agree formatters s t) : Agree formatters r t := by
  cases h with
  | ok h =>
    cases h' with
    | ok h' => exact .ok (h.trans h')
  | error e => exact h'

/-! ### Operands that run alike -/

theorem runAll_congr {cs ds : List Code} (h : List.Forall₂ (RunsAlike formatters) cs ds)
    (slots : List Slot) (tolerance : Tolerance) :
    runAll ⟨slots, tolerance, formatters⟩ cs = runAll ⟨slots, tolerance, formatters⟩ ds := by
  induction h with
  | nil => rfl
  | cons hcd _ ih => rw [runAll, runAll, hcd slots tolerance, ih]

theorem operation_congr (op : Operation) {cs ds : List Code}
    (h : List.Forall₂ (RunsAlike formatters) cs ds) :
    RunsAlike formatters (operation op cs) (operation op ds) := by
  intro slots tolerance
  rw [run, run, runAll_congr h]

/-- Operations with operands that run alike run alike. -/
theorem ofOperation_congr {op : Operation} {type left : Option ValueType} {cs ds : List Code}
    (h : List.Forall₂ (RunsAlike formatters) cs ds) :
    RunsAlike formatters (ofOperation mode op type left cs) (ofOperation mode op type left ds) := by
  have happly := operation_congr op h
  match op, h with
  | .binary (.logical o), .cons hl (.cons hr .nil) =>
    dsimp only [ofOperation]
    split
    · intro slots tolerance
      simp only [run, hl slots tolerance, hr slots tolerance]
    · exact happly
  | .binary (.comparison o), .cons hl (.cons hr .nil) =>
    dsimp only [ofOperation]
    split
    · intro slots tolerance
      simp only [run, hl slots tolerance, hr slots tolerance]
    · exact happly
  | .binary (.logical o), .nil => exact happly
  | .binary (.logical o), .cons _ .nil => exact happly
  | .binary (.logical o), .cons _ (.cons _ (.cons _ _)) => exact happly
  | .binary (.comparison o), .nil => exact happly
  | .binary (.comparison o), .cons _ .nil => exact happly
  | .binary (.comparison o), .cons _ (.cons _ (.cons _ _)) => exact happly
  | .binary (.arithmetic o), _ => exact happly
  | .binary (.shift o), _ => exact happly
  | .negate, _ => exact happly
  | .call f, _ => exact happly

/-- Either all trees of two lists have code that runs alike, or none has for the same reason. -/
theorem ofNodes_congr {xs ys : List Node}
    (h : List.Forall₂ (fun x y => Agree formatters (ofNode mode table x) (ofNode mode table y))
      xs ys) :
    (∃ cs ds, ofNodes mode table xs = .ok cs ∧ ofNodes mode table ys = .ok ds ∧
      List.Forall₂ (RunsAlike formatters) cs ds) ∨
    ∃ e, ofNodes mode table xs = .error e ∧ ofNodes mode table ys = .error e := by
  induction h with
  | nil => exact .inl ⟨[], [], rfl, rfl, .nil⟩
  | @cons x y xs ys hxy _ ih =>
    rw [ofNodes, ofNodes]
    generalize ofNode mode table x = r, ofNode mode table y = s at hxy
    cases hxy with
    | error e => exact .inr ⟨e, rfl, rfl⟩
    | @ok c d hcd =>
      rcases ih with ⟨cs, ds, hcs, hds, h⟩ | ⟨e, hxs, hys⟩
      · refine .inl ⟨c :: cs, d :: ds, ?_, ?_, .cons hcd h⟩
        · rw [hcs]
          rfl
        · rw [hds]
          rfl
      · refine .inr ⟨e, ?_, ?_⟩
        · rw [hxs]
          rfl
        · rw [hys]
          rfl

/-- Trees of an operation agree if their operands agree one by one and have the same types. -/
theorem ofNode_operation_congr {op : Operation} {xs ys : List Node} {s : Span} {ts : TypeSet}
    (h : List.Forall₂ (fun x y => Agree formatters (ofNode mode table x) (ofNode mode table y))
      xs ys) (htypes : xs.map Node.types = ys.map Node.types) :
    Agree formatters (ofNode mode table (.operation op xs s ts))
      (ofNode mode table (.operation op ys s ts)) := by
  have hleft : xs.head?.bind Node.type? = ys.head?.bind Node.type? := by
    have hhead := congrArg (fun us => us.head?.bind TypeSet.single?) htypes
    simp only [List.head?_map, Option.bind_map] at hhead
    exact hhead
  rw [ofNode, ofNode, hleft]
  split
  · exact .error _
  · rcases ofNodes_congr h with ⟨cs, ds, hcs, hds, hall⟩ | ⟨e, hxs, hys⟩
    · rw [hcs, hds]
      exact .ok (ofOperation_congr hall)
    · rw [hxs, hys]
      exact .error e

/-! ### Operations on constants -/

theorem ofNodes_constants {xs : List Node} (h : ∀ x ∈ xs, x.isConstant = true) :
    ofNodes mode table xs = .ok ((xs.filterMap Node.constant?).map constant) := by
  induction xs with
  | nil => rfl
  | cons x xs ih =>
    obtain ⟨v, s, rfl⟩ := Node.isConstant_iff.mp (h x List.mem_cons_self)
    rw [ofNodes, ih fun y hy => h y (List.mem_cons_of_mem _ hy)]
    rfl

theorem runAll_constants (scope : Scope) (vs : List Value) :
    runAll scope (vs.map constant) = pure vs := by
  induction vs with
  | nil => rfl
  | cons v vs ih =>
    rw [List.map_cons, runAll, ih]
    rfl

/-- A Boolean `&` or `|` of two Booleans yields what it is applied to yield, whether or not its
left operand decides. -/
theorem shortCircuit_booleans (op : Logical) (a b : Bool) (scope : Scope) :
    (shortCircuit op (constant (.boolean a)) (constant (.boolean b))).run scope =
      ofExcept (Evaluation.logical op (.boolean a) (.boolean b)) := by
  cases op <;> cases a <;> cases b <;> rfl

/-- An operation that can be folded has code that does no more than apply it. -/
theorem ofNode_of_canFold (formatters : Formatters) (mode : Mode) (table : ParameterTable)
    {op : Operation} {xs : List Node} {s : Span} {ts : TypeSet}
    (hn : (Node.operation op xs s ts).Resolved)
    (hc : (Node.operation op xs s ts).canFold = true) :
    ∃ c, ofNode mode table (.operation op xs s ts) = .ok c ∧ ∀ slots tolerance,
      c.run ⟨slots, tolerance, formatters⟩ =
        ofExcept (op.apply formatters (xs.filterMap Node.constant?)) := by
  cases hn with
  | @operation _ _ o _ ho types operands =>
    have hconst := Node.isConstant_of_canFold hc
    have hvalues : (xs.filterMap Node.constant?).map Value.type = o.arguments :=
      Node.values_types hconst types
    refine ⟨_, ofNode_operation_eq_ok_iff.mpr ⟨_, _, rfl, ofNodes_constants hconst, rfl⟩, ?_⟩
    intro slots tolerance
    rcases ofOperation_cases mode op (some o.result) (xs.head?.bind Node.type?)
        ((xs.filterMap Node.constant?).map constant) with
      h | ⟨l, cl, cr, rfl, hcs, hres, h⟩ | ⟨l, cl, cr, rfl, -, -, hleft, -⟩
    · rw [h, run, runAll_constants]
      rfl
    · rw [Overload.arguments_eq_booleans ho (Option.some.inj hres)] at hvalues
      obtain ⟨v, w, hvw, hv, hw⟩ := Value.eq_pair_of_types hvalues
      obtain ⟨a, rfl⟩ := Value.exists_boolean hv
      obtain ⟨b, rfl⟩ := Value.exists_boolean hw
      rw [hvw] at hcs
      cases hcs
      rw [h, hvw]
      exact shortCircuit_booleans l a b _
    · exact absurd hleft (Node.left_ne_numeric_of_canFold hc)

/-- Folding the root of a resolved tree makes no difference. -/
theorem agree_foldRoot {op : Operation} {xs : List Node} {s : Span} {ts : TypeSet} {m : Node}
    (hn : (Node.operation op xs s ts).Resolved)
    (h : Node.foldRoot formatters (.operation op xs s ts) = .ok m) :
    Agree formatters (ofNode mode table (.operation op xs s ts)) (ofNode mode table m) := by
  rcases Node.foldRoot_cases h with ⟨-, rfl⟩ | ⟨hc, v, hv, rfl⟩
  · exact .refl _
  · obtain ⟨c, hcode, hrun⟩ := ofNode_of_canFold formatters mode table hn hc
    rw [hcode]
    refine .ok fun slots tolerance => ?_
    rw [hrun slots tolerance, hv]
    rfl

/-- A tree and what it is folded to have code that runs alike. -/
theorem agree_foldTree (mode : Mode) (table : ParameterTable) {n m : Node} (hn : n.Resolved)
    (h : n.foldTree formatters = .ok m) :
    Agree formatters (ofNode mode table n) (ofNode mode table m) := by
  induction hn generalizing m with
  | constant | parameter =>
    cases h
    exact .refl _
  | @operation op xs o s ho types operands ih =>
    obtain ⟨ys, hys, hroot⟩ := Node.foldTree_operation_eq_ok_iff.mp h
    have hagree := ((List.forall₂_and_left xs ys).mpr ⟨ih, hys⟩).imp fun x y hxy => hxy.1 hxy.2
    obtain ⟨hresolved, htypes⟩ := Node.resolved_foldTrees (.operation s ho types operands) hys
    exact (ofNode_operation_congr hagree htypes.symm).trans (agree_foldRoot hresolved hroot)

theorem agree_foldTrees (mode : Mode) (table : ParameterTable) {op : Operation}
    {xs ys : List Node} {s : Span} {ts : TypeSet}
    (hn : (Node.operation op xs s ts).Resolved)
    (hys : List.Forall₂ (fun x y => Node.foldTree formatters x = .ok y) xs ys) :
    Agree formatters (ofNode mode table (.operation op xs s ts))
      (ofNode mode table (.operation op ys s ts)) := by
  have hagree := ((List.forall₂_and_left xs ys).mpr ⟨fun x => hn.of_operation, hys⟩).imp
    fun x y hxy => agree_foldTree mode table hxy.1 hxy.2
  exact ofNode_operation_congr hagree (Node.resolved_foldTrees hn hys).2.symm

end Code

/-! ### Where folding fails -/

namespace Node

variable {formatters : Formatters}

/-- A comparison with a number. -/
def ComparesNumbers : Node → Prop
  | operation (.binary (.comparison _)) xs _ _ => TypeSet.only .numeric ∈ xs.map types
  | _ => False

/-- A part that no call can change: its leaves are constants, and it compares no numbers. -/
structure Fixed (n : Node) : Prop where
  leaves : n.EveryReference fun _ _ => False
  comparisons : ∀ m : Node, m.Subtree n → ¬m.ComparesNumbers

theorem fixed_constant (v : Value) (s : Span) : Fixed (constant v s) := by
  refine ⟨.constant v s, ?_⟩
  rintro m ⟨⟩ ⟨⟩

theorem fixed_operation_iff {op : Operation} {xs : List Node} {s : Span} {ts : TypeSet} :
    Fixed (operation op xs s ts) ↔
      (∀ x ∈ xs, Fixed x) ∧ ¬(operation op xs s ts).ComparesNumbers := by
  constructor
  · intro h
    refine ⟨fun x hx => ⟨h.leaves.of_operation x hx, fun m hm => ?_⟩, h.comparisons _ .refl⟩
    exact h.comparisons m (.operand hx hm)
  · intro h
    obtain ⟨hxs, hroot⟩ := h
    refine ⟨.operation fun x hx => (hxs x hx).leaves, ?_⟩
    rintro m (_ | ⟨hx, hm⟩)
    · exact hroot
    · exact (hxs _ hx).comparisons m hm

/-- Whether an operation compares numbers depends on the types of its operands alone. -/
theorem comparesNumbers_congr {op : Operation} {xs ys : List Node} {s : Span} {ts : TypeSet}
    (h : ys.map types = xs.map types) :
    (operation op ys s ts).ComparesNumbers ↔ (operation op xs s ts).ComparesNumbers := by
  match op with
  | .binary (.comparison o) => rw [ComparesNumbers, ComparesNumbers, h]
  | .binary (.arithmetic _) | .binary (.logical _) | .binary (.shift _) | .negate | .call _ =>
    exact Iff.rfl

theorem canFold_iff {op : Operation} {xs : List Node} {s : Span} {ts : TypeSet}
    (hn : Resolved (operation op xs s ts)) :
    (operation op xs s ts).canFold = true ↔
      (∀ x ∈ xs, x.isConstant = true) ∧ ¬(operation op xs s ts).ComparesNumbers := by
  match op, hn with
  | .binary (.comparison o), .operation _ ho htypes _ =>
    obtain ⟨-, t, harg, -⟩ := Comparison.of_mem_overloads ho
    rw [harg] at htypes
    obtain ⟨l, rs, rfl, hl, hrs⟩ := List.map_eq_cons_iff.mp htypes
    have hhas : l.types.has .numeric = decide (t = .numeric) := by rw [hl, TypeSet.has_only]
    have hmem : TypeSet.only .numeric ∈ [TypeSet.only t, TypeSet.only t] ↔ t = .numeric := by
      constructor
      · intro h
        have heq : TypeSet.only .numeric = TypeSet.only t := by simpa using h
        exact (TypeSet.only_injective heq).symm
      · intro heq
        subst heq
        exact List.mem_cons_self
    rw [canFold, ComparesNumbers, htypes, List.map_cons, List.map_cons, List.map_nil, hmem, hhas,
      Bool.and_eq_true, List.all_eq_true, and_comm]
    simp
  | .binary (.arithmetic _), _ | .binary (.logical _), _ | .binary (.shift _), _ | .negate, _
  | .call _, _ => simp [canFold, ComparesNumbers]

/-- An operation can be folded, once its operands were, if it is fixed, and only then. -/
theorem canFold_iff_fixed {op : Operation} {xs ys : List Node} {s : Span} {ts : TypeSet}
    (hn : Resolved (operation op xs s ts))
    (hys : List.Forall₂ (fun x y => foldTree formatters x = .ok y) xs ys)
    (hxs : List.Forall₂ (fun x y => y.isConstant = true ↔ x.Fixed) xs ys) :
    (operation op ys s ts).canFold = true ↔ (operation op xs s ts).Fixed := by
  obtain ⟨hresolved, htypes⟩ := resolved_foldTrees hn hys
  rw [canFold_iff hresolved, fixed_operation_iff, comparesNumbers_congr htypes,
    forall_mem_iff_of_forall₂ hxs.flip]

/-- A tree is folded to a constant if it is fixed, and only then. -/
theorem isConstant_foldTree_iff {n m : Node} (hn : Resolved n) (h : foldTree formatters n = .ok m) :
    m.isConstant = true ↔ n.Fixed := by
  induction hn generalizing m with
  | constant v s =>
    cases h
    exact ⟨fun _ => fixed_constant v s, fun _ => rfl⟩
  | parameter name producer s t =>
    cases h
    constructor
    · intro h
      cases h
    · exact fun hn => hn.leaves.of_parameter.elim
  | @operation op xs o s ho types operands ih =>
    obtain ⟨ys, hys, hroot⟩ := foldTree_operation_eq_ok_iff.mp h
    have hxs := ((List.forall₂_and_left xs ys).mpr ⟨ih, hys⟩).imp fun x y hxy => hxy.1 hxy.2
    rw [← canFold_iff_fixed (.operation s ho types operands) hys hxs]
    rcases foldRoot_cases hroot with ⟨hc, rfl⟩ | ⟨hc, v, -, rfl⟩
    · exact ⟨fun h => absurd h Bool.false_ne_true, fun h => absurd h hc⟩
    · exact ⟨fun _ => hc, fun _ => rfl⟩

theorem Resolved.of_subtree {m n : Node} (hm : Subtree m n) (hn : Resolved n) : Resolved m := by
  induction hm with
  | refl => exact hn
  | operand hx _ ih =>
    cases hn with
    | operation _ _ _ operands => exact ih (operands _ hx)

/-- A part of what can be folded can be folded. -/
theorem exists_foldTree_of_subtree {m n n' : Node} (hm : Subtree m n)
    (h : foldTree formatters n = .ok n') : ∃ m', foldTree formatters m = .ok m' := by
  induction hm generalizing n' with
  | refl => exact ⟨n', h⟩
  | operand hx _ ih =>
    obtain ⟨ys, hys, -⟩ := foldTree_operation_eq_ok_iff.mp h
    obtain ⟨y, -, hy⟩ := exists_of_forall₂_of_mem_right hys.flip hx
    exact ih hy

/-- Evaluation of a tree fails. -/
def Fails (mode : Mode) (table : ParameterTable) (scope : Scope) (n : Node) (history : History) :
    Prop :=
  ∃ c, Code.ofNode mode table n = .ok c ∧ ∃ e, (c.run scope history).1 = .error e

variable {mode : Mode} {table : ParameterTable} {slots : List Slot} {tolerance : Tolerance}
  {history : History}

/-- A fixed tree that can be folded does not fail. -/
theorem not_fails_of_foldTree {n m : Node} (hn : Resolved n) (hfixed : n.Fixed)
    (h : foldTree formatters n = .ok m) :
    ¬n.Fails mode table ⟨slots, tolerance, formatters⟩ history := by
  intro h
  obtain ⟨c, hc, e, he⟩ := h
  have hagree := Code.agree_foldTree mode table hn h
  obtain ⟨v, s, rfl⟩ := isConstant_iff.mp ((isConstant_foldTree_iff hn h).mpr hfixed)
  rw [hc] at hagree
  cases hagree with
  | ok hrun =>
    rw [hrun slots tolerance] at he
    cases he

/-- Where folding fails at the root, a fixed tree fails. -/
theorem fails_of_foldRoot {op : Operation} {xs ys : List Node} {s : Span} {ts : TypeSet}
    {fault : TypeFault} (hn : Resolved (operation op xs s ts))
    (hys : List.Forall₂ (fun x y => foldTree formatters x = .ok y) xs ys)
    (h : foldRoot formatters (operation op ys s ts) = .error fault) :
    (operation op xs s ts).Fixed ∧
      (operation op xs s ts).Fails mode table ⟨slots, tolerance, formatters⟩ history := by
  have hxs := ((List.forall₂_and_left xs ys).mpr ⟨fun x => hn.of_operation, hys⟩).imp
    fun x y hxy => isConstant_foldTree_iff hxy.1 hxy.2
  obtain ⟨hc, e, he, -⟩ := foldRoot_eq_error h
  refine ⟨(canFold_iff_fixed hn hys hxs).mp hc, ?_⟩
  obtain ⟨c, hcode, hrun⟩ := Code.ofNode_of_canFold formatters mode table
    (resolved_foldTrees hn hys).1 hc
  have hagree := Code.agree_foldTrees mode table hn hys
  rw [hcode] at hagree
  generalize hd : Code.ofNode mode table (operation op xs s ts) = r at hagree
  cases hagree with
  | ok hdc =>
    refine ⟨_, hd, e, ?_⟩
    rw [hdc slots tolerance, hrun slots tolerance, he]
    rfl

/-- Folding fails if a fixed part of the tree fails, and only then. -/
theorem exists_fault_iff {n : Node} (hn : Resolved n) :
    (∃ fault, foldTree formatters n = .error fault) ↔
      ∃ m, Subtree m n ∧ m.Fixed ∧ m.Fails mode table ⟨slots, tolerance, formatters⟩ history := by
  constructor
  · intro h
    obtain ⟨fault, h⟩ := h
    induction hn with
    | constant | parameter => cases h
    | @operation op xs o s ho types operands ih =>
      rcases foldTree_operation_eq_error_iff.mp h with h | ⟨ys, hys, h⟩
      · obtain ⟨x, hx, h⟩ := exists_fault_of_foldTrees h
        obtain ⟨m, hm, hfails⟩ := ih x hx h
        exact ⟨m, .operand hx hm, hfails⟩
      · exact ⟨_, .refl, fails_of_foldRoot (.operation s ho types operands) hys h⟩
  · intro h
    obtain ⟨m, hm, hfixed, hfails⟩ := h
    cases h : foldTree formatters n with
    | error fault => exact ⟨fault, rfl⟩
    | ok n' =>
      obtain ⟨m', hm'⟩ := exists_foldTree_of_subtree hm h
      exact absurd hfails (not_fails_of_foldTree (hn.of_subtree hm) hfixed hm')

/-- Folding a resolved tree leaves its code running as before, in both modes, whatever the slots
and the tolerance are; and it fails exactly if some part of the tree fails whose leaves are all
constants and which compares no numbers. -/
theorem foldTree_sound {n : Node} (hn : Resolved n) (formatters : Formatters) (mode : Mode)
    (table : ParameterTable) :
    (∀ m, foldTree formatters n = .ok m →
      Code.Agree formatters (Code.ofNode mode table n) (Code.ofNode mode table m)) ∧
    ∀ (slots : List Slot) (tolerance : Tolerance) (history : History),
      (∃ fault, foldTree formatters n = .error fault) ↔
        ∃ m, Subtree m n ∧ m.Fixed ∧
          m.Fails mode table ⟨slots, tolerance, formatters⟩ history :=
  ⟨fun _ h => Code.agree_foldTree mode table hn h, fun _ _ _ => exists_fault_iff hn⟩

/-- The tree of `2 * 3 + x`. -/
def productPlus : Node :=
  operation (.binary (.arithmetic .add))
    [operation (.binary (.arithmetic .mul)) [constant (.int 2) ⟨0, 1⟩, constant (.int 3) ⟨4, 5⟩]
      ⟨0, 5⟩ (.only .numeric), parameter "x" false ⟨8, 9⟩ (.only .numeric)] ⟨0, 9⟩ (.only .numeric)

theorem foldTree_sound_productPlus :
    Resolved productPlus ∧
    foldTree [] productPlus = .ok (operation (.binary (.arithmetic .add))
      [constant (.int 6) ⟨0, 5⟩, parameter "x" false ⟨8, 9⟩ (.only .numeric)] ⟨0, 9⟩
      (.only .numeric)) ∧
    ∃ m, foldTree [] productPlus = .ok m ∧ ∀ mode table,
      Code.Agree [] (Code.ofNode mode table productPlus) (Code.ofNode mode table m) := by
  have hproduct : Resolved (operation (.binary (.arithmetic .mul))
      [constant (.int 2) ⟨0, 1⟩, constant (.int 3) ⟨4, 5⟩] ⟨0, 5⟩ (.only .numeric)) := by
    refine .operation (o := ⟨[.numeric, .numeric], .numeric⟩) _ (by decide) rfl ?_
    simpa using ⟨.constant _ _, .constant _ _⟩
  have hn : Resolved productPlus := by
    refine .operation (o := ⟨[.numeric, .numeric], .numeric⟩) _ (by decide) rfl ?_
    simpa using ⟨hproduct, .parameter _ _ _ _⟩
  exact ⟨hn, rfl, _, rfl, fun mode table => (foldTree_sound hn [] mode table).1 _ rfl⟩

end Node

end TolerantExpr
