import TolerantExpr.Program.Code
import TolerantExpr.Proofs.Computations
import TolerantExpr.Proofs.Typing.Trees
import Mathlib.Data.List.Nodup

/-!
# Programs and their runs

How a run is put together from its parts, and how the code of a tree is put together from the code
of its operands.
-/

namespace TolerantExpr

/-! ### Runs -/

namespace Run

variable {ε ε' α β : Type}

theorem run_ofExcept (r : Except ε α) (history : History) :
    (ofExcept r).run history = (r, history) := rfl

theorem run_adapt (f : ε → ε') (m : Run ε α) (history : History) :
    (ExceptT.adapt f m).run history =
      ((m.run history).1.mapError f, (m.run history).2) := rfl

/-- How a run ends, whatever was asked before: with a value of which `Q` holds, or with an error
of which, with the history that it leaves behind, `E` holds. -/
def Ends (m : Run ε α) (Q : α → Prop) (E : ε → History → Prop) : Prop :=
  ∀ history, Meets m history (fun a _ => Q a) E

variable {m : Run ε α} {k : α → Run ε β} {Q : α → Prop} {S : β → Prop} {E : ε → History → Prop}

theorem ends_pure {a : α} (h : Q a) : Ends (pure a) Q E := fun _ => meets_pure h

theorem ends_ofExcept {r : Except ε α} (hok : ∀ a, r = .ok a → Q a)
    (herror : ∀ e history, r = .error e → E e history) : Ends (ofExcept r) Q E := by
  intro history
  unfold Meets
  rw [run_ofExcept]
  cases r with
  | ok a => exact hok a rfl
  | error e => exact herror e history rfl

theorem Ends.imp {R : α → Prop} (hm : Ends m Q E) (h : ∀ a, Q a → R a) : Ends m R E :=
  fun history => (hm history).imp (fun a _ => h a) fun _ _ => id

theorem Ends.bind (hm : Ends m Q E) (hk : ∀ a, Q a → Ends (k a) S E) : Ends (m >>= k) S E :=
  fun history => (hm history).bind fun a after ha => hk a ha after

theorem Ends.adapt {f : ε → ε'} {F : ε' → History → Prop} (hm : Ends m Q E)
    (hE : ∀ e history, E e history → F (f e) history) : Ends (ExceptT.adapt f m) Q F := by
  intro history
  have h := hm history
  unfold Meets at h ⊢
  rw [run_adapt]
  rcases hrun : m.run history with ⟨e | a, after⟩ <;> rw [hrun] at h
  · exact hE e after h
  · exact h

end Run

/-! ### The code of a tree -/

theorem ParameterTable.exists_slot? {table : ParameterTable} {name : String}
    (h : name ∈ table.names) : ∃ i, table.slot? name = some i := by
  obtain ⟨f, hf, hname⟩ := List.mem_map.mp h
  rw [← Option.isSome_iff_exists, slot?, List.findIdx?_isSome, List.any_eq_true]
  exact ⟨f, hf, decide_eq_true hname⟩

/-- The slot of a parameter of a table whose names are distinct is its position. -/
theorem ParameterTable.getElem?_of_slot? {table : ParameterTable} (hnames : table.names.Nodup)
    {f : FixedParameter} (hf : f ∈ table) {i : Nat} (h : table.slot? f.name = some i) :
    table[i]? = some f := by
  obtain ⟨hi, hname, -⟩ := List.findIdx?_eq_some_iff_getElem.mp h
  obtain ⟨j, hj, rfl⟩ := List.mem_iff_getElem.mp hf
  rw [decide_eq_true_eq] at hname
  have hmap : (table.map FixedParameter.name).get ⟨i, by simpa using hi⟩ =
      (table.map FixedParameter.name).get ⟨j, by simpa using hj⟩ := by
    rw [List.get_eq_getElem, List.get_eq_getElem, List.getElem_map, List.getElem_map]
    exact hname
  have hij : i = j := congrArg Fin.val (hnames.get_inj_iff.mp hmap)
  subst hij
  exact List.getElem?_eq_getElem hi

namespace Code

variable {mode : Mode} {table : ParameterTable}

theorem ofNodes_eq_ok_iff {xs : List Node} {cs : List Code} :
    ofNodes mode table xs = .ok cs ↔
      List.Forall₂ (fun x c => ofNode mode table x = .ok c) xs cs :=
  except_map_eq_ok_iff (ofNode mode table) (ofNodes mode table) rfl fun _ _ => rfl

theorem ofNode_parameter_eq_ok_iff {name : String} {producer : Bool} {s : Span} {t : ValueType}
    {c : Code} :
    ofNode mode table (.parameter name producer s (.only t)) = .ok c ↔
      ∃ i, table.slot? name = some i ∧ c = argument i name := by
  rw [ofNode, TypeSet.single?_only]
  cases hi : table.slot? name with
  | none =>
    constructor
    · intro h
      cases h
    · intro h
      obtain ⟨i, ⟨⟩, -⟩ := h
  | some i =>
    constructor
    · exact fun h => ⟨i, rfl, (Except.ok.inj h).symm⟩
    · intro h
      obtain ⟨_, ⟨⟩, rfl⟩ := h
      rfl

theorem ofNode_operation_eq_ok_iff {op : Operation} {xs : List Node} {s : Span} {ts : TypeSet}
    {c : Code} :
    ofNode mode table (.operation op xs s ts) = .ok c ↔ ∃ t cs, ts = .only t ∧
      ofNodes mode table xs = .ok cs ∧
      c = ofOperation mode op (some t) (xs.head?.bind Node.type?) cs := by
  rw [ofNode]
  cases ht : ts.single? with
  | none =>
    constructor
    · intro h
      cases h
    · intro h
      obtain ⟨t, cs, rfl, -⟩ := h
      rw [TypeSet.single?_only] at ht
      cases ht
  | some t =>
    rw [TypeSet.single?_eq_some_iff] at ht
    subst ht
    constructor
    · intro h
      obtain ⟨cs, hcs, h⟩ := except_bind_eq_ok_iff.mp h
      exact ⟨t, cs, rfl, hcs, (Except.ok.inj h).symm⟩
    · intro h
      obtain ⟨u, cs, hu, hcs, rfl⟩ := h
      obtain rfl := TypeSet.only_injective hu
      exact except_bind_eq_ok_iff.mpr ⟨cs, hcs, rfl⟩

/-- A resolved tree whose references are in the table has code. -/
theorem exists_ofNode (mode : Mode) {n : Node} (hn : n.Resolved)
    (href : n.EveryReference fun name _ => name ∈ table.names) :
    ∃ c, ofNode mode table n = .ok c := by
  induction hn with
  | constant v s => exact ⟨_, rfl⟩
  | parameter name producer s t =>
    obtain ⟨i, hi⟩ := ParameterTable.exists_slot? href.of_parameter
    exact ⟨_, ofNode_parameter_eq_ok_iff.mpr ⟨i, hi, rfl⟩⟩
  | operation s ho types operands ih =>
    obtain ⟨cs, hcs⟩ := exists_forall₂_of_mem fun x hx => ih x hx (href.of_operation x hx)
    exact ⟨_, ofNode_operation_eq_ok_iff.mpr ⟨_, cs, rfl, ofNodes_eq_ok_iff.mpr hcs, rfl⟩⟩

/-- The code of an operation applies it, but for a Boolean `&` or `|` and for a comparison under
a tolerance. -/
theorem ofOperation_cases (mode : Mode) (op : Operation) (type left : Option ValueType)
    (cs : List Code) :
    ofOperation mode op type left cs = operation op cs ∨
      (∃ o l r, op = .binary (.logical o) ∧ cs = [l, r] ∧ type = some .boolean ∧
        ofOperation mode op type left cs = shortCircuit o l r) ∨
      ∃ o l r, op = .binary (.comparison o) ∧ cs = [l, r] ∧ mode = .tolerant ∧
        left = some .numeric ∧ ofOperation mode op type left cs = tolerant o l r := by
  unfold ofOperation
  split
  · rename_i o l r
    split
    · rename_i ht
      exact .inr (.inl ⟨o, l, r, rfl, rfl, ht, rfl⟩)
    · exact .inl rfl
  · rename_i o l r
    split
    · rename_i h
      exact .inr (.inr ⟨o, l, r, rfl, rfl, h.1, h.2, rfl⟩)
    · exact .inl rfl
  · exact .inl rfl

end Code

end TolerantExpr
