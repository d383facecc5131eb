import TolerantExpr.Proofs.Engine.Producers
import TolerantExpr.Proofs.Quotation.Renderings
import TolerantExpr.Proofs.Typing.Polynomials

/-!
# Polynomials are computed modulo 2 ^ 64

Taking an integer to its 64 bits is a homomorphism for `+`, `-` and `*`. So it does not matter that
every step of the computation of a polynomial is reduced to 64 bits, nor which of them are folded
beforehand: the value is the exact one, reduced once at the end.
-/

namespace TolerantExpr

/-- The exact value of a polynomial, for the values of its names. -/
def Tree.exactValue (ρ : String → Int) : Tree → Int
  | literal (.int n) => n.toInt
  | name n => ρ n
  | negate t => -t.exactValue ρ
  | binary (.arithmetic .add) l r => l.exactValue ρ + r.exactValue ρ
  | binary (.arithmetic .sub) l r => l.exactValue ρ - r.exactValue ρ
  | binary (.arithmetic .mul) l r => l.exactValue ρ * r.exactValue ρ
  | _ => 0

theorem toInt_ofNat_of_le {n : Nat} (h : n ≤ Int64.maxValue.toInt) : (Int64.ofNat n).toInt = n := by
  have : Int64.maxValue.toInt = 2 ^ 63 - 1 := by decide
  exact Int64.toInt_ofNat_of_lt (by omega)

/-- A literal in the range has the value that is written. -/
theorem Lexeme.Fits.exactValue {l : Lexeme} (h : l.Fits) {n : Nat} (hn : l.token = .int n)
    (ρ : String → Int) :
    ∃ k, l.token.literal? = some k ∧ (Tree.literal k).exactValue ρ = n := by
  exact ⟨.int (Int64.ofNat n), by rw [hn]; rfl, toInt_ofNat_of_le (h n hn)⟩

/-- The integers that a call passes, by the names of the parameters. -/
def ParameterTable.integers (table : ParameterTable) (ns : List Int64) (name : String) : Int :=
  ((table.slot? name).bind fun i => ns[i]?).elim 0 Int64.toInt

/-! ### Evaluation -/

section Evaluation

variable {x : Extraction} {table : ParameterTable} {scope : Scope} {ρ : String → Int}

/-- An operator on integers that were reduced yields the reduced value. -/
theorem Arithmetic.IsRing.perform {op : Arithmetic} (hop : op.IsRing) {l r : Tree} :
    Operation.perform scope (.binary (.arithmetic op))
        [pure (.int (Int64.ofInt (l.exactValue ρ))), pure (.int (Int64.ofInt (r.exactValue ρ)))] =
      pure (.int (Int64.ofInt ((Tree.binary (.arithmetic op) l r).exactValue ρ))) := by
  refine Operation.perform_constants [.int (Int64.ofInt (l.exactValue ρ)),
    .int (Int64.ofInt (r.exactValue ρ))] ?_ (by simp)
  rcases hop with rfl | rfl | rfl
  · rw [Tree.exactValue, Int64.ofInt_add]
    rfl
  · rw [Tree.exactValue, Int64.ofInt_sub]
    rfl
  · rw [Tree.exactValue, Int64.ofInt_mul]
    rfl

/-- A polynomial has its exact value, reduced to 64 bits. -/
theorem Expr.evaluate_of_isPolynomial (hx : x.excerpts = []) {e : Expr} (h : e.tree.IsPolynomial)
    (hρ : ∀ name ∈ (e.uses x).map Prod.fst, ∃ i n, table.slot? name = some i ∧
      scope.slots[i]? = some (.known (.int n)) ∧ ρ name = n.toInt) :
    (e.outline x).evaluate table scope = pure (.int (Int64.ofInt (e.tree.exactValue ρ))) := by
  induction e with
  | literal l s =>
    cases h with
    | int n =>
      rw [tree, Tree.exactValue, Int64.ofInt_toInt]
      rfl
  | name n s =>
    rw [uses, excerptAt?_eq_none hx] at hρ
    obtain ⟨i, k, hi, hk, hn⟩ := hρ n (by simp)
    rw [outline, excerptAt?_eq_none hx, Node.evaluate, hi, tree, Tree.exactValue, hn,
      Int64.ofInt_toInt]
    dsimp only
    rw [Scope.argument, hk]
    rfl
  | negate e s ih =>
    cases h with
    | negate h =>
      rw [outline, Node.evaluate, Node.evaluateAll, Node.evaluateAll, ih h hρ, tree,
        Tree.exactValue, Int64.ofInt_neg]
      exact Operation.perform_constants [.int (Int64.ofInt (e.tree.exactValue ρ))] rfl
        (by simp)
  | binary op l r s ihl ihr =>
    cases h with
    | binary hop hl hr =>
      rw [uses, List.map_append, List.forall_mem_append] at hρ
      rw [outline, Node.evaluate, Node.evaluateAll, Node.evaluateAll, Node.evaluateAll, ihl hl hρ.1,
        ihr hr hρ.2, hop.perform, tree]
  | call f es s ih => cases h

end Evaluation

/-! ### Calls with integers -/

section Calls

variable {find : Finder}

/-- Integers are bound to numeric parameters without preferences as they are. -/
theorem bindAll_integers {i : Nat} {ps : List FixedParameter} {ns : List Int64}
    (hlength : ns.length = ps.length)
    (hps : ∀ f ∈ ps, f.type = .numeric ∧ f.preference = .unset)
    (hfind : ∀ (j : Nat) (f : FixedParameter),
      find (i + j) f = (ns.map fun n => Argument.value (.int n))[j]?) :
    bindAll find i ps = pure (ns.map fun n => .known (.int n)) := by
  induction ps generalizing i ns with
  | nil =>
    rw [List.length_nil, List.length_eq_zero_iff] at hlength
    rw [hlength]
    rfl
  | cons p ps ih =>
    obtain ⟨n, ns, rfl⟩ := List.exists_cons_of_length_eq_add_one hlength
    rw [List.forall_mem_cons] at hps
    obtain ⟨⟨htype, hpreference⟩, hps⟩ := hps
    have hbind : p.bind i (.value (.int n)) = pure (.known (.int n)) := by
      have haccept : p.accept (.int n) = .ok (.int n) := by
        unfold FixedParameter.accept
        rw [htype, hpreference]
        rfl
      rw [FixedParameter.bind, FixedParameter.bindValue, haccept]
      rfl
    have hrest := ih (i := i + 1) (Nat.succ.inj hlength) hps fun j f => by
      rw [show i + 1 + j = i + (j + 1) by omega, hfind (j + 1) f]
      rfl
    rw [bindAll, show find i p = some (.value (.int n)) from hfind 0 p]
    dsimp only
    rw [hbind, hrest]
    rfl

namespace ParameterTable

variable {table : ParameterTable} {ns : List Int64}

theorem bindInOrder_integers (hlength : ns.length = table.length)
    (hps : ∀ f ∈ table, f.type = .numeric ∧ f.preference = .unset) :
    table.bindInOrder (ns.map fun n => .value (.int n)) =
      pure (ns.map fun n => .known (.int n)) := by
  rw [bindInOrder, if_pos (by rw [List.length_map, hlength])]
  exact bindAll_integers hlength hps fun j f => by rw [Nat.zero_add]

/-- A name in the table stands for the integer that its slot is bound to. -/
theorem exists_integer {name : String} (h : name ∈ table.names) (hlength : ns.length = table.length) :
    ∃ i n, table.slot? name = some i ∧
      (ns.map fun n => Slot.known (.int n))[i]? = some (.known (.int n)) ∧
      table.integers ns name = n.toInt := by
  obtain ⟨i, hi⟩ := exists_slot? h
  obtain ⟨hlt, -⟩ := List.findIdx?_eq_some_iff_getElem.mp hi
  have hget := List.getElem?_eq_getElem (hlength ▸ hlt)
  refine ⟨i, ns[i], hi, by rw [List.getElem?_map, hget, Option.map_some], ?_⟩
  rw [integers, hi, Option.bind_some, hget]
  rfl

end ParameterTable
end Calls

namespace Engine

open Analysis

variable {engine : Engine} {source : String}

/-- Called with integers, a polynomial yields its exact value, reduced to 64 bits. -/
theorem call_of_isPolynomial {c : Compiled} (h : engine.compileText source {} = .ok c) {e : Expr}
    (he : engine.parse source = .ok e) (hx : (engine.extract source).excerpts = [])
    (hpoly : e.tree.IsPolynomial)
    (hparameters : ∀ f ∈ c.parameters, f.type = .numeric ∧ f.preference = .unset)
    {ns : List Int64} (hlength : ns.length = c.parameters.length) (t : Tolerance) :
    c.call t (ns.map fun n => .value (.int n)) =
      pure (.int (Int64.ofInt (e.tree.exactValue (c.parameters.integers ns)))) := by
  have hr : Registry.Distinct {} := List.nodup_nil
  have hbind := ParameterTable.bindInOrder_integers hlength hparameters
  have hrun : (c.parameters.bindInOrder (ns.map fun n => .value (.int n))).run [] =
      (.ok (ns.map fun n => Slot.known (.int n)), []) := by
    rw [hbind]
    rfl
  obtain ⟨hfits, -⟩ := ParameterTable.bindInOrder_asks hrun
  obtain ⟨e', he', hvalue⟩ := runCode_eq_evaluate hr h
  obtain rfl := Except.ok.inj (he.symm.trans he')
  obtain ⟨e', a, he', ha, htable, -⟩ := exists_stages_of_compileText h
  obtain rfl := Except.ok.inj (he.symm.trans he')
  obtain ⟨hroot, hknown⟩ := names_of_ofExpr hr rfl ha
  have hnames : ∀ name ∈ (e.uses (engine.extract source)).map Prod.fst,
      name ∈ c.parameters.names := by
    intro name hname
    rw [htable, hknown, hroot]
    exact hname
  rw [Compiled.call, hbind, pure_bind, hvalue t _ _ hfits, Expr.evaluate_of_isPolynomial hx hpoly
    fun name hname => ParameterTable.exists_integer (hnames name hname) hlength]
  rfl

/-- Every text that writes a polynomial compiles, with the options of the default engine. It is a
number, all its parameters are numbers that need not be integers or doubles, and called with
integers it yields, under every tolerance, its exact value modulo 2 ^ 64. -/
theorem compile_polynomial (hoptions : engine.options = {}) {t : Tree} {ls : List Lexeme}
    (h : Rendering source t ls) (hfits : ∀ l ∈ ls, l.Fits)
    (hdeep : nesting 0 source.toList ≤ defaultMaxDepth) (ht : t.IsPolynomial) :
    ∃ c, (engine.compile source).1 = .ok c ∧ c.type = .numeric ∧
      (∀ f ∈ c.parameters, f.type = .numeric ∧ f.preference = .unset) ∧
      ∀ ns : List Int64, ns.length = c.parameters.length →
        ∀ (tolerance : Tolerance) (history : History), ∃ r : Int64,
          (c.call tolerance (ns.map fun n => .value (.int n))).run history =
            (.ok (.int r), history) ∧
          r.toInt = (t.exactValue (c.parameters.integers ns)).bmod (2 ^ 64) := by
  obtain ⟨e, he, rfl⟩ := h.ofLexemes
  have hextract : engine.extract source = ⟨source, []⟩ := by
    rw [extract, hoptions]
    exact h.ofText_eq
  have hparse : engine.parse source = .ok e := by
    rw [parse, hextract, hoptions]
    exact parse_eq_ok_iff.mpr ⟨hdeep, he, h.scan_eq ▸ hfits⟩
  have hx : (engine.extract source).excerpts = [] := by rw [hextract]
  obtain ⟨a, ha, htype, hparameters⟩ :=
    exists_ofExpr_of_isPolynomial hx ht source engine.formatters
  have hcomplete := ofExpr_complete (r := {}) List.nodup_nil rfl ha
  obtain ⟨exact, hexact⟩ := hcomplete.code .exact
  obtain ⟨tolerant, htolerant⟩ := hcomplete.code .tolerant
  have htype? : a.root.type? = some .numeric := by rw [Node.type?, htype, TypeSet.single?_only]
  have hcompile := compileText_of_stages hparse ha hexact htolerant htype?
  refine ⟨_, by rw [compile, count_fst, hcompile], rfl, hparameters,
    fun ns hlength tolerance history => ⟨_, ?_, Int64.toInt_ofInt⟩⟩
  rw [call_of_isPolynomial hcompile hparse hx ht hparameters hlength]
  rfl

/-- A product that 64 bits cannot hold comes back into the range. -/
theorem compile_polynomial_wraps :
    ∃ c, (({ options := {} } : Engine).compile "x*(y + 1) - -7").1 = .ok c ∧
      ∃ r : Int64, (c.call .exact ([Int64.maxValue, 1].map fun n => .value (.int n))).run [] =
        (.ok (.int r), []) ∧ r.toInt = 5 := by
  obtain ⟨hdeep, ls, h, hfits⟩ := ((parse_spec "x*(y + 1) - -7" defaultMaxDepth).1
    (.binary (.arithmetic .sub) (.binary (.arithmetic .mul) (.name "x")
      (.binary (.arithmetic .add) (.name "y") (.literal (.int 1)))) (.negate (.literal (.int 7))))).mp
    ⟨.binary (.arithmetic .sub) (.binary (.arithmetic .mul) (.name "x" ⟨0, 1⟩)
      (.binary (.arithmetic .add) (.name "y" ⟨3, 4⟩) (.literal (.int 1) ⟨7, 8⟩) ⟨3, 8⟩) ⟨0, 8⟩)
      (.negate (.literal (.int 7) ⟨13, 14⟩) ⟨12, 14⟩) ⟨0, 14⟩, by cbv, rfl⟩
  obtain ⟨c, hc, -, -, hcalls⟩ := compile_polynomial
    (rfl : ({ options := {} } : Engine).options = {}) h hfits hdeep
    (.binary (.inr (.inl rfl)) (.binary (.inr (.inr rfl)) (.name "x")
      (.binary (.inl rfl) (.name "y") (.int 1))) (.negate (.int 7)))
  have htable : (({ options := {} } : Engine).compile "x*(y + 1) - -7").1.map
      (fun c => c.parameters) =
        .ok [⟨"x", .numeric, .unset, false, 0⟩, ⟨"y", .numeric, .unset, false, 1⟩] := by cbv
  rw [hc] at htable
  replace htable : c.parameters = _ := Except.ok.inj htable
  obtain ⟨r, hr, hvalue⟩ := hcalls [Int64.maxValue, 1] (by rw [htable]; rfl) .exact []
  refine ⟨c, hc, r, hr, hvalue.trans ?_⟩
  rw [htable]
  decide

end Engine
end TolerantExpr
