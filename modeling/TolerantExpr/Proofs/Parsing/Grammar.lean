import TolerantExpr.Expr.Parse
import TolerantExpr.Proofs.Lists

/-!
# The grammar of expressions

Which token sequences write an expression. An operand needs parentheses where its own operator
binds looser than the place that it stands in allows, and may have them anywhere. Among operators
of one level the left one comes first, except for `^`. A unary minus binds looser than `^`, but may
follow any operator, since nothing else can be meant.
-/

namespace TolerantExpr

/-! ### Trees -/

/-- An expression without its places in a text. -/
inductive Tree where
  | literal (l : Literal)
  | name (n : String)
  | negate (operand : Tree)
  | binary (op : BinaryOperator) (left right : Tree)
  | call (function : String) (arguments : List Tree)

namespace Expr

mutual

def tree : Expr → Tree
  | literal l _ => .literal l
  | name n _ => .name n
  | negate e _ => .negate e.tree
  | binary op l r _ => .binary op l.tree r.tree
  | call f as _ => .call f (trees as)

def trees : List Expr → List Tree
  | [] => []
  | a :: as => a.tree :: trees as

end

theorem trees_eq_map (as : List Expr) : trees as = as.map tree := by
  induction as with
  | nil => rfl
  | cons a as ih => rw [trees, ih, List.map_cons]

end Expr

/-! ### Levels -/

/-- The operators by how tightly they bind, the loosest first. Unary minus is alone on its
level. -/
def bindingOrder : List (List String) :=
  [["|"], ["&"], ["=", "!="], [">", ">=", "<", "<="], ["<<", ">>"], ["+", "-"], ["*", "/"],
    ["unary -"], ["^"]]

def unaryLevel : Nat := bindingOrder.findIdx (·.contains "unary -")

/-- The level of literals, names and calls: no operator binds tighter. -/
def atomLevel : Nat := bindingOrder.length

namespace BinaryOperator

def level (op : BinaryOperator) : Nat := bindingOrder.findIdx (·.contains op.symbol)

/-- The loosest level that the left operand may have without parentheses. -/
def leftLevel (op : BinaryOperator) : Nat :=
  if op = .arithmetic .pow then op.level + 1 else op.level

/-- The loosest level that a right operand may have without parentheses. A negation needs none. -/
def rightLevel (op : BinaryOperator) : Tree → Nat
  | .negate _ => unaryLevel
  | _ => if op = .arithmetic .pow then op.level else op.level + 1

theorem precedence_eq_level (op : BinaryOperator) : op.precedence = op.level := by
  rcases op with op | op | op | op <;> cases op <;> decide

/-- All operators but `^` bind looser than unary minus. -/
theorem level_lt_unaryLevel {op : BinaryOperator} (h : op ≠ .arithmetic .pow) :
    op.level < unaryLevel := by
  rcases op with op | op | op | op <;> cases op <;> first | decide | exact absurd rfl h

theorem ne_pow_of_level_lt {op : BinaryOperator} (h : op.level < unaryLevel) :
    op ≠ .arithmetic .pow := by
  intro heq
  subst heq
  exact absurd h (by decide)

theorem min_le_rightLevel (op : BinaryOperator) (t : Tree) :
    min (op.level + 1) unaryLevel ≤ op.rightLevel t := by
  unfold rightLevel
  split
  · exact Nat.min_le_right _ _
  · split
    · rename_i hop
      rw [hop]
      decide
    · exact Nat.min_le_left _ _

end BinaryOperator

/-! ### Renderings -/

/-- The minus sign, of a subtraction or of a negation. -/
def Token.minus : Token := .operator (.arithmetic .sub)

/-- The literal that a token stands for. An integer that 64 bits cannot hold stands for what is
left of it in 64 bits; no text with such an integer is accepted. -/
def Token.literal? : Token → Option Literal
  | .int n => some (.int (Int64.ofNat n))
  | .float x => some (.float x)
  | .boolean b => some (.boolean b)
  | _ => none

/-- A token that an expression may begin with. -/
def Token.Opens (t : Token) : Prop :=
  t = .minus ∨ t = .leftParen ∨ t.literal?.isSome = true ∨ ∃ n, t = .name n

/-- The tokens that write a tree in a place where operators below the level `p` need
parentheses. -/
inductive Renders : Nat → Tree → List Token → Prop where
  | literal {p : Nat} {t : Token} {l : Literal} (h : t.literal? = some l) :
    Renders p (.literal l) [t]
  | name {p : Nat} (n : String) : Renders p (.name n) [.name n]
  | call {p : Nat} (f : String) (as : List (Tree × List Token))
    (has : ∀ a ∈ as, Renders 0 a.1 a.2) :
    Renders p (.call f (as.map Prod.fst))
      (.name f :: .leftParen :: (List.intercalate [.comma] (as.map Prod.snd) ++ [.rightParen]))
  | parentheses {p : Nat} {t : Tree} {us : List Token} (h : Renders 0 t us) :
    Renders p t (.leftParen :: (us ++ [.rightParen]))
  | negate {p : Nat} {t : Tree} {us : List Token} (hp : p ≤ unaryLevel)
    (h : Renders unaryLevel t us) : Renders p (.negate t) (.minus :: us)
  | binary {p : Nat} {op : BinaryOperator} {l r : Tree} {us vs : List Token} (hp : p ≤ op.level)
    (hl : Renders op.leftLevel l us) (hr : Renders (op.rightLevel r) r vs) :
    Renders p (.binary op l r) (us ++ .operator op :: vs)

namespace Renders

theorem ne_nil {p : Nat} {t : Tree} {us : List Token} (h : Renders p t us) : us ≠ [] := by
  cases h <;> simp

/-- What may stand in a place may stand in a looser one. -/
theorem mono {p q : Nat} {t : Tree} {us : List Token} (h : Renders q t us) (hpq : p ≤ q) :
    Renders p t us := by
  cases h with
  | literal h => exact .literal h
  | name n => exact .name n
  | call f as has => exact .call f as has
  | parentheses h => exact .parentheses h
  | negate hp h => exact .negate (Nat.le_trans hpq hp) h
  | binary hp hl hr => exact .binary (Nat.le_trans hpq hp) hl hr

/-- An expression begins with a literal, a name, a left parenthesis or a minus sign. -/
theorem opens {p : Nat} {t : Tree} {us : List Token} (h : Renders p t us) :
    ∃ u vs, us = u :: vs ∧ u.Opens := by
  induction h with
  | literal h => exact ⟨_, _, rfl, .inr (.inr (.inl (Option.isSome_iff_exists.mpr ⟨_, h⟩)))⟩
  | name n => exact ⟨_, _, rfl, .inr (.inr (.inr ⟨n, rfl⟩))⟩
  | call f => exact ⟨_, _, rfl, .inr (.inr (.inr ⟨f, rfl⟩))⟩
  | parentheses => exact ⟨_, _, rfl, .inr (.inl rfl)⟩
  | negate => exact ⟨_, _, rfl, .inl rfl⟩
  | binary _ _ _ ihl _ =>
    obtain ⟨u, ws, rfl, hu⟩ := ihl
    exact ⟨u, _, rfl, hu⟩

/-- A negation aside, a right operand binds tighter than a negation after `^`, and tighter than the
operator otherwise. -/
theorem right_iff {op : BinaryOperator} {t : Tree} {us : List Token} :
    Renders (op.rightLevel t) t us ↔ Renders (min (op.level + 1) unaryLevel) t us := by
  constructor
  · intro h
    exact h.mono (op.min_le_rightLevel t)
  · intro h
    cases h with
    | literal h => exact .literal h
    | name n => exact .name n
    | call f as has => exact .call f as has
    | parentheses h => exact .parentheses h
    | negate _ h => exact .negate (Nat.le_refl _) h
    | @binary _ op' l r us vs hp hl hr =>
      refine .binary ?_ hl hr
      have hright : op.rightLevel (.binary op' l r) =
          if op = .arithmetic .pow then op.level else op.level + 1 := rfl
      by_cases hop : op = .arithmetic .pow
      · have hop' : op' = .arithmetic .pow := by
          by_contra hne
          have := BinaryOperator.level_lt_unaryLevel hne
          have : BinaryOperator.level (.arithmetic .pow) = 8 := by decide
          have : unaryLevel = 7 := by decide
          subst hop
          omega
        have hlevel : op.rightLevel (.binary op' l r) = op'.level := by
          rw [hright, if_pos hop, hop, hop']
        exact Nat.le_of_eq hlevel
      · have := BinaryOperator.level_lt_unaryLevel hop
        rw [hright, if_neg hop]
        omega

end Renders

end TolerantExpr
