import TolerantExpr.Proofs.Parsing.Correctness

/-!
# Expressions as they are written

A tree says nothing about the parentheses that were written around its parts. An expression as it is
written keeps them, and so determines its tokens. Every text that the grammar accepts is one; it
nests the pairs of parentheses around its parts and the arguments of its calls.
-/

namespace TolerantExpr

/-- An expression with all its parentheses. -/
inductive Written where
  /-- A literal with the token that it was written with. -/
  | literal (t : Token) (l : Literal)
  | name (n : String)
  | call (function : String) (arguments : List Written)
  | parentheses (inner : Written)
  | negate (operand : Written)
  | binary (op : BinaryOperator) (left right : Written)

namespace Written

/-! ### Trees and tokens -/

mutual

/-- The expression without its parentheses. -/
def tree : Written → Tree
  | literal _ l => .literal l
  | name n => .name n
  | call f as => .call f (trees as)
  | parentheses w => w.tree
  | negate w => .negate w.tree
  | binary op l r => .binary op l.tree r.tree

def trees : List Written → List Tree
  | [] => []
  | a :: as => a.tree :: trees as

end

mutual

def tokens : Written → List Token
  | literal t _ => [t]
  | name n => [.name n]
  | call f as =>
    .name f :: .leftParen :: (List.intercalate [.comma] (tokensOfEach as) ++ [.rightParen])
  | parentheses w => .leftParen :: (w.tokens ++ [.rightParen])
  | negate w => .minus :: w.tokens
  | binary op l r => l.tokens ++ .operator op :: r.tokens

def tokensOfEach : List Written → List (List Token)
  | [] => []
  | a :: as => a.tokens :: tokensOfEach as

end

theorem trees_eq_map (as : List Written) : trees as = as.map tree := by
  induction as with
  | nil => rfl
  | cons a as ih => rw [trees, ih, List.map_cons]

theorem tokensOfEach_eq_map (as : List Written) : tokensOfEach as = as.map tokens := by
  induction as with
  | nil => rfl
  | cons a as ih => rw [tokensOfEach, ih, List.map_cons]

/-- The expression needs no more parentheses in a place where operators below the level `p` need
them. -/
inductive Obeys : Nat → Written → Prop where
  | literal {p : Nat} {t : Token} {l : Literal} (h : t.literal? = some l) : Obeys p (literal t l)
  | name {p : Nat} (n : String) : Obeys p (name n)
  | call {p : Nat} (f : String) {as : List Written} (has : ∀ a ∈ as, Obeys 0 a) :
    Obeys p (call f as)
  | parentheses {p : Nat} {w : Written} (h : Obeys 0 w) : Obeys p (parentheses w)
  | negate {p : Nat} {w : Written} (hp : p ≤ unaryLevel) (h : Obeys unaryLevel w) :
    Obeys p (negate w)
  | binary {p : Nat} {op : BinaryOperator} {l r : Written} (hp : p ≤ op.level)
    (hl : Obeys op.leftLevel l) (hr : Obeys (op.rightLevel r.tree) r) : Obeys p (binary op l r)

variable {p : Nat}

theorem Obeys.renders {w : Written} (h : w.Obeys p) : Renders p w.tree w.tokens := by
  induction h with
  | literal h => exact .literal h
  | name n => exact .name n
  | @call p f as has ih =>
    have hcall := Renders.call (p := p) f (as.map fun a => (a.tree, a.tokens))
      (List.forall_mem_map.mpr ih)
    rw [List.map_map, List.map_map] at hcall
    rw [tree, tokens, trees_eq_map, tokensOfEach_eq_map]
    exact hcall
  | parentheses _ ih => exact .parentheses ih
  | negate hp _ ih => exact .negate hp ih
  | binary hp _ _ ihl ihr => exact .binary hp ihl ihr

/-- What writes a tree is the tree with parentheses added to it. -/
theorem exists_of_renders {t : Tree} {us : List Token} (h : Renders p t us) :
    ∃ w : Written, w.Obeys p ∧ w.tree = t ∧ w.tokens = us := by
  induction h with
  | @literal _ t l h => exact ⟨.literal t l, .literal h, rfl, rfl⟩
  | name n => exact ⟨.name n, .name n, rfl, rfl⟩
  | call f as has ih =>
    obtain ⟨ws, hws⟩ := exists_forall₂_of_mem ih
    have htrees : as.map Prod.fst = ws.map tree :=
      map_eq_map_iff.mpr (hws.imp fun _ _ h => h.2.1.symm)
    have htokens : as.map Prod.snd = ws.map tokens :=
      map_eq_map_iff.mpr (hws.imp fun _ _ h => h.2.2.symm)
    refine ⟨.call f ws, .call f fun w hw => ?_, ?_, ?_⟩
    · obtain ⟨a, -, ha⟩ := exists_of_forall₂_of_mem_right hws hw
      exact ha.1
    · rw [tree, trees_eq_map, htrees]
    · rw [tokens, tokensOfEach_eq_map, htokens]
  | parentheses _ ih =>
    obtain ⟨w, hw, rfl, rfl⟩ := ih
    exact ⟨.parentheses w, .parentheses hw, rfl, rfl⟩
  | negate hp _ ih =>
    obtain ⟨w, hw, rfl, rfl⟩ := ih
    exact ⟨.negate w, .negate hp hw, rfl, rfl⟩
  | @binary _ op _ _ _ _ hp _ _ ihl ihr =>
    obtain ⟨l, hl, rfl, rfl⟩ := ihl
    obtain ⟨r, hr, rfl, rfl⟩ := ihr
    exact ⟨.binary op l r, .binary hp hl hr, rfl, rfl⟩

/-- A text made of the tokens of an expression as it is written. -/
structure Stands (w : Written) (source : String) (ls : List Lexeme) : Prop where
  obeys : w.Obeys 0
  layout : Layout 0 ls source.toList
  tokens_eq : ls.map Lexeme.token = w.tokens

variable {w : Written} {source : String} {t : Tree} {ls : List Lexeme}

theorem Stands.rendering (h : w.Stands source ls) : Rendering source w.tree ls :=
  ⟨h.layout, h.tokens_eq ▸ h.obeys.renders⟩

/-- The texts of the grammar are the expressions as they are written. -/
theorem rendering_iff : Rendering source t ls ↔ ∃ w : Written, w.Stands source ls ∧ w.tree = t := by
  constructor
  · intro h
    obtain ⟨w, hw, htree, htokens⟩ := exists_of_renders h.renders
    exact ⟨w, ⟨hw, h.layout, htokens.symm⟩, htree⟩
  · rintro ⟨w, h, rfl⟩
    exact h.rendering

/-- A text whose tokens are those of an expression is that expression. -/
theorem Stands.of_scan (hw : w.Obeys 0)
    (h : (Token.scan 0 source.toList).map Lexeme.token = w.tokens) :
    w.Stands source (Token.scan 0 source.toList) where
  obeys := hw
  layout := Layout.of_scan 0 source.toList fun _ hl =>
    hw.renders.ne_stray _ (h ▸ List.mem_map_of_mem hl)
  tokens_eq := h

end Written
end TolerantExpr
