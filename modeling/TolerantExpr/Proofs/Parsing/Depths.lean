import TolerantExpr.Proofs.Parsing.Nesting

/-!
# What the limit on nesting bounds

The limit bounds how deep pairs of parentheses, those of calls included, are nested on any path of an
expression. It does not bound how deep operators are nested between them: a chain of minus signs is
read under every limit. So a path has no more levels than the limit only if parentheses and calls
are nested as deep anyway.
-/

namespace TolerantExpr

namespace Written

mutual

/-- How many levels the deepest path of an expression has. A pair of parentheses is one level, and so
is a call with its parentheses; an operator is `n` levels. -/
def depth (n : Nat) : Written → Nat
  | literal _ _ => 0
  | name _ => 0
  | call _ as => depthOfEach n as + 1
  | parentheses w => w.depth n + 1
  | negate w => w.depth n + n
  | binary _ l r => max (l.depth n) (r.depth n) + n

def depthOfEach (n : Nat) : List Written → Nat
  | [] => 0
  | a :: as => max (a.depth n) (depthOfEach n as)

end

end Written

/-! ### The highest count -/

namespace Token

/-- The highest count in front of, between and behind some tokens. -/
def peak (depth : Nat) : List Token → Nat
  | [] => depth
  | t :: us => max depth (peak (t.depthAfter depth) us)

theorem le_peak (depth : Nat) (us : List Token) : depth ≤ peak depth us := by
  cases us with
  | nil => exact le_rfl
  | cons t us => exact Nat.le_max_left _ _

theorem peak_cons {t : Token} (hleft : t ≠ .leftParen) (hright : t ≠ .rightParen) (depth : Nat)
    (us : List Token) : peak depth (t :: us) = peak depth us := by
  rw [peak, depthAfter_eq hleft hright, Nat.max_eq_right (le_peak depth us)]

theorem peak_append (depth : Nat) (us vs : List Token) :
    peak depth (us ++ vs) = max (peak depth us) (peak (depthBehind depth us) vs) := by
  induction us generalizing depth with
  | nil => exact (Nat.max_eq_right (le_peak depth vs)).symm
  | cons t us ih =>
    rw [List.cons_append, peak, peak, ih, Nat.max_assoc]
    rfl

theorem peak_le_iff {limit depth : Nat} {us : List Token} :
    peak depth us ≤ limit ↔ ∀ k ≤ us.length, depthBehind depth (us.take k) ≤ limit := by
  induction us generalizing depth with
  | nil => simp [peak, depthBehind]
  | cons t us ih =>
    rw [peak, Nat.max_le, ih]
    constructor
    · rintro ⟨hdepth, hall⟩ k hk
      cases k with
      | zero => exact hdepth
      | succ k => exact hall k (Nat.le_of_succ_le_succ hk)
    · intro hall
      exact ⟨hall 0 (Nat.zero_le _), fun k hk => hall (k + 1) (Nat.succ_le_succ hk)⟩

/-- A pair of parentheses around tokens that close what they open raises the highest count by one. -/
theorem peak_enclose {depth : Nat} {us : List Token}
    (h : depthBehind (depth + 1) us = depth + 1) :
    peak depth (.leftParen :: (us ++ [.rightParen])) = peak (depth + 1) us := by
  have hle := le_peak (depth + 1) us
  rw [peak, depthAfter, peak_append, h]
  change max depth (max _ (max (depth + 1) (depth + 1 - 1))) = _
  omega

end Token

namespace Written

variable {w : Written} {p : Nat}

theorem peak_arguments {as : List Written} (has : ∀ a ∈ as, a.Obeys 0)
    (h : ∀ a ∈ as, ∀ depth, Token.peak depth a.tokens = depth + a.depth 0) (depth : Nat) :
    Token.peak depth (List.intercalate [.comma] (tokensOfEach as)) = depth + depthOfEach 0 as := by
  induction as with
  | nil => rfl
  | cons a as ih =>
    rw [List.forall_mem_cons] at has h
    cases as with
    | nil => simpa [tokensOfEach, depthOfEach, List.intercalate] using h.1 depth
    | cons b as =>
      have hbehind := (pairing has.1 0).depthBehind_eq depth
      have hrest := ih has.2 h.2
      rw [tokensOfEach] at hrest ⊢
      rw [tokensOfEach, List.intercalate_cons_cons, List.append_assoc, List.singleton_append,
        Token.peak_append, h.1, hbehind, Token.peak_cons (by simp) (by simp), hrest,
        Nat.add_max_add_left]
      rfl

/-- The count of the parentheses goes up by the depth of an expression without its operators. -/
theorem peak_tokens (h : w.Obeys p) (depth : Nat) :
    Token.peak depth w.tokens = depth + w.depth 0 := by
  induction h generalizing depth with
  | literal h =>
    rw [tokens, Token.peak_cons (by rintro rfl; cases h) (by rintro rfl; cases h)]
    rfl
  | name n =>
    rw [tokens, Token.peak_cons (by simp) (by simp)]
    rfl
  | @call _ f as has ih =>
    have hbehind := (pairing_arguments (fun a ha => pairing (has a ha)) 0).depthBehind_eq (depth + 1)
    have harguments := peak_arguments has ih (depth + 1)
    rw [tokens, Token.peak_cons (by simp) (by simp), Token.peak_enclose hbehind, harguments,
      Written.depth]
    omega
  | parentheses h ih =>
    rw [tokens, Token.peak_enclose ((pairing h 0).depthBehind_eq _), ih, Written.depth]
    omega
  | negate hp h ih =>
    rw [tokens, Token.peak_cons (by simp [Token.minus]) (by simp [Token.minus]), ih, Written.depth,
      Nat.add_zero]
  | binary hp hl hr ihl ihr =>
    rw [tokens, Token.peak_append, (pairing hl 0).depthBehind_eq,
      Token.peak_cons (by simp) (by simp), ihl, ihr, Written.depth, Nat.add_max_add_left,
      Nat.add_zero]

variable {source : String} {ls : List Lexeme} {limit : Nat}

/-- The parentheses of a text are nested as deep as those of the expression. -/
theorem Stands.nesting_le_iff (h : w.Stands source ls) :
    nesting 0 source.toList ≤ limit ↔ w.depth 0 ≤ limit := by
  have hcheck : tooDeepAt? limit 0 0 source.toList = none ↔ nesting 0 source.toList ≤ limit :=
    TolerantExpr.tooDeepAt?_eq_none_iff (Nat.zero_le _)
  have hpeak := peak_tokens h.obeys 0
  rw [Nat.zero_add] at hpeak
  rw [← hcheck, h.layout.tooDeepAt?_eq (Nat.zero_le _), firstTooDeep?_eq_none_iff (Nat.zero_le _),
    ← hpeak, Token.peak_le_iff, ← h.tokens_eq, List.length_map]
  rfl

/-- A text is parsed if its integers fit and the limit allows its parentheses. -/
theorem Stands.exists_parse_iff (h : w.Stands source ls) :
    (∃ e, Expr.parse source limit = .ok e) ↔ (∀ l ∈ ls, l.Fits) ∧ w.depth 0 ≤ limit := by
  obtain ⟨e, he, -⟩ := h.rendering.ofLexemes
  simp only [parse_eq_ok_iff, h.nesting_le_iff, h.rendering.scan_eq] at he ⊢
  constructor
  · rintro ⟨e, hdepth, -, hfits⟩
    exact ⟨hfits, hdepth⟩
  · rintro ⟨hfits, hdepth⟩
    exact ⟨e, hdepth, he, hfits⟩

/-- What is parsed is an expression as it is written. -/
theorem exists_stands_of_parse {e : Expr} (h : Expr.parse source limit = .ok e) :
    ∃ (w : Written) (ls : List Lexeme), w.Stands source ls ∧ w.tree = e.tree := by
  obtain ⟨-, he, -⟩ := parse_eq_ok_iff.mp h
  obtain ⟨w, hw, htree⟩ := rendering_iff.mp (rendering_of_ofLexemes he)
  exact ⟨w, _, hw, htree⟩

/-- What is parsed is an expression as it is written. Its text is parsed exactly if its integers fit
and pairs of parentheses, those of calls included, are nested no deeper than the limit. So the limit
bounds what is nested on every path exactly if operators, calls and pairs together are nested no
deeper than the pairs alone, or than one level. -/
theorem depth_le_limit_iff (source : String) :
    (∀ limit e, Expr.parse source limit = .ok e →
      ∃ (w : Written) (ls : List Lexeme), w.Stands source ls ∧ w.tree = e.tree) ∧
    ∀ (w : Written) (ls : List Lexeme), w.Stands source ls →
      (∀ limit, (∃ e, Expr.parse source limit = .ok e) ↔
        (∀ l ∈ ls, l.Fits) ∧ w.depth 0 ≤ limit) ∧
      ((∀ limit, 1 ≤ limit → ∀ e, Expr.parse source limit = .ok e → w.depth 1 ≤ limit) ↔
        ((∀ l ∈ ls, l.Fits) → w.depth 1 ≤ max 1 (w.depth 0))) := by
  refine ⟨fun limit e he => exists_stands_of_parse he, fun w ls h => ?_⟩
  refine ⟨fun limit => h.exists_parse_iff, ?_, ?_⟩
  · intro hall hfits
    obtain ⟨e, he⟩ : ∃ e, Expr.parse source (max 1 (w.depth 0)) = .ok e :=
      h.exists_parse_iff.mpr ⟨hfits, Nat.le_max_right _ _⟩
    exact hall _ (Nat.le_max_left _ _) e he
  · intro hdepth limit hlimit e he
    obtain ⟨hfits, hparens⟩ := h.exists_parse_iff.mp ⟨e, he⟩
    have := hdepth hfits
    omega

/-- The deepest path leads through a call, its group and the sum in it; the limit 2 lets the text
pass. -/
theorem depth_le_limit_iff_group :
    ∃ (e : Expr) (w : Written) (ls : List Lexeme), Expr.parse "f((1 + 2))" 2 = .ok e ∧
      (∃ (u : Written) (ms : List Lexeme), u.Stands "f((1 + 2))" ms ∧ u.tree = e.tree) ∧
      w.Stands "f((1 + 2))" ls ∧
      (∀ limit, (∃ e, Expr.parse "f((1 + 2))" limit = .ok e) ↔
        (∀ l ∈ ls, l.Fits) ∧ w.depth 0 ≤ limit) ∧
      ((∀ limit, 1 ≤ limit → ∀ e, Expr.parse "f((1 + 2))" limit = .ok e → w.depth 1 ≤ limit) ↔
        ((∀ l ∈ ls, l.Fits) → w.depth 1 ≤ max 1 (w.depth 0))) ∧
      w.depth 0 = 2 ∧ w.depth 1 = 3 := by
  obtain ⟨hwritten, hstanding⟩ := depth_le_limit_iff "f((1 + 2))"
  have hstands : (Written.call "f" [.parentheses (.binary (.arithmetic .add) (.literal (.int 1) (.int 1))
      (.literal (.int 2) (.int 2)))]).Stands "f((1 + 2))" (Token.scan 0 "f((1 + 2))".toList) := by
    refine .of_scan (.call "f" ?_) (by cbv)
    simp only [List.forall_mem_cons]
    exact ⟨.parentheses (.binary (Nat.zero_le _) (.literal rfl) (.literal rfl)), by simp⟩
  obtain ⟨e, he⟩ : ∃ e, Expr.parse "f((1 + 2))" 2 = .ok e := ⟨_, by cbv⟩
  obtain ⟨hparse, hbound⟩ := hstanding _ _ hstands
  exact ⟨e, _, _, he, hwritten 2 e he, hstands, hparse, hbound, rfl, rfl⟩

/-- Two minus signs are nested in what the limit 1 lets pass. -/
theorem not_depth_le_limit :
    ∃ (e : Expr) (w : Written) (ls : List Lexeme), Expr.parse "--1" 1 = .ok e ∧
      w.Stands "--1" ls ∧ w.tree = e.tree ∧ ¬w.depth 1 ≤ 1 := by
  have hstands : (Written.negate (.negate (.literal (.int 1) (.int 1)))).Stands "--1"
      (Token.scan 0 "--1".toList) :=
    .of_scan (.negate (Nat.zero_le _) (.negate le_rfl (.literal rfl))) (by cbv)
  refine ⟨.negate (.negate (.literal (.int 1) ⟨2, 3⟩) ⟨1, 3⟩) ⟨0, 3⟩, _, _, by cbv, hstands, rfl, ?_⟩
  decide

/-! ### Chains of minus signs -/

/-- A literal behind some minus signs. -/
def negated : Nat → Written
  | 0 => literal (.int 1) (.int 1)
  | n + 1 => negate (negated n)

theorem obeys_negated (n : Nat) {p : Nat} (hp : p ≤ unaryLevel) : (negated n).Obeys p := by
  induction n generalizing p with
  | zero => exact .literal rfl
  | succ n ih => exact .negate hp (ih le_rfl)

theorem depth_negated (k n : Nat) : (negated n).depth k = n * k := by
  induction n with
  | zero => exact (Nat.zero_mul k).symm
  | succ n ih => rw [negated, depth, ih, Nat.succ_mul]

theorem exists_layout_negated (n offset : Nat) :
    ∃ ls, Layout offset ls (List.replicate n '-' ++ ['1']) ∧
      ls.map Lexeme.token = (negated n).tokens ∧ ∀ l ∈ ls, l.Fits := by
  induction n generalizing offset with
  | zero =>
    have hone : Token.Spells ['1'] (.int 1) := .decimal ⟨_, _, rfl, rfl, by simp⟩
    have hend : Layout (offset + byteLength ['1']) [] [] := .nil (by simp)
    refine ⟨_, hend.token hone, rfl, ?_⟩
    rintro l hl n hn
    cases List.mem_singleton.mp hl
    cases hn
    decide
  | succ n ih =>
    obtain ⟨ls, hlayout, htokens, hfits⟩ := ih (offset + byteLength ['-'])
    have hminus : Token.Spells ['-'] .minus := .operator rfl
    refine ⟨_, hlayout.token hminus, ?_, ?_⟩
    · rw [List.map_cons, htokens]
      rfl
    · exact List.forall_mem_cons.mpr ⟨(by rintro _ ⟨⟩), hfits⟩

/-- A chain of minus signs of any length is read under every limit. -/
theorem exists_parse_negated (n limit : Nat) : ∃ (source : String) (ls : List Lexeme) (e : Expr),
    (negated n).Stands source ls ∧ Expr.parse source limit = .ok e ∧ (negated n).depth 1 = n := by
  obtain ⟨ls, hlayout, htokens, hfits⟩ := exists_layout_negated n 0
  have hstands : (negated n).Stands (String.ofList (List.replicate n '-' ++ ['1'])) ls :=
    ⟨obeys_negated n (Nat.zero_le _), String.toList_ofList ▸ hlayout, htokens⟩
  obtain ⟨e, he⟩ : ∃ e, Expr.parse _ limit = .ok e :=
    hstands.exists_parse_iff.mpr ⟨hfits, by rw [depth_negated]; exact Nat.zero_le _⟩
  exact ⟨_, ls, e, hstands, he, by rw [depth_negated, Nat.mul_one]⟩

end Written
end TolerantExpr
