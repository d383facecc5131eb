import TolerantExpr.Proofs.Parsing.Written

/-!
# The limit on nested parentheses

Parentheses are counted character by character before a text is parsed. In a text that the grammar
accepts the count at a place is the number of pairs of parentheses around it, since no token but a
parenthesis is written with one, and an expression closes every parenthesis that it opens.
-/

namespace TolerantExpr

/-! ### Counting -/

namespace Token

/-- The count behind a token. -/
def depthAfter (t : Token) (depth : Nat) : Nat :=
  match t with
  | leftParen => depth + 1
  | rightParen => depth - 1
  | _ => depth

/-- The count behind some tokens. -/
def depthBehind (depth : Nat) (us : List Token) : Nat :=
  us.foldl (fun depth t => t.depthAfter depth) depth

theorem depthBehind_append (depth : Nat) (us vs : List Token) :
    depthBehind depth (us ++ vs) = depthBehind (depthBehind depth us) vs :=
  List.foldl_append

theorem depthAfter_eq {t : Token} (hleft : t ≠ .leftParen) (hright : t ≠ .rightParen)
    (depth : Nat) : t.depthAfter depth = depth := by
  cases t with
  | leftParen => exact absurd rfl hleft
  | rightParen => exact absurd rfl hright
  | _ => rfl

/-- Only a left parenthesis makes the count grow. -/
theorem depthAfter_le {t : Token} (h : t ≠ .leftParen) (depth : Nat) :
    t.depthAfter depth ≤ depth := by
  by_cases hright : t = .rightParen
  · rw [hright]
    exact Nat.sub_le _ _
  · exact (depthAfter_eq h hright depth).le

end Token

/-! ### Pairs -/

/-- How many pairs of token indices have their first token before the place in front of the token
`x`, and their second one behind it. -/
def around (ps : List (Nat × Nat)) (x : Nat) : Nat := ps.countP fun p => p.1 < x ∧ x ≤ p.2

theorem around_append (ps qs : List (Nat × Nat)) (x : Nat) :
    around (ps ++ qs) x = around ps x + around qs x :=
  List.countP_append

/-- The pairs among tokens, of which the first one has the index `i`, tell how the count changes from
one end to any place. -/
structure Pairing (i : Nat) (us : List Token) (ps : List (Nat × Nat)) : Prop where
  within : ∀ p ∈ ps, i ≤ p.1 ∧ p.1 < p.2 ∧ p.2 < i + us.length
  count : ∀ depth k, k ≤ us.length →
    Token.depthBehind depth (us.take k) = depth + around ps (i + k)

namespace Pairing

variable {i : Nat} {us vs : List Token} {ps qs : List (Nat × Nat)}

theorem around_eq_zero (h : Pairing i us ps) {x : Nat} (hx : x ≤ i ∨ i + us.length ≤ x) :
    around ps x = 0 := by
  rw [around, List.countP_eq_zero]
  intro p hp
  have := h.within p hp
  rw [decide_eq_true_eq]
  omega

/-- Every parenthesis is closed. -/
theorem depthBehind_eq (h : Pairing i us ps) (depth : Nat) : Token.depthBehind depth us = depth := by
  have hcount := h.count depth us.length le_rfl
  rwa [List.take_length, h.around_eq_zero (.inr le_rfl), Nat.add_zero] at hcount

theorem nil (i : Nat) : Pairing i [] [] where
  within := by simp
  count depth k hk := by simp [Token.depthBehind, around]

theorem single (i : Nat) {t : Token} (hleft : t ≠ .leftParen) (hright : t ≠ .rightParen) :
    Pairing i [t] [] where
  within := by simp
  count depth k hk := by
    cases k with
    | zero => rfl
    | succ k => simp [Token.depthBehind, around, Token.depthAfter_eq hleft hright]

theorem append (hus : Pairing i us ps) (hvs : Pairing (i + us.length) vs qs) :
    Pairing i (us ++ vs) (ps ++ qs) where
  within p hp := by
    rw [List.length_append]
    rcases List.mem_append.mp hp with hp | hp
    · have := hus.within p hp
      omega
    · have := hvs.within p hp
      omega
  count depth k hk := by
    rw [List.length_append] at hk
    rw [around_append]
    rcases Nat.le_total k us.length with hle | hge
    · rw [List.take_append_of_le_length hle, hus.count depth k hle,
        hvs.around_eq_zero (.inl (by omega)), Nat.add_zero]
    · obtain ⟨j, rfl⟩ := Nat.exists_eq_add_of_le hge
      rw [List.take_length_add_append, Token.depthBehind_append, hus.depthBehind_eq,
        hvs.count depth j (by omega), hus.around_eq_zero (.inr (by omega)), Nat.zero_add,
        Nat.add_assoc]

theorem cons (i : Nat) {t : Token} (hleft : t ≠ .leftParen) (hright : t ≠ .rightParen)
    (h : Pairing (i + 1) us ps) : Pairing i (t :: us) ps :=
  (single i hleft hright).append h

/-- A pair of parentheses around tokens adds one to the count between them. -/
theorem enclose (h : Pairing (i + 1) us ps) :
    Pairing i (.leftParen :: (us ++ [.rightParen])) ((i, i + 1 + us.length) :: ps) where
  within p hp := by
    rw [List.length_cons, List.length_append, List.length_singleton]
    rcases List.mem_cons.mp hp with rfl | hp
    · dsimp only
      omega
    · have := h.within p hp
      omega
  count depth k hk := by
    rw [List.length_cons, List.length_append, List.length_singleton] at hk
    cases k with
    | zero =>
      rw [around, List.countP_cons_of_neg (by simp), Nat.add_zero]
      exact (congrArg (depth + ·) (h.around_eq_zero (.inl (by omega)))).symm
    | succ k =>
      rw [List.take_succ_cons]
      change Token.depthBehind (depth + 1) _ = _
      rcases Nat.lt_or_ge us.length k with hlt | hge
      · have hall : (us ++ [Token.rightParen]).take k = us ++ [.rightParen] :=
          List.take_of_length_le (by simp; omega)
        rw [hall, Token.depthBehind_append, h.depthBehind_eq, around,
          List.countP_cons_of_neg (by simp; omega)]
        exact (congrArg (depth + ·) (h.around_eq_zero (.inr (by omega)))).symm
      · rw [List.take_append_of_le_length hge, h.count (depth + 1) k hge, around, around,
          List.countP_cons_of_pos (by simp; omega)]
        rw [show i + (k + 1) = i + 1 + k by omega]
        omega

end Pairing

namespace Written

mutual

/-- The pairs of parentheses of an expression whose first token has the index `i`: where the left
one is among the tokens, and where the right one is. -/
def pairs (i : Nat) : Written → List (Nat × Nat)
  | literal _ _ => []
  | name _ => []
  | call _ as =>
    (i + 1, i + 2 + (List.intercalate [.comma] (tokensOfEach as)).length) :: pairsOfEach (i + 2) as
  | parentheses w => (i, i + 1 + w.tokens.length) :: pairs (i + 1) w
  | negate w => pairs (i + 1) w
  | binary _ l r => pairs i l ++ pairs (i + l.tokens.length + 1) r

def pairsOfEach (i : Nat) : List Written → List (Nat × Nat)
  | [] => []
  | a :: as => pairs i a ++ pairsOfEach (i + a.tokens.length + 1) as

end

theorem pairing_arguments {as : List Written}
    (h : ∀ a ∈ as, ∀ i, Pairing i a.tokens (a.pairs i)) (i : Nat) :
    Pairing i (List.intercalate [.comma] (tokensOfEach as)) (pairsOfEach i as) := by
  induction as generalizing i with
  | nil => exact .nil i
  | cons a as ih =>
    rw [List.forall_mem_cons] at h
    cases as with
    | nil =>
      have ha := h.1 i
      simpa [tokensOfEach, pairsOfEach, List.intercalate] using ha
    | cons b as =>
      have hrest := ih h.2 (i + a.tokens.length + 1)
      have hcomma := hrest.cons (i + a.tokens.length) (t := .comma) (by simp) (by simp)
      rw [tokensOfEach, tokensOfEach, List.intercalate_cons_cons, List.append_assoc, pairsOfEach]
      exact (h.1 i).append hcomma

/-- The pairs of an expression tell how its tokens are counted. -/
theorem pairing {p : Nat} {w : Written} (h : w.Obeys p) (i : Nat) :
    Pairing i w.tokens (w.pairs i) := by
  induction h generalizing i with
  | @literal _ t _ h => exact .single i (by rintro rfl; cases h) (by rintro rfl; cases h)
  | name n => exact .single i (by simp) (by simp)
  | call f has ih =>
    exact (pairing_arguments ih (i + 2)).enclose.cons i (by simp) (by simp)
  | parentheses _ ih => exact (ih (i + 1)).enclose
  | negate hp _ ih => exact (ih (i + 1)).cons i (by simp [Token.minus]) (by simp [Token.minus])
  | binary hp _ _ ihl ihr =>
    refine (ihl i).append ((ihr _).cons _ (by simp) (by simp))

end Written

/-! ### Characters and tokens -/

namespace Token

variable {cs : List Char} {t : Token}

/-- No other token is written with a parenthesis. -/
theorem Spells.not_parenthesis (h : Spells cs t) (hleft : t ≠ .leftParen) (hright : t ≠ .rightParen) :
    '(' ∉ cs ∧ ')' ∉ cs := by
  have hatom (ht : t.literal?.isSome = true ∨ ∃ n, t = .name n) : '(' ∉ cs ∧ ')' ∉ cs := by
    constructor <;> exact fun hc => absurd (isAtomChar_of_atom ht h _ hc) (by decide)
  cases h with
  | decimal | hexadecimal | float | yes | no => exact hatom (.inl rfl)
  | name => exact hatom (.inr ⟨_, rfl⟩)
  | @operator op _ h =>
    subst h
    rcases op with op | op | op | op <;> cases op <;> decide
  | doubleEqual | comma => decide
  | leftParen => exact absurd rfl hleft
  | rightParen => exact absurd rfl hright

end Token

section Layouts

variable {limit depth offset : Nat} {cs xs ys : List Char} {ls : List Lexeme}

theorem tooDeepAt?_append (h : '(' ∉ xs ∧ ')' ∉ xs) :
    tooDeepAt? limit depth offset (xs ++ ys) =
      tooDeepAt? limit depth (offset + byteLength xs) ys := by
  induction xs generalizing offset with
  | nil => rfl
  | cons c xs ih =>
    rw [List.mem_cons, List.mem_cons, not_or, not_or] at h
    rw [List.cons_append, tooDeepAt?, if_neg (Ne.symm h.1.1), if_neg (Ne.symm h.2.1),
      ih ⟨h.1.2, h.2.2⟩, byteLength_cons, Nat.add_assoc]

/-- Where the count of the parentheses among tokens goes over a limit for the first time. -/
def firstTooDeep? (limit : Nat) : Nat → List Lexeme → Option Nat
  | _, [] => none
  | depth, l :: ls =>
    if limit < l.token.depthAfter depth then some l.start
    else firstTooDeep? limit (l.token.depthAfter depth) ls

/-- Counting the characters of a text comes down to counting its tokens. -/
theorem Layout.tooDeepAt?_eq (h : Layout offset ls cs) (hdepth : depth ≤ limit) :
    tooDeepAt? limit depth offset cs = firstTooDeep? limit depth ls := by
  have hblank {blanks : List Char} (hb : ∀ c ∈ blanks, Text.isTokenBlank c = true) :
      '(' ∉ blanks ∧ ')' ∉ blanks := by
    constructor <;> exact fun hc => absurd (hb _ hc) (by decide)
  induction h generalizing depth with
  | @nil offset blanks hb =>
    rw [← List.append_nil blanks, tooDeepAt?_append (hblank hb)]
    rfl
  | @cons offset blanks text rest t ls hb ht hls ih =>
    rw [tooDeepAt?_append (hblank hb), firstTooDeep?]
    by_cases hleft : t = .leftParen
    · subst hleft
      cases ht
      rw [List.singleton_append, tooDeepAt?, if_pos rfl]
      change (if limit < depth + 1 then _ else _) = if limit < depth + 1 then _ else _
      split
      · rfl
      · exact ih (by omega)
    · by_cases hright : t = .rightParen
      · subst hright
        cases ht
        rw [List.singleton_append, tooDeepAt?, if_neg (by decide), if_pos rfl]
        change _ = if limit < depth - 1 then _ else _
        rw [if_neg (by omega)]
        exact ih (by omega)
      · rw [tooDeepAt?_append (ht.not_parenthesis hleft hright), Token.depthAfter_eq hleft hright,
          if_neg (by omega)]
        exact ih hdepth

/-- The count behind the first tokens of a list. -/
def Lexeme.depthAt (ls : List Lexeme) (depth k : Nat) : Nat :=
  Token.depthBehind depth ((ls.map Lexeme.token).take k)

theorem Lexeme.depthAt_succ (l : Lexeme) (ls : List Lexeme) (depth k : Nat) :
    Lexeme.depthAt (l :: ls) depth (k + 1) = Lexeme.depthAt ls (l.token.depthAfter depth) k := rfl

theorem firstTooDeep?_eq_none_iff (hdepth : depth ≤ limit) :
    firstTooDeep? limit depth ls = none ↔
      ∀ k ≤ ls.length, Lexeme.depthAt ls depth k ≤ limit := by
  induction ls generalizing depth with
  | nil => simpa [firstTooDeep?, Lexeme.depthAt, Token.depthBehind] using hdepth
  | cons l ls ih =>
    rw [firstTooDeep?]
    split
    · rename_i hlt
      refine iff_of_false (by simp) fun hall => ?_
      have hone := hall 1 (by simp)
      rw [Lexeme.depthAt_succ] at hone
      exact absurd hone (Nat.not_le_of_lt hlt)
    · rename_i hle
      rw [ih (Nat.le_of_not_lt hle)]
      constructor
      · intro hall k hk
        cases k with
        | zero => exact hdepth
        | succ k => exact hall k (Nat.le_of_succ_le_succ hk)
      · intro hall k hk
        exact hall (k + 1) (Nat.succ_le_succ hk)

/-- The count first goes over the limit behind a left parenthesis. -/
theorem firstTooDeep?_eq_some {p : Nat} (hdepth : depth ≤ limit)
    (h : firstTooDeep? limit depth ls = some p) :
    ∃ k l, ls[k]? = some l ∧ l.start = p ∧ l.token = .leftParen ∧
      limit < Lexeme.depthAt ls depth (k + 1) ∧
      ∀ j ≤ k, Lexeme.depthAt ls depth j ≤ limit := by
  induction ls generalizing depth with
  | nil => cases h
  | cons l ls ih =>
    rw [firstTooDeep?] at h
    split at h
    · rename_i hlt
      have hleft : l.token = .leftParen := by
        by_contra hne
        have := Token.depthAfter_le hne depth
        omega
      refine ⟨0, l, rfl, Option.some.inj h, hleft, hlt, fun j hj => ?_⟩
      rw [Nat.le_zero.mp hj]
      exact hdepth
    · rename_i hle
      obtain ⟨k, m, hk, hstart, hleft, hlt, hall⟩ := ih (Nat.le_of_not_lt hle) h
      refine ⟨k + 1, m, hk, hstart, hleft, hlt, fun j hj => ?_⟩
      cases j with
      | zero => exact hdepth
      | succ j => exact hall j (Nat.le_of_succ_le_succ hj)

/-! ### Places in the text -/

theorem Layout.le_start (h : Layout offset ls cs) : ∀ l ∈ ls, offset ≤ l.start := by
  induction h with
  | nil => simp
  | cons hb ht hls ih =>
    refine List.forall_mem_cons.mpr ⟨Nat.le_add_right _ _, fun l hl => ?_⟩
    have := ih l hl
    omega

theorem Layout.pairwise_start (h : Layout offset ls cs) :
    ls.Pairwise fun l m => l.start < m.start := by
  induction h with
  | nil => exact .nil
  | @cons offset blanks text rest t ls hb ht hls ih =>
    refine .cons (fun m hm => ?_) ih
    have hstart := hls.le_start m hm
    have htext : 0 < byteLength text := by
      obtain ⟨c, text, rfl⟩ := List.exists_cons_of_ne_nil ht.ne_nil
      have := c.utf8Size_pos
      rw [byteLength_cons]
      omega
    dsimp only
    omega

end Layouts

/-- The tokens that begin before an offset are the first ones. -/
theorem exists_count_before {ls : List Lexeme} (h : ls.Pairwise fun l m => l.start < m.start)
    (x : Nat) : ∃ k ≤ ls.length, ∀ i l, ls[i]? = some l → (l.start < x ↔ i < k) := by
  induction h with
  | nil => exact ⟨0, le_rfl, by simp⟩
  | @cons l ls hl _ ih =>
    obtain ⟨k, hk, hall⟩ := ih
    by_cases hlx : l.start < x
    · refine ⟨k + 1, Nat.succ_le_succ hk, fun i m hi => ?_⟩
      cases i with
      | zero =>
        cases hi
        simpa using hlx
      | succ i => rw [hall i m hi, Nat.succ_lt_succ_iff]
    · refine ⟨0, Nat.zero_le _, fun i m hi => iff_of_false (fun hm => ?_) (Nat.not_lt_zero i)⟩
      rcases List.mem_cons.mp (List.mem_of_getElem? hi) with rfl | hmem
      · exact hlx hm
      · exact hlx ((hl m hmem).trans hm)

/-- The offset of a token. -/
def startOf (ls : List Lexeme) (i : Nat) : Nat := ls[i]?.elim 0 Lexeme.start

namespace Written

/-- How many pairs of parentheses a place in the text lies in: the left one begins before it, and the
right one does not. -/
def enclosing (w : Written) (ls : List Lexeme) (x : Nat) : Nat :=
  (w.pairs 0).countP fun p => startOf ls p.1 < x ∧ x ≤ startOf ls p.2

variable {w : Written} {source : String} {ls : List Lexeme} {limit : Nat}

theorem Stands.depthAt_eq (h : w.Stands source ls) {k : Nat} (hk : k ≤ ls.length) :
    Lexeme.depthAt ls 0 k = around (w.pairs 0) k := by
  have hlength : k ≤ w.tokens.length := by rwa [← h.tokens_eq, List.length_map]
  rw [Lexeme.depthAt, h.tokens_eq, (pairing h.obeys 0).count 0 k hlength, Nat.zero_add, Nat.zero_add]

/-- Behind the tokens that begin before a place, the count is the number of pairs around the
place. -/
theorem Stands.enclosing_eq (h : w.Stands source ls) {x k : Nat} (hk : k ≤ ls.length)
    (hx : ∀ i l, ls[i]? = some l → (l.start < x ↔ i < k)) :
    w.enclosing ls x = Lexeme.depthAt ls 0 k := by
  rw [h.depthAt_eq hk]
  refine List.countP_congr fun p hp => ?_
  have hwithin := (pairing h.obeys 0).within p hp
  rw [← h.tokens_eq, List.length_map] at hwithin
  have hstart : ∀ i < ls.length, (startOf ls i < x ↔ i < k) := by
    intro i hi
    rw [startOf, List.getElem?_eq_getElem hi]
    exact hx i _ (List.getElem?_eq_getElem hi)
  have hleft := hstart p.1 (by omega)
  have hright := hstart p.2 (by omega)
  simp only [decide_eq_true_eq]
  omega

/-- Just behind a token the count is the number of pairs around. -/
theorem Stands.enclosing_start (h : w.Stands source ls) {k : Nat} {l : Lexeme}
    (hk : ls[k]? = some l) : w.enclosing ls (l.start + 1) = Lexeme.depthAt ls 0 (k + 1) := by
  have hlt : k < ls.length := (List.getElem?_eq_some_iff.mp hk).1
  refine h.enclosing_eq hlt fun i m hi => ?_
  have hpairwise := List.pairwise_iff_getElem.mp h.layout.pairwise_start
  obtain ⟨hi', rfl⟩ := List.getElem?_eq_some_iff.mp hi
  obtain ⟨hk', rfl⟩ := List.getElem?_eq_some_iff.mp hk
  rcases Nat.lt_trichotomy i k with hik | rfl | hki
  · have := hpairwise i k hi' hk' hik
    omega
  · omega
  · have := hpairwise k i hk' hi' hki
    omega

/-- Where the left parentheses stand behind which more pairs are open than the limit allows. -/
def tooDeepStarts (w : Written) (ls : List Lexeme) (limit : Nat) : Set Nat :=
  { p | ∃ l ∈ ls, l.token = .leftParen ∧ l.start = p ∧ limit < w.enclosing ls (p + 1) }

/-- The check finds no fault if no place lies in more pairs than the limit allows. -/
theorem Stands.tooDeepAt?_eq_none_iff (h : w.Stands source ls) :
    tooDeepAt? limit 0 0 source.toList = none ↔ ∀ x, w.enclosing ls x ≤ limit := by
  rw [h.layout.tooDeepAt?_eq (Nat.zero_le _), firstTooDeep?_eq_none_iff (Nat.zero_le _)]
  constructor
  · intro hall x
    obtain ⟨k, hk, hx⟩ := exists_count_before h.layout.pairwise_start x
    rw [h.enclosing_eq hk hx]
    exact hall k hk
  · intro hall k hk
    cases k with
    | zero => exact Nat.zero_le _
    | succ k =>
      rw [← h.enclosing_start (List.getElem?_eq_getElem hk)]
      exact hall _

/-- The check stops at the first left parenthesis that goes too deep. -/
theorem Stands.isLeast_of_tooDeepAt? (h : w.Stands source ls) {p : Nat}
    (hp : tooDeepAt? limit 0 0 source.toList = some p) : IsLeast (w.tooDeepStarts ls limit) p := by
  rw [h.layout.tooDeepAt?_eq (Nat.zero_le _)] at hp
  obtain ⟨k, l, hk, rfl, hleft, hlt, hall⟩ := firstTooDeep?_eq_some (Nat.zero_le _) hp
  refine ⟨⟨l, List.mem_of_getElem? hk, hleft, rfl, ?_⟩, ?_⟩
  · rw [h.enclosing_start hk]
    exact hlt
  · rintro q ⟨m, hm, -, rfl, hdeep⟩
    obtain ⟨i, hi⟩ := List.mem_iff_getElem?.mp hm
    rw [h.enclosing_start hi] at hdeep
    -- a token in front of the first one that goes too deep does not
    have hki : k ≤ i := by
      by_contra hlt
      exact absurd (hall (i + 1) (by omega)) (Nat.not_le_of_lt hdeep)
    have hpairwise := List.pairwise_iff_getElem.mp h.layout.pairwise_start
    obtain ⟨hk', rfl⟩ := List.getElem?_eq_some_iff.mp hk
    obtain ⟨hi', rfl⟩ := List.getElem?_eq_some_iff.mp hi
    rcases Nat.lt_or_eq_of_le hki with hlt | rfl
    · exact (hpairwise k i hk' hi' hlt).le
    · exact le_rfl

end Written

/-! ### Parsing -/

/-- The text was not parsed since its parentheses are nested too deeply. -/
def TooDeep (r : Except ParseFailure Expr) : Prop :=
  ∃ f depth limit, r = .error f ∧ f.cause = .tooDeep depth limit

theorem parse_of_tooDeepAt? {source : String} {limit p : Nat}
    (h : tooDeepAt? limit 0 0 source.toList = some p) :
    Expr.parse source limit =
      .error { cause := .tooDeep (limit + 1) limit, source, span := ⟨p, p + 1⟩ } := by
  unfold Expr.parse
  rw [h]

/-- Once the check is passed the limit plays no part. -/
theorem parse_eq_of_tooDeepAt? {source : String} {limit limit' : Nat}
    (h : tooDeepAt? limit 0 0 source.toList = none)
    (h' : tooDeepAt? limit' 0 0 source.toList = none) :
    Expr.parse source limit' = Expr.parse source limit := by
  unfold Expr.parse
  rw [h, h']

theorem tooDeep_iff {source : String} {limit : Nat} :
    TooDeep (Expr.parse source limit) ↔ tooDeepAt? limit 0 0 source.toList ≠ none := by
  constructor
  · rintro ⟨f, depth, limit', hf, hcause⟩ hnone
    unfold Expr.parse at hf
    rw [hnone] at hf
    dsimp only at hf
    split at hf
    · cases hf
      cases hcause
    · split at hf
      · cases hf
        cases hcause
      · cases hf
  · intro h
    obtain ⟨p, hp⟩ := Option.ne_none_iff_exists'.mp h
    exact ⟨_, _, _, parse_of_tooDeepAt? hp, rfl⟩

/-- A text that the grammar accepts is an expression as it is written, and is refused for its nesting
if some place in it lies in more pairs of parentheses than the limit allows; the failure stands at
the first left parenthesis behind which that is so. Any text that is not refused for its nesting is
parsed as it would be under a higher limit. -/
theorem parse_tooDeep (source : String) :
    (∀ t ls, Rendering source t ls → ∃ w : Written, w.Stands source ls ∧ w.tree = t) ∧
    (∀ (w : Written) (ls : List Lexeme), w.Stands source ls → ∀ limit,
      (TooDeep (Expr.parse source limit) ↔ ∃ x, limit < w.enclosing ls x) ∧
      (TooDeep (Expr.parse source limit) → ∃ p, IsLeast (w.tooDeepStarts ls limit) p ∧
        Expr.parse source limit =
          .error { cause := .tooDeep (limit + 1) limit, source, span := ⟨p, p + 1⟩ })) ∧
    ∀ limit limit', limit ≤ limit' → ¬TooDeep (Expr.parse source limit) →
      Expr.parse source limit' = Expr.parse source limit := by
  refine ⟨fun t ls h => Written.rendering_iff.mp h, fun w ls h limit => ⟨?_, fun hdeep => ?_⟩,
    fun limit limit' hle hnot => ?_⟩
  · rw [tooDeep_iff, Ne, h.tooDeepAt?_eq_none_iff, not_forall]
    exact exists_congr fun x => Nat.not_le
  · obtain ⟨p, hp⟩ := Option.ne_none_iff_exists'.mp (tooDeep_iff.mp hdeep)
    exact ⟨p, h.isLeast_of_tooDeepAt? hp, parse_of_tooDeepAt? hp⟩
  · rw [tooDeep_iff, not_not] at hnot
    refine parse_eq_of_tooDeepAt? hnot ?_
    rw [tooDeepAt?_eq_none_iff (Nat.zero_le _)] at hnot ⊢
    exact hnot.trans hle

/-- Two pairs are open behind the left parenthesis of the group, which begins at offset 3. -/
theorem parse_tooDeep_group :
    ∃ (w : Written) (ls : List Lexeme), Rendering "f( (1), 2)" w.tree ls ∧
      (∃ u : Written, u.Stands "f( (1), 2)" ls ∧ u.tree = w.tree) ∧
      w.Stands "f( (1), 2)" ls ∧
      (TooDeep (Expr.parse "f( (1), 2)" 1) ↔ ∃ x, 1 < w.enclosing ls x) ∧
      TooDeep (Expr.parse "f( (1), 2)" 1) ∧
      (∃ p, IsLeast (w.tooDeepStarts ls 1) p ∧ Expr.parse "f( (1), 2)" 1 =
        .error { cause := .tooDeep 2 1, source := "f( (1), 2)", span := ⟨p, p + 1⟩ }) ∧
      ¬TooDeep (Expr.parse "f( (1), 2)" 2) ∧
      Expr.parse "f( (1), 2)" 3 = Expr.parse "f( (1), 2)" 2 := by
  obtain ⟨hwritten, hchecked, hhigher⟩ := parse_tooDeep "f( (1), 2)"
  have hstands : (Written.call "f" [.parentheses (.literal (.int 1) (.int 1)),
      .literal (.int 2) (.int 2)]).Stands "f( (1), 2)" (Token.scan 0 "f( (1), 2)".toList) := by
    refine .of_scan (.call "f" ?_) (by cbv)
    simp only [List.forall_mem_cons]
    exact ⟨.parentheses (.literal rfl), .literal rfl, by simp⟩
  have hdeep : TooDeep (Expr.parse "f( (1), 2)" 1) := tooDeep_iff.mpr (by decide)
  have hnot : ¬TooDeep (Expr.parse "f( (1), 2)" 2) := by
    rw [tooDeep_iff]
    decide
  obtain ⟨hiff, hleast⟩ := hchecked _ _ hstands 1
  exact ⟨_, _, hstands.rendering, hwritten _ _ hstands.rendering, hstands, hiff, hdeep,
    hleast hdeep, hnot, hhigher 2 3 (by decide) hnot⟩

end TolerantExpr
