import TolerantExpr.Proofs.Parsing.Grammar
import TolerantExpr.Proofs.Parsing.Spellings
import Mathlib.Data.List.Chain

/-!
# Tokens with blanks between them

A text is laid out as tokens if each of them is spelled in it, one behind the other, with blanks in
between or not. No two neighbours in an expression need a blank: an operator is never followed by a
character that another operator goes on with, and a word or a number never by one that it could go
on with itself. So a text that is laid out as an expression is read as the tokens that it was made
from.
-/

namespace TolerantExpr

/-- A text from a byte offset on, with the tokens that are spelled in it. -/
inductive Layout : Nat → List Lexeme → List Char → Prop where
  | nil {offset : Nat} {blanks : List Char} (h : ∀ c ∈ blanks, Text.isTokenBlank c = true) :
    Layout offset [] blanks
  | cons {offset : Nat} {blanks text rest : List Char} {t : Token} {ls : List Lexeme}
    (h : ∀ c ∈ blanks, Text.isTokenBlank c = true) (ht : Token.Spells text t)
    (hls : Layout (offset + byteLength blanks + byteLength text) ls rest) :
    Layout offset (⟨t, text, offset + byteLength blanks⟩ :: ls) (blanks ++ (text ++ rest))

namespace Token

/-- A token that an expression may end with. -/
def Closes (t : Token) : Prop :=
  t = .rightParen ∨ t.literal?.isSome = true ∨ ∃ n, t = .name n

/-- A token that may come behind an operand. -/
def Follows (t : Token) : Prop :=
  t = .rightParen ∨ t = .comma ∨ t = .leftParen ∨ ∃ op, t = .operator op

/-- What may stand next to what in an expression. -/
inductive Precedes : Token → Token → Prop where
  | operand {t u : Token} (ht : t.Closes) (hu : u.Follows) : Precedes t u
  | operator (op : BinaryOperator) {u : Token} (hu : u.Opens) : Precedes (.operator op) u
  | leftParen (u : Token) : Precedes .leftParen u
  | comma (u : Token) : Precedes .comma u

end Token

/-! ### Neighbours in an expression -/

namespace Renders

variable {p : Nat} {t : Tree} {us : List Token}

theorem closes (h : Renders p t us) : ∀ u ∈ us.getLast?, u.Closes := by
  induction h with
  | literal h =>
    rintro u ⟨⟩
    exact .inr (.inl (Option.isSome_iff_exists.mpr ⟨_, h⟩))
  | name n =>
    rintro u ⟨⟩
    exact .inr (.inr ⟨n, rfl⟩)
  | call f as has =>
    rw [List.getLast?_cons_cons, ← List.cons_append, List.getLast?_concat]
    rintro u ⟨⟩
    exact .inl rfl
  | parentheses h =>
    rw [← List.cons_append, List.getLast?_concat]
    rintro u ⟨⟩
    exact .inl rfl
  | negate hp h ih =>
    obtain ⟨u, us, rfl, -⟩ := h.opens
    rw [List.getLast?_cons_cons]
    exact ih
  | binary hp hl hr _ ihr =>
    obtain ⟨v, vs, rfl, -⟩ := hr.opens
    rw [List.getLast?_append_of_ne_nil _ (by simp), List.getLast?_cons_cons]
    exact ihr

/-- A right parenthesis may follow anything in parentheses. -/
theorem isChain_append_rightParen (h : Renders p t us) (hus : us.IsChain Token.Precedes) :
    List.IsChain Token.Precedes (us ++ [.rightParen]) := by
  refine hus.append (.singleton _) ?_
  rintro u hu v ⟨⟩
  exact .operand (h.closes u hu) (.inl rfl)

theorem isChain_cons (h : Renders p t us) (hus : us.IsChain Token.Precedes) {u : Token}
    (hu : ∀ v : Token, v.Opens → u.Precedes v) : List.IsChain Token.Precedes (u :: us) := by
  obtain ⟨v, vs, rfl, hv⟩ := h.opens
  exact .cons_cons (hu v hv) hus

/-- The arguments behind the first one, each with its comma, up to the right parenthesis. -/
theorem isChain_moreArguments {as : List (Tree × List Token)}
    (has : ∀ a ∈ as, Renders 0 a.1 a.2) (hchain : ∀ a ∈ as, a.2.IsChain Token.Precedes) :
    List.IsChain Token.Precedes (as.flatMap (fun a => .comma :: a.2) ++ [.rightParen]) ∧
      ∀ u ∈ (List.flatMap (fun a => .comma :: a.2) as ++ [Token.rightParen]).head?, u.Follows := by
  induction as with
  | nil =>
    refine ⟨.singleton _, ?_⟩
    rintro u ⟨⟩
    exact .inl rfl
  | cons a as ih =>
    obtain ⟨hrest, hhead⟩ := ih (fun b hb => has b (List.mem_cons_of_mem _ hb))
      fun b hb => hchain b (List.mem_cons_of_mem _ hb)
    have ha := has a List.mem_cons_self
    rw [List.flatMap_cons, List.append_assoc]
    refine ⟨?_, ?_⟩
    · have hcomma := ha.isChain_cons (hchain a List.mem_cons_self) fun v _ => .comma v
      refine hcomma.append hrest fun u hu v hv => .operand (ha.closes u ?_) (hhead v hv)
      obtain ⟨w, ws, hw, -⟩ := ha.opens
      rw [hw, List.getLast?_cons_cons] at hu
      rw [hw]
      exact hu
    · rintro u ⟨⟩
      exact .inr (.inl rfl)

theorem isChain_arguments {as : List (Tree × List Token)} (has : ∀ a ∈ as, Renders 0 a.1 a.2)
    (hchain : ∀ a ∈ as, a.2.IsChain Token.Precedes) :
    List.IsChain Token.Precedes
      (List.intercalate [.comma] (as.map Prod.snd) ++ [.rightParen]) := by
  cases as with
  | nil => exact .singleton _
  | cons a as =>
    obtain ⟨hrest, hhead⟩ := isChain_moreArguments
      (fun b hb => has b (List.mem_cons_of_mem _ hb))
      fun b hb => hchain b (List.mem_cons_of_mem _ hb)
    have ha := has a List.mem_cons_self
    rw [List.map_cons, intercalate_cons, List.flatMap_map, List.append_assoc]
    exact (hchain a List.mem_cons_self).append hrest
      fun u hu v hv => .operand (ha.closes u hu) (hhead v hv)

/-- Tokens that write an expression may stand next to each other. -/
theorem isChain (h : Renders p t us) : us.IsChain Token.Precedes := by
  induction h with
  | literal | name => exact .singleton _
  | call f as has ih =>
    refine .cons_cons (.operand (.inr (.inr ⟨f, rfl⟩)) (.inr (.inr (.inl rfl)))) ?_
    exact (isChain_arguments has ih).cons fun v _ => .leftParen v
  | parentheses h ih => exact (h.isChain_append_rightParen ih).cons fun v _ => .leftParen v
  | negate hp h ih => exact h.isChain_cons ih fun v hv => .operator _ hv
  | @binary _ op _ _ _ _ hp hl hr ihl ihr =>
    refine ihl.append (hr.isChain_cons ihr fun v hv => .operator op hv) ?_
    rintro u hu v ⟨⟩
    exact .operand (hl.closes u hu) (.inr (.inr (.inr ⟨op, rfl⟩)))

end Renders

/-! ### What begins with what -/

namespace Token

variable {c : Char} {cs rest : List Char} {t u : Token}

theorem isNameChar_eq_false (hstart : isNameStart c = false) (hdigit : c.isDigit = false) :
    isNameChar c = false := by
  unfold isNameStart at hstart
  unfold isNameChar Char.isAlphanum
  rw [Bool.or_eq_false_iff] at hstart
  rw [hstart.1, hstart.2, hdigit]
  rfl

/-- What follows an operand does not make its last word or number longer. -/
theorem Follows.head (hu : u.Follows) (h : Spells (c :: cs) u) :
    isNameChar c = false ∧ c ≠ '.' := by
  rcases hu with rfl | rfl | rfl | ⟨op, rfl⟩
  · cases h
    decide
  · cases h
    decide
  · cases h
    decide
  · cases h with
    | operator hcs =>
      obtain ⟨d, ds, hds, -, hstart, hdigit, hpoint⟩ := symbol_head op
      obtain ⟨rfl, -⟩ := List.cons.inj (hcs.trans hds)
      exact ⟨isNameChar_eq_false hstart hdigit, hpoint⟩
    | doubleEqual => decide

/-- A literal or a name begins with a letter, an underscore, a digit or a point. -/
theorem head_of_atom (hu : u.literal?.isSome = true ∨ ∃ n, u = .name n) (h : Spells (c :: cs) u) :
    isNameStart c = true ∨ c.isDigit = true ∨ c = '.' := by
  cases h with
  | decimal h =>
    obtain ⟨d, ds, hds, hd, -⟩ := h
    obtain ⟨rfl, -⟩ := List.cons.inj hds
    exact .inr (.inl hd)
  | hexadecimal => exact .inr (.inl (by decide))
  | float h =>
    obtain ⟨d, ds, hds, hd⟩ := h.head
    obtain ⟨rfl, -⟩ := List.cons.inj hds
    exact .inr hd
  | yes | no => exact .inl (by decide)
  | name hc => exact .inl hc
  | operator | doubleEqual | leftParen | rightParen | comma =>
    rcases hu with hu | ⟨n, hn⟩
    · cases hu
    · cases hn

theorem isAtomChar_of_atom (hu : u.literal?.isSome = true ∨ ∃ n, u = .name n) (h : Spells cs u) :
    ∀ c ∈ cs, isAtomChar c = true := by
  cases h with
  | decimal h => exact h.isAtomChar
  | hexadecimal hx hd hds =>
    have hdigit {c : Char} (hc : isHexDigitOrGap c = true) : isAtomChar c = true :=
      isAtomChar_of_isNameChar (isNameChar_of_isHexDigitOrGap hc)
    simp only [List.forall_mem_cons]
    refine ⟨by decide, ?_, hdigit ?_, fun c hc => hdigit (hds c hc)⟩
    · rcases hx with rfl | rfl <;> decide
    · rw [isHexDigitOrGap, hd, Bool.true_or]
  | float h => exact h.isAtomChar
  | yes | no => exact List.all_eq_true.mp rfl
  | name hc hcs =>
    refine List.forall_mem_cons.mpr ⟨?_, fun c hc => isAtomChar_of_isNameChar (hcs c hc)⟩
    exact isAtomChar_of_isNameChar (isNameChar_of_isNameStart hc)
  | operator | doubleEqual | leftParen | rightParen | comma =>
    rcases hu with hu | ⟨n, hn⟩
    · cases hu
    · cases hn

/-- What an expression begins with does not make an operator in front of it longer. -/
theorem Opens.head (hu : u.Opens) (h : Spells (c :: cs) u) : c ≠ '<' ∧ c ≠ '>' ∧ c ≠ '=' := by
  rcases hu with rfl | rfl | hu
  · cases h with
    | operator hcs =>
      cases hcs
      decide
  · cases h
    decide
  · have hhead := head_of_atom hu h
    refine ⟨?_, ?_, ?_⟩ <;> rintro rfl <;> exact absurd hhead (by decide)

/-- What may stand behind a token, with blanks in between or not, does not make it longer. -/
theorem Precedes.apart (htu : t.Precedes u) (h : Spells (c :: cs) u) :
    t.Apart (c :: cs ++ rest) := by
  rintro _ ⟨⟩
  cases htu with
  | operand ht hu =>
    have hhead := hu.head h
    rcases ht with rfl | ht | ⟨n, rfl⟩
    · trivial
    · cases t with
      | int | float | boolean => exact hhead
      | _ => cases ht
    · exact hhead
  | operator op hu => exact hu.head h
  | leftParen | comma => trivial

theorem apart_of_blank (hc : Text.isTokenBlank c = true) : t.Apart (c :: rest) := by
  rintro _ ⟨⟩
  simp only [Text.isTokenBlank, Bool.or_eq_true, decide_eq_true_eq] at hc
  rcases hc with ((rfl | rfl) | rfl) | rfl <;> cases t <;> simp <;> decide

end Token

/-! ### Reading a layout -/

namespace Layout

variable {offset : Nat} {cs blanks : List Char} {ls : List Lexeme} {t : Token}

/-- Behind a token there is a blank, the next token, or the end. -/
theorem apart (h : Layout offset ls cs) (hls : ∀ l ∈ ls.head?, t.Precedes l.token) :
    t.Apart cs := by
  cases h with
  | nil hblanks =>
    cases cs with
    | nil => rintro c ⟨⟩
    | cons c cs => exact Token.apart_of_blank (hblanks c List.mem_cons_self)
  | @cons _ blanks text rest u ls hblanks hu hrest =>
    cases blanks with
    | nil =>
      obtain ⟨c, text, rfl⟩ := List.exists_cons_of_ne_nil hu.ne_nil
      exact (hls _ rfl).apart hu
    | cons c blanks => exact Token.apart_of_blank (hblanks c List.mem_cons_self)

theorem scan_blanks (h : ∀ c ∈ blanks, Text.isTokenBlank c = true) (offset : Nat)
    (cs : List Char) :
    Token.scan offset (blanks ++ cs) = Token.scan (offset + byteLength blanks) cs := by
  induction blanks generalizing offset with
  | nil => rfl
  | cons c blanks ih =>
    rw [List.cons_append, Token.scan, if_pos (h c List.mem_cons_self),
      ih (fun x hx => h x (List.mem_cons_of_mem _ hx)), byteLength_cons, Nat.add_assoc]

theorem scan_token {c : Char} {n : Nat} (hc : Text.isTokenBlank c = false)
    (h : Token.read c cs = (t, n)) (offset : Nat) :
    Token.scan offset (c :: cs) = ⟨t, c :: cs.take n, offset⟩ ::
      Token.scan (offset + byteLength (c :: cs.take n)) (cs.drop n) := by
  rw [Token.scan, hc, if_neg Bool.false_ne_true, h]

/-- A text that is laid out as tokens that may stand next to each other is read as these. -/
theorem scan_eq (h : Layout offset ls cs)
    (hchain : List.IsChain Token.Precedes (ls.map Lexeme.token)) : Token.scan offset cs = ls := by
  induction h with
  | @nil offset blanks hblanks =>
    have hscan := scan_blanks hblanks offset []
    rw [List.append_nil] at hscan
    rw [hscan, Token.scan]
  | @cons offset blanks text rest t ls hblanks ht hls ih =>
    rw [List.map_cons, List.isChain_cons] at hchain
    have hnext : ∀ l ∈ ls.head?, t.Precedes l.token := by
      intro l hl
      refine hchain.1 _ ?_
      rw [List.head?_map, hl]
      rfl
    obtain ⟨c, cs, rfl, hc, hread⟩ := Token.read_of_spells ht (hls.apart hnext)
    rw [scan_blanks hblanks, List.cons_append, scan_token hc hread, List.take_left, List.drop_left,
      ih hchain.2]

theorem blank {c : Char} (hc : Text.isTokenBlank c = true)
    (h : Layout (offset + c.utf8Size) ls cs) : Layout offset ls (c :: cs) := by
  cases h with
  | nil hblanks => exact .nil (List.forall_mem_cons.mpr ⟨hc, hblanks⟩)
  | @cons _ blanks text rest t ls hblanks ht hls =>
    have hoffset : offset + c.utf8Size + byteLength blanks = offset + byteLength (c :: blanks) := by
      rw [byteLength_cons, Nat.add_assoc]
    rw [hoffset] at hls ⊢
    exact .cons (List.forall_mem_cons.mpr ⟨hc, hblanks⟩) ht hls

theorem token {text rest : List Char} (h : Layout (offset + byteLength text) ls rest)
    (ht : Token.Spells text t) : Layout offset (⟨t, text, offset⟩ :: ls) (text ++ rest) := by
  have hnone : ∀ c ∈ ([] : List Char), Text.isTokenBlank c = true := by simp
  exact .cons hnone ht h

/-- A text without stray characters is laid out as the tokens that it is read as. -/
theorem of_scan (offset : Nat) (cs : List Char)
    (h : ∀ l ∈ Token.scan offset cs, ∀ c, l.token ≠ .stray c) :
    Layout offset (Token.scan offset cs) cs := by
  induction hlen : cs.length using Nat.strongRecOn generalizing offset cs with
  | ind k ih =>
    cases cs with
    | nil =>
      rw [Token.scan]
      exact .nil (by simp)
    | cons c cs =>
      rw [List.length_cons] at hlen
      by_cases hc : Text.isTokenBlank c = true
      · rw [Token.scan, if_pos hc] at h ⊢
        exact (ih _ (by omega) _ _ h rfl).blank hc
      · rw [Bool.not_eq_true] at hc
        generalize hread : Token.read c cs = r
        obtain ⟨t, n⟩ := r
        rw [scan_token hc hread] at h ⊢
        have hlt : (cs.drop n).length < k := by
          rw [List.length_drop]
          omega
        have hrest := ih _ hlt _ _ (fun l hl => h l (List.mem_cons_of_mem _ hl)) rfl
        have hspells := Token.spells_of_read hread (h _ List.mem_cons_self)
        have htext : c :: cs = (c :: cs.take n) ++ cs.drop n := by
          rw [List.cons_append, List.take_append_drop]
        rw [htext]
        exact hrest.token hspells

end Layout

end TolerantExpr
