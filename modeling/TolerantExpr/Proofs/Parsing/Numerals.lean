import TolerantExpr.Number.Basic
import TolerantExpr.Proofs.Parsing.Depths

/-!
# Integers as they are written

An integer is written as a decimal or hexadecimal magnitude, with underscores wherever one likes
behind its first digit, and with a minus sign in front if it is negative. The sign is no part of the
token: a text with a sign is a negation, and only the magnitude has to fit into 64 bits.
-/

namespace TolerantExpr

/-! ### Numerals -/

/-- The character is the digit `d`, in either case. -/
def WritesDigit (c : Char) (d : Nat) : Prop := c = d.digitChar ∨ c = d.digitChar.toUpper

/-- Digits of a base, with underscores behind the first one, and the number that they denote. -/
inductive DigitsOf (base : Nat) : List Char → Nat → Prop where
  | digit {c : Char} {d : Nat} (hd : d < base) (hc : WritesDigit c d) : DigitsOf base [c] d
  | concat {cs : List Char} {n : Nat} {c : Char} {d : Nat} (h : DigitsOf base cs n) (hd : d < base)
    (hc : WritesDigit c d) : DigitsOf base (cs ++ [c]) (n * base + d)
  | gap {cs : List Char} {n : Nat} (h : DigitsOf base cs n) : DigitsOf base (cs ++ ['_']) n

/-- A decimal number, or a hexadecimal one behind its mark. -/
inductive Magnitude : List Char → Nat → Prop where
  | decimal {cs : List Char} {n : Nat} (h : DigitsOf 10 cs n) : Magnitude cs n
  | hexadecimal {x : Char} {cs : List Char} {n : Nat} (hx : x = 'x' ∨ x = 'X')
    (h : DigitsOf 16 cs n) : Magnitude ('0' :: x :: cs) n

/-- A magnitude, or a minus sign in front of one. -/
inductive Numeral : List Char → Int → Prop where
  | plain {cs : List Char} {n : Nat} (h : Magnitude cs n) : Numeral cs n
  | minus {cs : List Char} {n : Nat} (h : Magnitude cs n) : Numeral ('-' :: cs) (-n)

/-! ### What is printed -/

theorem digitsOf_toDigits (n : Nat) : DigitsOf 10 (Nat.toDigits 10 n) n := by
  induction n using Nat.strongRecOn with
  | ind n ih =>
    rcases Nat.lt_or_ge n 10 with hlt | hge
    · rw [Nat.toDigits_of_lt_base hlt]
      exact .digit hlt (.inl rfl)
    · rw [Nat.toDigits_of_base_le (by decide) hge]
      have hlast : n / 10 * 10 + n % 10 = n := Nat.div_add_mod' n 10
      have hconcat := (ih (n / 10) (by omega)).concat (Nat.mod_lt n (by decide)) (.inl rfl)
      rwa [hlast] at hconcat

/-- The text of an integer is a numeral for it. -/
theorem Number.numeral_text (n : Int64) : Numeral (Number.int n).text.toList n.toInt := by
  rw [text, Int.toString_eq_repr]
  cases n.toInt with
  | ofNat k =>
    rw [Int.repr, Nat.toList_repr]
    exact .plain (.decimal (digitsOf_toDigits k))
  | negSucc k =>
    rw [Int.repr, String.toList_append, Nat.toList_repr]
    exact .minus (.decimal (digitsOf_toDigits (k + 1)))

/-! ### Magnitudes are tokens -/

section Digits

variable {base n d : Nat} {c : Char} {cs : List Char}

theorem WritesDigit.hexDigit?_eq (h : WritesDigit c d) (hd : d < 16) : hexDigit? c = some d := by
  have hall : ∀ d < 16, hexDigit? d.digitChar = some d ∧ hexDigit? d.digitChar.toUpper = some d := by
    decide
  rcases h with rfl | rfl
  · exact (hall d hd).1
  · exact (hall d hd).2

theorem WritesDigit.isHexDigit (h : WritesDigit c d) (hd : d < 16) : isHexDigit c = true := by
  rw [TolerantExpr.isHexDigit, h.hexDigit?_eq hd]
  rfl

theorem WritesDigit.isDigit (h : WritesDigit c d) (hd : d < 10) : c.isDigit = true := by
  have hall : ∀ d < 10, d.digitChar.isDigit = true ∧ d.digitChar.toUpper.isDigit = true := by
    decide
  rcases h with rfl | rfl
  · exact (hall d hd).1
  · exact (hall d hd).2

theorem natOfDigits_concat (hc : hexDigit? c = some d) :
    natOfDigits base (cs ++ [c]) = natOfDigits base cs * base + d := by
  rw [natOfDigits, List.foldl_append, List.foldl_cons, hc]
  rfl

/-- Without their underscores digits are read as what they denote. -/
theorem DigitsOf.natOfDigits_eq (h : DigitsOf base cs n) (hbase : base ≤ 16) :
    natOfDigits base (Token.withoutGaps cs) = n := by
  have hdigit {c : Char} {d : Nat} (hd : d < base) (hc : WritesDigit c d) :
      hexDigit? c = some d ∧ Token.withoutGaps [c] = [c] := by
    have hread := hc.hexDigit?_eq (hd.trans_le hbase)
    refine ⟨hread, List.filter_eq_self.mpr fun x hx => ?_⟩
    rw [List.mem_singleton.mp hx, decide_eq_true_eq]
    rintro rfl
    cases hread
  have happend (cs ds : List Char) :
      Token.withoutGaps (cs ++ ds) = Token.withoutGaps cs ++ Token.withoutGaps ds :=
    List.filter_append cs ds
  induction h with
  | digit hd hc =>
    obtain ⟨hread, hkept⟩ := hdigit hd hc
    rw [hkept, ← List.nil_append [_], natOfDigits_concat hread]
    exact (congrArg (· + _) (Nat.zero_mul base)).trans (Nat.zero_add _)
  | concat h hd hc ih =>
    obtain ⟨hread, hkept⟩ := hdigit hd hc
    rw [happend, hkept, natOfDigits_concat hread, ih]
  | gap h ih =>
    rw [happend, ← ih]
    exact congrArg _ (List.append_nil _)

/-- Digits are a digit, then digits and underscores. -/
theorem DigitsOf.exists_eq_cons (h : DigitsOf base cs n) :
    ∃ c ds, cs = c :: ds ∧ (∃ d < base, WritesDigit c d) ∧
      ∀ x ∈ ds, (∃ d < base, WritesDigit x d) ∨ x = '_' := by
  induction h with
  | digit hd hc => exact ⟨_, [], rfl, ⟨_, hd, hc⟩, by simp⟩
  | concat _ hd hc ih =>
    obtain ⟨c, ds, rfl, hfirst, hrest⟩ := ih
    refine ⟨c, ds ++ [_], rfl, hfirst, List.forall_mem_append.mpr ⟨hrest, fun x hx => ?_⟩⟩
    rw [List.mem_singleton.mp hx]
    exact .inl ⟨_, hd, hc⟩
  | gap _ ih =>
    obtain ⟨c, ds, rfl, hfirst, hrest⟩ := ih
    refine ⟨c, ds ++ ['_'], rfl, hfirst, List.forall_mem_append.mpr ⟨hrest, fun x hx => ?_⟩⟩
    exact .inr (List.mem_singleton.mp hx)

/-- Every magnitude is a token. -/
theorem Magnitude.spells (h : Magnitude cs n) : Token.Spells cs (.int n) := by
  cases h with
  | decimal h =>
    rw [← h.natOfDigits_eq (by decide)]
    obtain ⟨c, ds, rfl, ⟨d, hd, hc⟩, hds⟩ := h.exists_eq_cons
    refine .decimal ⟨c, ds, rfl, hc.isDigit hd, fun x hx => ?_⟩
    rcases hds x hx with ⟨e, he, hx⟩ | rfl
    · rw [Token.isDigitOrGap, hx.isDigit he]
      rfl
    · rfl
  | hexadecimal hx h =>
    rw [← h.natOfDigits_eq le_rfl]
    obtain ⟨c, ds, rfl, ⟨d, hd, hc⟩, hds⟩ := h.exists_eq_cons
    refine .hexadecimal hx (hc.isHexDigit hd) fun x hx => ?_
    rcases hds x hx with ⟨e, he, hx⟩ | rfl
    · rw [Token.isHexDigitOrGap, hx.isHexDigit he]
      rfl
    · rfl

end Digits

/-! ### Numerals are expressions -/

namespace Written

/-- What a numeral is read as: the literal of its magnitude, negated if it has a sign. -/
inductive IsNumeral : Written → Int → Prop where
  | plain (n : Nat) : IsNumeral (literal (.int n) (.int (Int64.ofNat n))) n
  | minus (n : Nat) : IsNumeral (negate (literal (.int n) (.int (Int64.ofNat n)))) (-n)

variable {w : Written} {z : Int} {source : String} {ls : List Lexeme}

theorem exists_stands_of_numeral (h : Numeral source.toList z) :
    ∃ (w : Written) (ls : List Lexeme), w.IsNumeral z ∧ w.Stands source ls := by
  have hlayout {cs : List Char} {n : Nat} (h : Magnitude cs n) (offset : Nat) :
      Layout offset [⟨.int n, cs, offset⟩] cs := by
    have hend : Layout (offset + byteLength cs) [] [] := .nil (by simp)
    have htoken := hend.token h.spells
    rwa [List.append_nil] at htoken
  generalize hcs : source.toList = cs at h
  cases h with
  | plain h =>
    have htoken := hlayout h 0
    rw [← hcs] at htoken
    exact ⟨_, _, .plain _, .literal rfl, htoken, rfl⟩
  | minus h =>
    have hminus : Token.Spells ['-'] .minus := .operator rfl
    have htokens := (hlayout h (0 + byteLength ['-'])).token hminus
    rw [List.singleton_append, ← hcs] at htokens
    exact ⟨_, _, .minus _, .negate (Nat.zero_le _) (.literal rfl), htokens, rfl⟩

theorem IsNumeral.depth_eq (h : w.IsNumeral z) : w.depth 0 = 0 := by
  cases h <;> rfl

/-- Only the magnitude has to fit. -/
theorem IsNumeral.fits_iff (h : w.IsNumeral z) (hw : w.Stands source ls) :
    (∀ l ∈ ls, l.Fits) ↔ z.natAbs ≤ Int64.maxValue.toInt := by
  have htokens : (∀ l ∈ ls, l.Fits) ↔ ∀ u ∈ w.tokens, ∀ n, u = .int n → n ≤ Int64.maxValue.toInt := by
    rw [← hw.tokens_eq, List.forall_mem_map]
    rfl
  rw [htokens]
  cases h with
  | plain n => simp [tokens]
  | minus n => simp [tokens, Token.minus]

end Written
end TolerantExpr
