import TolerantExpr.Expr.Token
import Mathlib.Data.List.TakeWhile

/-!
# How tokens are spelled

The texts of each kind of token, one by one, and the longest one at the start of a text. A text
that a token is spelled with is read as that token wherever nothing follows that would make it
longer; and each token that is read is spelled with the text that it was read from.
-/

namespace TolerantExpr.Token

/-! ### Spellings -/

/-- A digit, then digits and underscores. -/
def Digits (ds : List Char) : Prop :=
  ∃ c cs, ds = c :: cs ∧ c.isDigit = true ∧ ∀ x ∈ cs, isDigitOrGap x = true

inductive Exponent : List Char → Prop where
  | intro {e : Char} {sign ds : List Char} (he : e = 'e' ∨ e = 'E')
    (hsign : sign = [] ∨ sign = ['+'] ∨ sign = ['-']) (hds : Digits ds) :
    Exponent (e :: (sign ++ ds))

/-- A decimal number with a point or an exponent. A point has digits on at least one of its
sides. -/
inductive Pointed : List Char → Prop where
  | point {whole fraction exponent : List Char} (hw : Digits whole)
    (hf : fraction = [] ∨ Digits fraction) (he : exponent = [] ∨ Exponent exponent) :
    Pointed (whole ++ '.' :: fraction ++ exponent)
  | leadingPoint {fraction exponent : List Char} (hf : Digits fraction)
    (he : exponent = [] ∨ Exponent exponent) : Pointed ('.' :: fraction ++ exponent)
  | noPoint {whole exponent : List Char} (hw : Digits whole) (he : Exponent exponent) :
    Pointed (whole ++ exponent)

/-- The texts that a token may be written with. -/
inductive Spells : List Char → Token → Prop where
  | decimal {ds : List Char} (h : Digits ds) : Spells ds (.int (natOfDigits 10 (withoutGaps ds)))
  | hexadecimal {x d : Char} {ds : List Char} (hx : x = 'x' ∨ x = 'X') (hd : isHexDigit d = true)
    (hds : ∀ c ∈ ds, isHexDigitOrGap c = true) :
    Spells ('0' :: x :: d :: ds) (.int (natOfDigits 16 (withoutGaps (d :: ds))))
  | float {cs : List Char} (h : Pointed cs) : Spells cs (.float (floatOf cs))
  | yes : Spells ['t', 'r', 'u', 'e'] (.boolean true)
  | no : Spells ['f', 'a', 'l', 's', 'e'] (.boolean false)
  | name {c : Char} {cs : List Char} (hc : isNameStart c = true)
    (hcs : ∀ x ∈ cs, isNameChar x = true) (hyes : c :: cs ≠ ['t', 'r', 'u', 'e'])
    (hno : c :: cs ≠ ['f', 'a', 'l', 's', 'e']) : Spells (c :: cs) (.name (String.ofList (c :: cs)))
  | operator {op : BinaryOperator} {cs : List Char} (h : cs = op.symbol.toList) :
    Spells cs (.operator op)
  | doubleEqual : Spells ['=', '='] (.operator (.comparison .eq))
  | leftParen : Spells ['('] .leftParen
  | rightParen : Spells [')'] .rightParen
  | comma : Spells [','] .comma

/-- Text behind a token that does not make it longer. -/
def Apart (t : Token) (rest : List Char) : Prop :=
  ∀ c ∈ rest.head?, match t with
    | .int _ | .float _ | .boolean _ | .name _ => isNameChar c = false ∧ c ≠ '.'
    | .operator _ => c ≠ '<' ∧ c ≠ '>' ∧ c ≠ '='
    | _ => True

/-! ### Characters -/

theorem isNameChar_of_isDigitOrGap {c : Char} (h : isDigitOrGap c = true) :
    isNameChar c = true := by
  unfold isDigitOrGap at h
  unfold isNameChar Char.isAlphanum
  rw [Bool.or_eq_true] at h
  rcases h with h | h <;> simp [h]

theorem isNameChar_of_isHexDigitOrGap {c : Char} (h : isHexDigitOrGap c = true) :
    isNameChar c = true := by
  unfold isHexDigitOrGap at h
  rw [Bool.or_eq_true] at h
  unfold isNameChar Char.isAlphanum Char.isAlpha Char.isUpper Char.isLower Char.isDigit
  rcases h with h | h
  · unfold isHexDigit hexDigit? at h
    simp only [Bool.or_eq_true, Bool.and_eq_true, decide_eq_true_eq, ge_iff_le, Char.le_def,
      UInt32.le_iff_toNat_le, Char.reduceVal, UInt32.reduceToNat] at h ⊢
    split at h
    · omega
    · split at h
      · omega
      · split at h
        · omega
        · cases h
  · simp [h]

/-- A character that words and numbers are written with. -/
def isAtomChar (c : Char) : Bool := isNameChar c || c = '.' || c = '+' || c = '-'

theorem isAtomChar_of_isNameChar {c : Char} (h : isNameChar c = true) : isAtomChar c = true := by
  simp [isAtomChar, h]

theorem isNameChar_of_isNameStart {c : Char} (h : isNameStart c = true) : isNameChar c = true := by
  unfold isNameStart at h
  unfold isNameChar Char.isAlphanum
  rw [Bool.or_eq_true] at h
  rcases h with h | h <;> simp [h]

theorem Digits.isAtomChar {ds : List Char} (h : Digits ds) : ∀ c ∈ ds, isAtomChar c = true := by
  obtain ⟨d, ds, rfl, hd, hds⟩ := h
  have hall : ∀ c ∈ d :: ds, isDigitOrGap c = true :=
    List.forall_mem_cons.mpr ⟨by rw [isDigitOrGap, hd, Bool.true_or], hds⟩
  exact fun c hc => isAtomChar_of_isNameChar (isNameChar_of_isDigitOrGap (hall c hc))

theorem Exponent.isAtomChar {cs : List Char} (h : Exponent cs) :
    ∀ c ∈ cs, isAtomChar c = true := by
  cases h with
  | intro he hsign hds =>
    refine List.forall_mem_cons.mpr ⟨?_, List.forall_mem_append.mpr ⟨?_, hds.isAtomChar⟩⟩
    · rcases he with rfl | rfl <;> decide
    · rcases hsign with rfl | rfl | rfl <;> exact List.all_eq_true.mp rfl

theorem Pointed.isAtomChar {cs : List Char} (h : Pointed cs) : ∀ c ∈ cs, isAtomChar c = true := by
  have hdigits {ds : List Char} (hds : ds = [] ∨ Digits ds) : ∀ c ∈ ds, Token.isAtomChar c = true := by
    rcases hds with rfl | hds
    · simp
    · exact hds.isAtomChar
  have hexponent {ds : List Char} (hds : ds = [] ∨ Exponent ds) :
      ∀ c ∈ ds, Token.isAtomChar c = true := by
    rcases hds with rfl | hds
    · simp
    · exact hds.isAtomChar
  have hpoint {ds : List Char} (hds : ds = [] ∨ Digits ds) :
      ∀ c ∈ '.' :: ds, Token.isAtomChar c = true :=
    List.forall_mem_cons.mpr ⟨by decide, hdigits hds⟩
  cases h with
  | point hw hf he =>
    exact List.forall_mem_append.mpr
      ⟨List.forall_mem_append.mpr ⟨hdigits (.inr hw), hpoint hf⟩, hexponent he⟩
  | leadingPoint hf he => exact List.forall_mem_append.mpr ⟨hpoint (.inr hf), hexponent he⟩
  | noPoint hw he => exact List.forall_mem_append.mpr ⟨hdigits (.inr hw), hexponent (.inr he)⟩

/-! ### Runs of characters -/

variable {p : Char → Bool} {cs ds rest : List Char}

theorem takeWhile_append_stop (hcs : ∀ c ∈ cs, p c = true) (hrest : ∀ c ∈ rest.head?, p c = false) :
    (cs ++ rest).takeWhile p = cs := by
  have hnil : rest.takeWhile p = [] := by
    cases rest with
    | nil => rfl
    | cons c rest => rw [List.takeWhile_cons, if_neg (by simp [hrest c rfl])]
  rw [List.takeWhile_append_of_pos hcs, hnil, List.append_nil]

/-- A front of what is left behind a front makes a longer front. -/
theorem prefix_of_drop {xs ys zs : List Char} (h : xs <+: zs) (h' : ys <+: zs.drop xs.length) :
    xs ++ ys <+: zs := by
  obtain ⟨ws, rfl⟩ := h
  rw [List.drop_left] at h'
  exact (List.prefix_append_right_inj xs).mpr h'

theorem digitRun_cases (cs : List Char) : digitRun cs = [] ∨ Digits (digitRun cs) := by
  cases cs with
  | nil => exact .inl rfl
  | cons c cs =>
    rw [digitRun]
    split
    · rename_i hc
      exact .inr ⟨c, _, rfl, hc, fun x hx => List.mem_takeWhile_imp hx⟩
    · exact .inl rfl

theorem digitRun_isPrefix (cs : List Char) : digitRun cs <+: cs := by
  cases cs with
  | nil => exact List.prefix_rfl
  | cons c cs =>
    rw [digitRun]
    split
    · exact (List.prefix_cons_inj c).mpr (List.takeWhile_prefix _)
    · exact List.nil_prefix

theorem digitRun_append (h : Digits ds) (hrest : ∀ c ∈ rest.head?, isDigitOrGap c = false) :
    digitRun (ds ++ rest) = ds := by
  obtain ⟨c, cs, rfl, hc, hcs⟩ := h
  rw [List.cons_append, digitRun, if_pos hc, takeWhile_append_stop hcs hrest]

theorem digitRun_eq_nil (h : ∀ c ∈ rest.head?, c.isDigit = false) : digitRun rest = [] := by
  cases rest with
  | nil => rfl
  | cons c rest => rw [digitRun, if_neg (by simp [h c rfl])]

theorem Digits.ne_nil (h : Digits ds) : ds ≠ [] := by
  obtain ⟨c, cs, rfl, -⟩ := h
  simp

theorem pointPart_cases (cs : List Char) :
    pointPart cs = [] ∨ ∃ fraction, pointPart cs = '.' :: fraction ∧
      (fraction = [] ∨ Digits fraction) := by
  unfold pointPart
  split
  · exact .inr ⟨_, rfl, digitRun_cases _⟩
  · exact .inl rfl

theorem pointPart_isPrefix (cs : List Char) : pointPart cs <+: cs := by
  unfold pointPart
  split
  · exact (List.prefix_cons_inj _).mpr (digitRun_isPrefix _)
  · exact List.nil_prefix

theorem pointPart_append (h : ds = [] ∨ Digits ds)
    (hrest : ∀ c ∈ rest.head?, isDigitOrGap c = false) :
    pointPart ('.' :: (ds ++ rest)) = '.' :: ds := by
  rw [pointPart]
  rcases h with rfl | h
  · rw [List.nil_append, digitRun_eq_nil]
    intro c hc
    have := hrest c hc
    rw [isDigitOrGap, Bool.or_eq_false_iff] at this
    exact this.1
  · rw [digitRun_append h hrest]

theorem pointPart_eq_nil (h : ∀ c ∈ rest.head?, c ≠ '.') : pointPart rest = [] := by
  cases rest with
  | nil => rfl
  | cons c rest =>
    unfold pointPart
    split
    · rename_i heq
      cases heq
      exact absurd rfl (h _ rfl)
    · rfl

theorem signPart_cases (cs : List Char) :
    signPart cs = [] ∨ signPart cs = ['+'] ∨ signPart cs = ['-'] := by
  unfold signPart
  split
  · exact .inr (.inl rfl)
  · exact .inr (.inr rfl)
  · exact .inl rfl

theorem signPart_isPrefix (cs : List Char) : signPart cs <+: cs := by
  unfold signPart
  split
  · exact (List.prefix_cons_inj _).mpr List.nil_prefix
  · exact (List.prefix_cons_inj _).mpr List.nil_prefix
  · exact List.nil_prefix

theorem signPart_append {sign : List Char} (h : sign = [] ∨ sign = ['+'] ∨ sign = ['-'])
    (hds : Digits ds) : signPart (sign ++ (ds ++ rest)) = sign := by
  rcases h with rfl | rfl | rfl
  · obtain ⟨c, cs, rfl, hc, -⟩ := hds
    rw [List.nil_append, List.cons_append]
    unfold signPart
    split
    · rename_i heq
      cases heq
      exact absurd hc (by decide)
    · rename_i heq
      cases heq
      exact absurd hc (by decide)
    · rfl
  · rfl
  · rfl

theorem exponentPart_cases (cs : List Char) :
    exponentPart cs = [] ∨ Exponent (exponentPart cs) := by
  cases cs with
  | nil => exact .inl rfl
  | cons c cs =>
    rw [exponentPart]
    split
    · rename_i h
      have hds := (digitRun_cases (cs.drop (signPart cs).length)).resolve_left h.2
      exact .inr (.intro h.1 (signPart_cases cs) hds)
    · exact .inl rfl

theorem exponentPart_isPrefix (cs : List Char) : exponentPart cs <+: cs := by
  cases cs with
  | nil => exact List.prefix_rfl
  | cons c cs =>
    rw [exponentPart]
    split
    · have htail := prefix_of_drop (signPart_isPrefix cs) (digitRun_isPrefix _)
      exact (List.prefix_cons_inj c).mpr htail
    · exact List.nil_prefix

theorem exponentPart_append {exponent : List Char} (h : Exponent exponent)
    (hrest : ∀ c ∈ rest.head?, isDigitOrGap c = false) :
    exponentPart (exponent ++ rest) = exponent := by
  obtain ⟨he, hsign, hds⟩ := h
  rw [List.cons_append, List.append_assoc, exponentPart]
  rw [signPart_append hsign hds, List.drop_left, digitRun_append hds hrest, if_pos ⟨he, hds.ne_nil⟩]
  rfl

theorem exponentPart_eq_nil (h : ∀ c ∈ rest.head?, c ≠ 'e' ∧ c ≠ 'E') : exponentPart rest = [] := by
  cases rest with
  | nil => rfl
  | cons c rest =>
    have hc := h c rfl
    rw [exponentPart]
    rw [if_neg (by simp [hc])]

/-! ### Hexadecimal numbers -/

theorem hexPart_cases (cs : List Char) :
    hexPart cs = [] ∨ ∃ x d ds, hexPart cs = '0' :: x :: d :: ds ∧ (x = 'x' ∨ x = 'X') ∧
      isHexDigit d = true ∧ ∀ c ∈ ds, isHexDigitOrGap c = true := by
  unfold hexPart
  split
  · split
    · rename_i h
      exact .inr ⟨_, _, _, rfl, h.1, h.2, fun c hc => List.mem_takeWhile_imp hc⟩
    · exact .inl rfl
  · exact .inl rfl

theorem hexPart_isPrefix (cs : List Char) : hexPart cs <+: cs := by
  unfold hexPart
  split
  · split
    · simpa using List.takeWhile_prefix _
    · exact List.nil_prefix
  · exact List.nil_prefix

theorem hexPart_append {x d : Char} (hx : x = 'x' ∨ x = 'X') (hd : isHexDigit d = true)
    (hds : ∀ c ∈ ds, isHexDigitOrGap c = true)
    (hrest : ∀ c ∈ rest.head?, isHexDigitOrGap c = false) :
    hexPart ('0' :: x :: d :: (ds ++ rest)) = '0' :: x :: d :: ds := by
  rw [hexPart, if_pos ⟨hx, hd⟩, takeWhile_append_stop hds hrest]

/-- A decimal number is no hexadecimal one: no `x` comes after its first digit. -/
theorem hexPart_eq_nil (h : Digits ds) (hrest : ∀ c ∈ rest.head?, isNameChar c = false) :
    hexPart (ds ++ rest) = [] := by
  obtain ⟨c, cs, rfl, -, hcs⟩ := h
  rcases hexPart_cases (c :: cs ++ rest) with hnil | ⟨x, d, ds, heq, hx, -, -⟩
  · exact hnil
  · obtain ⟨ws, hws⟩ := hexPart_isPrefix (c :: cs ++ rest)
    rw [heq] at hws
    cases cs with
    | nil =>
      cases rest with
      | nil => cases hws
      | cons y rest =>
        cases hws
        have := hrest _ rfl
        rcases hx with rfl | rfl <;> exact absurd this (by decide)
    | cons y cs =>
      simp only [List.cons_append, List.cons.injEq] at hws
      obtain ⟨-, rfl, -⟩ := hws
      have := hcs _ List.mem_cons_self
      rcases hx with rfl | rfl <;> exact absurd this (by decide)

/-! ### Numbers -/

/-- Text that makes no number before it longer. -/
def EndsNumber (rest : List Char) : Prop := ∀ c ∈ rest.head?, isNameChar c = false ∧ c ≠ '.'

/-- Behind a number there is nothing that a part of a number could begin with. -/
theorem EndsNumber.stops (h : EndsNumber rest) :
    (∀ c ∈ rest.head?, isDigitOrGap c = false) ∧ (∀ c ∈ rest.head?, isHexDigitOrGap c = false) ∧
      ∀ c ∈ rest.head?, c ≠ 'e' ∧ c ≠ 'E' := by
  refine ⟨fun c hc => ?_, fun c hc => ?_, fun c hc => ?_⟩
  · rw [Bool.eq_false_iff]
    intro hgap
    exact absurd (isNameChar_of_isDigitOrGap hgap) (by simp [(h c hc).1])
  · rw [Bool.eq_false_iff]
    intro hgap
    exact absurd (isNameChar_of_isHexDigitOrGap hgap) (by simp [(h c hc).1])
  · constructor <;> rintro rfl <;> exact absurd (h _ hc).1 (by decide)

/-- A number with a point or an exponent, put together from its parts. -/
theorem pointed_of_parts {whole point exponent : List Char} (hw : whole = [] ∨ Digits whole)
    (hp : point = [] ∨ ∃ fraction, point = '.' :: fraction ∧ (fraction = [] ∨ Digits fraction))
    (he : exponent = [] ∨ Exponent exponent) (hne : ¬(whole = [] ∧ point.length ≤ 1))
    (hfloat : ¬(point = [] ∧ exponent = [])) : Pointed (whole ++ point ++ exponent) := by
  rcases hp with rfl | ⟨fraction, rfl, hf⟩
  · rw [List.append_nil]
    refine .noPoint (hw.resolve_left fun hnil => ?_) (he.resolve_left fun hnil => ?_)
    · exact hne ⟨hnil, Nat.zero_le _⟩
    · exact hfloat ⟨rfl, hnil⟩
  · rcases hw with rfl | hw
    · refine .leadingPoint (hf.resolve_left fun hnil => ?_) he
      subst hnil
      exact hne ⟨rfl, Nat.le_refl _⟩
    · exact .point hw hf he

/-- The number at the start of a text is spelled with the text that it was read from. -/
theorem spells_of_number? {t : Token} {text : List Char} (h : number? cs = some (t, text)) :
    Spells text t ∧ text <+: cs := by
  unfold number? at h
  dsimp only at h
  split at h
  · cases h
  rename_i hne
  have hmantissa : digitRun cs ++ pointPart (cs.drop (digitRun cs).length) <+: cs :=
    prefix_of_drop (digitRun_isPrefix cs) (pointPart_isPrefix _)
  split at h
  · rename_i hint
    have hwhole : Digits (digitRun cs) := by
      refine (digitRun_cases cs).resolve_left fun hnil => hne ⟨hnil, ?_⟩
      rw [hint.1]
      exact Nat.zero_le _
    split at h
    · cases h
      exact ⟨.decimal hwhole, digitRun_isPrefix cs⟩
    · rename_i hex hhex
      cases h
      refine ⟨?_, hexPart_isPrefix cs⟩
      rcases hexPart_cases cs with hnil | ⟨x, d, ds, heq, hx, hd, hds⟩
      · exact absurd hnil hhex
      · rw [heq]
        exact .hexadecimal hx hd hds
  · rename_i hfloat
    cases h
    refine ⟨.float ?_, prefix_of_drop hmantissa (exponentPart_isPrefix _)⟩
    exact pointed_of_parts (digitRun_cases _) (pointPart_cases _) (exponentPart_cases _) hne hfloat

theorem number?_of_parts {whole point exponent : List Char} (hw : digitRun cs = whole)
    (hp : pointPart (cs.drop whole.length) = point)
    (he : exponentPart (cs.drop (whole ++ point).length) = exponent)
    (hne : ¬(whole = [] ∧ point.length ≤ 1)) :
    number? cs = if point = [] ∧ exponent = [] then
        match hexPart cs with
        | [] => some (int (natOfDigits 10 (withoutGaps whole)), whole)
        | hex => some (int (natOfDigits 16 (withoutGaps (hex.drop 2))), hex)
      else some (float (floatOf (whole ++ point ++ exponent)), whole ++ point ++ exponent) := by
  subst hw hp he
  unfold number?
  exact if_neg hne

theorem number?_decimal (h : Digits ds) (hrest : EndsNumber rest) :
    number? (ds ++ rest) = some (.int (natOfDigits 10 (withoutGaps ds)), ds) := by
  obtain ⟨hgap, -, hexp⟩ := hrest.stops
  have hpoint : pointPart ((ds ++ rest).drop ds.length) = [] := by
    rw [List.drop_left]
    exact pointPart_eq_nil fun c hc => (hrest c hc).2
  have hexponent : exponentPart ((ds ++ rest).drop (ds ++ []).length) = [] := by
    rw [List.append_nil, List.drop_left]
    exact exponentPart_eq_nil hexp
  rw [number?_of_parts (digitRun_append h hgap) hpoint hexponent fun hnil => h.ne_nil hnil.1,
    if_pos ⟨rfl, rfl⟩, hexPart_eq_nil h fun c hc => (hrest c hc).1]

theorem number?_hexadecimal {x d : Char} (hx : x = 'x' ∨ x = 'X') (hd : isHexDigit d = true)
    (hds : ∀ c ∈ ds, isHexDigitOrGap c = true)
    (hrest : EndsNumber rest) :
    number? ('0' :: x :: d :: ds ++ rest) =
      some (.int (natOfDigits 16 (withoutGaps (d :: ds))), '0' :: x :: d :: ds) := by
  obtain ⟨-, hgap, -⟩ := hrest.stops
  have hwhole : digitRun ('0' :: x :: d :: ds ++ rest) = ['0'] := by
    have hzero : Digits ['0'] := ⟨'0', [], rfl, by decide, by simp⟩
    refine digitRun_append hzero ?_
    rintro c ⟨⟩
    rcases hx with rfl | rfl <;> decide
  have hpoint : pointPart (('0' :: x :: d :: ds ++ rest).drop ['0'].length) = [] := by
    refine pointPart_eq_nil ?_
    rintro c ⟨⟩
    rcases hx with rfl | rfl <;> decide
  have hexponent : exponentPart (('0' :: x :: d :: ds ++ rest).drop (['0'] ++ []).length) = [] := by
    refine exponentPart_eq_nil ?_
    rintro c ⟨⟩
    rcases hx with rfl | rfl <;> decide
  rw [number?_of_parts hwhole hpoint hexponent (by simp), if_pos ⟨rfl, rfl⟩, List.cons_append,
    List.cons_append, List.cons_append, hexPart_append hx hd hds hgap]
  rfl

section Pointed

variable {whole fraction exponent : List Char}

theorem exponentPart_optional (he : exponent = [] ∨ Exponent exponent)
    (hrest : EndsNumber rest) :
    exponentPart (exponent ++ rest) = exponent := by
  obtain ⟨hgap, -, hexp⟩ := hrest.stops
  rcases he with rfl | he
  · exact exponentPart_eq_nil hexp
  · exact exponentPart_append he hgap

theorem exponent_head (he : exponent = [] ∨ Exponent exponent)
    (hrest : EndsNumber rest) :
    ∀ c ∈ (exponent ++ rest).head?, isDigitOrGap c = false ∧ c ≠ '.' := by
  obtain ⟨hgap, -, -⟩ := hrest.stops
  rcases he with rfl | ⟨he, -, -⟩
  · exact fun c hc => ⟨hgap c hc, (hrest c hc).2⟩
  · rintro c ⟨⟩
    rcases he with rfl | rfl <;> decide

theorem number?_point (hw : whole = [] ∨ Digits whole) (hf : fraction = [] ∨ Digits fraction)
    (hne : ¬(whole = [] ∧ fraction = [])) (he : exponent = [] ∨ Exponent exponent)
    (hrest : EndsNumber rest) :
    number? (whole ++ '.' :: fraction ++ exponent ++ rest) =
      some (.float (floatOf (whole ++ '.' :: fraction ++ exponent)),
        whole ++ '.' :: fraction ++ exponent) := by
  have hhead := exponent_head he hrest
  have hwhole : digitRun (whole ++ '.' :: fraction ++ exponent ++ rest) = whole := by
    rw [List.append_assoc, List.append_assoc]
    rcases hw with rfl | hw
    · refine digitRun_eq_nil ?_
      rintro c ⟨⟩
      decide
    · refine digitRun_append hw ?_
      rintro c ⟨⟩
      decide
  have hpoint : pointPart ((whole ++ '.' :: fraction ++ exponent ++ rest).drop whole.length) =
      '.' :: fraction := by
    rw [List.append_assoc, List.append_assoc, List.drop_left, List.cons_append]
    exact pointPart_append hf fun c hc => (hhead c hc).1
  have hexponent : exponentPart ((whole ++ '.' :: fraction ++ exponent ++ rest).drop
      (whole ++ '.' :: fraction).length) = exponent := by
    rw [List.append_assoc, List.drop_left]
    exact exponentPart_optional he hrest
  rw [number?_of_parts hwhole hpoint hexponent, if_neg (by simp)]
  intro h
  obtain ⟨hnil, hlength⟩ := h
  exact hne ⟨hnil, List.length_eq_zero_iff.mp (by simpa using hlength)⟩

theorem number?_noPoint (hw : Digits whole) (he : Exponent exponent)
    (hrest : EndsNumber rest) :
    number? (whole ++ exponent ++ rest) =
      some (.float (floatOf (whole ++ exponent)), whole ++ exponent) := by
  have hhead := exponent_head (.inr he) hrest
  have hwhole : digitRun (whole ++ exponent ++ rest) = whole := by
    rw [List.append_assoc]
    exact digitRun_append hw fun c hc => (hhead c hc).1
  have hpoint : pointPart ((whole ++ exponent ++ rest).drop whole.length) = [] := by
    rw [List.append_assoc, List.drop_left]
    exact pointPart_eq_nil fun c hc => (hhead c hc).2
  have hexponent : exponentPart ((whole ++ exponent ++ rest).drop (whole ++ []).length) =
      exponent := by
    rw [List.append_nil, List.append_assoc, List.drop_left]
    exact exponentPart_optional (.inr he) hrest
  have hne : exponent ≠ [] := by
    intro heq
    subst heq
    cases he
  rw [number?_of_parts hwhole hpoint hexponent fun hnil => hw.ne_nil hnil.1,
    if_neg fun h => hne h.2, List.append_nil]

end Pointed

theorem number?_eq_none {c : Char} (hc : c.isDigit = false) (hpoint : c ≠ '.') :
    number? (c :: cs) = none := by
  have hwhole : digitRun (c :: cs) = [] := digitRun_eq_nil (by rintro _ ⟨⟩; exact hc)
  have hnil : pointPart (c :: cs) = [] := pointPart_eq_nil (by rintro _ ⟨⟩; exact hpoint)
  unfold number?
  dsimp only
  rw [hwhole, List.length_nil, List.drop_zero, hnil, if_pos ⟨rfl, Nat.zero_le _⟩]

theorem Pointed.head (h : Pointed cs) : ∃ c ds, cs = c :: ds ∧ (c.isDigit = true ∨ c = '.') := by
  cases h with
  | point hw | noPoint hw =>
    obtain ⟨c, ds, rfl, hc, -⟩ := hw
    exact ⟨c, _, rfl, .inl hc⟩
  | leadingPoint => exact ⟨'.', _, rfl, .inr rfl⟩

theorem Spells.ne_nil {t : Token} (h : Spells cs t) : cs ≠ [] := by
  cases h with
  | decimal h => exact h.ne_nil
  | float h =>
    obtain ⟨c, ds, rfl, -⟩ := h.head
    simp
  | @operator op _ h =>
    rw [h]
    rcases op with op | op | op | op <;> cases op <;> decide
  | _ => simp

/-! ### Symbols -/

/-- The symbol at the start of a text is spelled with the text that it was read from. -/
theorem spells_of_symbol? {t : Token} {n : Nat} (h : symbol? cs = some (t, n)) :
    0 < n ∧ Spells (cs.take n) t := by
  unfold symbol? at h
  split at h
  all_goals cases h
  · exact ⟨by decide, .operator rfl⟩
  · exact ⟨by decide, .operator rfl⟩
  · exact ⟨by decide, .operator rfl⟩
  · exact ⟨by decide, .operator rfl⟩
  · exact ⟨by decide, .operator rfl⟩
  · exact ⟨by decide, .doubleEqual⟩
  · exact ⟨by decide, .operator rfl⟩
  · exact ⟨by decide, .operator rfl⟩
  · exact ⟨by decide, .operator rfl⟩
  · exact ⟨by decide, .operator rfl⟩
  · exact ⟨by decide, .operator rfl⟩
  · exact ⟨by decide, .operator rfl⟩
  · exact ⟨by decide, .operator rfl⟩
  · exact ⟨by decide, .operator rfl⟩
  · exact ⟨by decide, .operator rfl⟩
  · exact ⟨by decide, .operator rfl⟩
  · exact ⟨by decide, .leftParen⟩
  · exact ⟨by decide, .rightParen⟩
  · exact ⟨by decide, .comma⟩

theorem symbol_head (op : BinaryOperator) : ∃ c cs, op.symbol.toList = c :: cs ∧
    Text.isTokenBlank c = false ∧ isNameStart c = false ∧ c.isDigit = false ∧ c ≠ '.' := by
  rcases op with op | op | op | op <;> cases op <;> exact ⟨_, _, rfl, by decide⟩

/-- An operator is read with its whole symbol if nothing follows that belongs to a longer one. -/
theorem symbol?_of_operator (op : BinaryOperator) (hrest : Apart (.operator op) rest) :
    symbol? (op.symbol.toList ++ rest) = some (.operator op, op.symbol.toList.length) := by
  cases rest with
  | nil => rcases op with op | op | op | op <;> cases op <;> rfl
  | cons c rest =>
    obtain ⟨hlt, hgt, heq⟩ := hrest c rfl
    rcases op with op | op | op | op <;> cases op
    case comparison.eq =>
      change symbol? ('=' :: c :: rest) = _
      rw [symbol?]
      · rfl
      · rintro _ ⟨⟩
        exact heq rfl
    case comparison.gt =>
      change symbol? ('>' :: c :: rest) = _
      rw [symbol?]
      · rfl
      · rintro _ ⟨⟩
        exact hgt rfl
      · rintro _ ⟨⟩
        exact heq rfl
    case comparison.lt =>
      change symbol? ('<' :: c :: rest) = _
      rw [symbol?]
      · rfl
      · rintro _ ⟨⟩
        exact hlt rfl
      · rintro _ ⟨⟩
        exact heq rfl
    all_goals rfl

/-! ### Words -/

theorem ofList_eq_iff {word : String} : String.ofList cs = word ↔ cs = word.toList := by
  constructor
  · intro heq
    subst heq
    exact String.toList_ofList.symm
  · intro heq
    subst heq
    exact String.ofList_toList

theorem spells_ofWord {c : Char} (hc : isNameStart c = true)
    (hcs : ∀ x ∈ cs, isNameChar x = true) : Spells (c :: cs) (ofWord (c :: cs)) := by
  unfold ofWord
  dsimp only
  split
  · rename_i hyes
    rw [ofList_eq_iff.mp hyes]
    exact .yes
  · rename_i hyes
    split
    · rename_i hno
      rw [ofList_eq_iff.mp hno]
      exact .no
    · rename_i hno
      rw [ofList_eq_iff] at hyes hno
      exact .name hc hcs hyes hno

theorem ofWord_name {c : Char} (hyes : c :: cs ≠ ['t', 'r', 'u', 'e'])
    (hno : c :: cs ≠ ['f', 'a', 'l', 's', 'e']) :
    ofWord (c :: cs) = .name (String.ofList (c :: cs)) := by
  have hyes' : String.ofList (c :: cs) ≠ "true" := fun h => hyes (ofList_eq_iff.mp h)
  have hno' : String.ofList (c :: cs) ≠ "false" := fun h => hno (ofList_eq_iff.mp h)
  unfold ofWord
  dsimp only
  rw [if_neg hyes', if_neg hno']

/-! ### Any token -/

theorem isNameStart_eq_false {c : Char} (h : c.isDigit = true ∨ c = '.') :
    isNameStart c = false := by
  rcases h with h | rfl
  · rw [Bool.eq_false_iff]
    intro hstart
    unfold isNameStart Char.isAlpha Char.isUpper Char.isLower at hstart
    unfold Char.isDigit at h
    simp only [Bool.or_eq_true, Bool.and_eq_true, decide_eq_true_eq, ge_iff_le,
      UInt32.le_iff_toNat_le, Char.reduceVal, UInt32.reduceToNat] at h hstart
    rcases hstart with hstart | rfl
    · omega
    · exact absurd h (by decide)
  · decide

theorem isTokenBlank_eq_false {c : Char} (h : isNameStart c = true ∨ c.isDigit = true ∨ c = '.') :
    Text.isTokenBlank c = false := by
  rw [Bool.eq_false_iff]
  intro hblank
  simp only [Text.isTokenBlank, Bool.or_eq_true, decide_eq_true_eq] at hblank
  rcases hblank with ((rfl | rfl) | rfl) | rfl <;> exact absurd h (by decide)

theorem read_word {c : Char} (hc : isNameStart c = true) (hcs : ∀ x ∈ cs, isNameChar x = true)
    (hrest : ∀ x ∈ rest.head?, isNameChar x = false) :
    read c (cs ++ rest) = (ofWord (c :: cs), cs.length) := by
  rw [read, if_pos hc, takeWhile_append_stop hcs hrest]

theorem read_number {c : Char} {t : Token} {text : List Char} (hc : c.isDigit = true ∨ c = '.')
    (h : number? (c :: cs) = some (t, text)) : read c cs = (t, text.length - 1) := by
  rw [read, isNameStart_eq_false hc, if_neg Bool.false_ne_true, h]

theorem read_symbol {c : Char} {t : Token} {n : Nat} (hstart : isNameStart c = false)
    (hdigit : c.isDigit = false) (hpoint : c ≠ '.') (h : symbol? (c :: cs) = some (t, n)) :
    read c cs = (t, n - 1) := by
  rw [read, hstart, if_neg Bool.false_ne_true, number?_eq_none hdigit hpoint, h]

/-- A token that is read is spelled with the characters that it was read from. -/
theorem spells_of_read {c : Char} {t : Token} {n : Nat} (h : read c cs = (t, n))
    (hstray : ∀ x, t ≠ .stray x) : Spells (c :: cs.take n) t := by
  unfold read at h
  split at h
  · rename_i hc
    cases h
    rw [← List.prefix_iff_eq_take.mp (List.takeWhile_prefix _)]
    exact spells_ofWord hc fun x hx => List.mem_takeWhile_imp hx
  · cases hnumber : number? (c :: cs) with
    | some r =>
      obtain ⟨u, text⟩ := r
      rw [hnumber] at h
      cases h
      obtain ⟨hspells, hprefix⟩ := spells_of_number? hnumber
      obtain ⟨x, xs, rfl⟩ := List.exists_cons_of_ne_nil hspells.ne_nil
      obtain ⟨rfl, htail⟩ := List.cons_prefix_cons.mp hprefix
      rw [List.length_cons, Nat.add_sub_cancel, ← List.prefix_iff_eq_take.mp htail]
      exact hspells
    | none =>
      rw [hnumber] at h
      cases hsymbol : symbol? (c :: cs) with
      | some r =>
        obtain ⟨u, k⟩ := r
        rw [hsymbol] at h
        cases h
        obtain ⟨hpos, hspells⟩ := spells_of_symbol? hsymbol
        obtain ⟨m, rfl⟩ := Nat.exists_eq_succ_of_ne_zero (Nat.ne_of_gt hpos)
        exact hspells
      | none =>
        rw [hsymbol] at h
        cases h
        exact absurd rfl (hstray c)

/-- The text of a token is read as the token, unless what follows makes it longer. -/
theorem read_of_spells {t : Token} {text : List Char} (h : Spells text t) (hrest : t.Apart rest) :
    ∃ c cs, text = c :: cs ∧ Text.isTokenBlank c = false ∧
      read c (cs ++ rest) = (t, cs.length) := by
  cases h with
  | decimal h =>
    have hnumber := number?_decimal h hrest
    obtain ⟨c, cs, rfl, hc, -⟩ := h
    exact ⟨c, cs, rfl, isTokenBlank_eq_false (.inr (.inl hc)), read_number (.inl hc) hnumber⟩
  | hexadecimal hx hd hds =>
    have hnumber := number?_hexadecimal hx hd hds hrest
    exact ⟨'0', _, rfl, by decide, read_number (.inl (by decide)) hnumber⟩
  | float h =>
    have hnumber : number? (text ++ rest) = some (.float (floatOf text), text) := by
      cases h with
      | point hw hf he => exact number?_point (.inr hw) hf (fun h => hw.ne_nil h.1) he hrest
      | leadingPoint hf he =>
        exact number?_point (.inl rfl) (.inr hf) (fun h => hf.ne_nil h.2) he hrest
      | noPoint hw he => exact number?_noPoint hw he hrest
    obtain ⟨c, cs, rfl, hc⟩ := h.head
    exact ⟨c, cs, rfl, isTokenBlank_eq_false (.inr hc), read_number hc hnumber⟩
  | yes =>
    refine ⟨'t', ['r', 'u', 'e'], rfl, by decide, ?_⟩
    exact read_word (by decide) (List.all_eq_true.mp (by decide)) fun x hx => (hrest x hx).1
  | no =>
    refine ⟨'f', ['a', 'l', 's', 'e'], rfl, by decide, ?_⟩
    exact read_word (by decide) (List.all_eq_true.mp (by decide)) fun x hx => (hrest x hx).1
  | name hc hcs hyes hno =>
    refine ⟨_, _, rfl, isTokenBlank_eq_false (.inl hc), ?_⟩
    rw [read_word hc hcs fun x hx => (hrest x hx).1, ofWord_name hyes hno]
  | @operator op _ h =>
    have hsymbol := symbol?_of_operator op hrest
    obtain ⟨c, cs, hcs, hblank, hstart, hdigit, hpoint⟩ := symbol_head op
    rw [hcs] at hsymbol
    exact ⟨c, cs, h.trans hcs, hblank, read_symbol hstart hdigit hpoint hsymbol⟩
  | doubleEqual => exact ⟨'=', ['='], rfl, by decide, rfl⟩
  | leftParen => exact ⟨'(', [], rfl, by decide, rfl⟩
  | rightParen => exact ⟨')', [], rfl, by decide, rfl⟩
  | comma => exact ⟨',', [], rfl, by decide, rfl⟩

end TolerantExpr.Token
