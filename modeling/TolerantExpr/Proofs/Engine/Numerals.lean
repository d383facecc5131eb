import TolerantExpr.Proofs.Engine.Polynomials
import TolerantExpr.Proofs.Parsing.Numerals

/-!
# Integers read back as they are printed

The text of an integer, and every other numeral for it, compiles to an expression that yields the
integer. The smallest integer is the exception: its magnitude is one more than 64 bits hold, and the
magnitude is read before the sign is.
-/

namespace TolerantExpr

theorem natAbs_toInt_le_iff (n : Int64) :
    n.toInt.natAbs ≤ Int64.maxValue.toInt ↔ n ≠ Int64.minValue := by
  have hmin : Int64.minValue.toInt = -2 ^ 63 := by decide
  have hmax : Int64.maxValue.toInt = 2 ^ 63 - 1 := by decide
  have hlow := n.le_toInt
  have hhigh := n.toInt_lt
  rw [Ne, ← Int64.toInt_inj, hmin, hmax]
  omega

/-! ### What a numeral is -/

namespace Written.IsNumeral

variable {w : Written} {z : Int}

theorem isPolynomial (h : w.IsNumeral z) : w.tree.IsPolynomial := by
  cases h with
  | plain n => exact .int _
  | minus n => exact .negate (.int _)

theorem exactValue_eq (h : w.IsNumeral z) (hz : z.natAbs ≤ Int64.maxValue.toInt)
    (ρ : String → Int) : w.tree.exactValue ρ = z := by
  cases h with
  | plain n =>
    rw [Int.natAbs_natCast] at hz
    exact toInt_ofNat_of_le hz
  | minus n =>
    rw [Int.natAbs_neg, Int.natAbs_natCast] at hz
    exact congrArg Neg.neg (toInt_ofNat_of_le hz)

/-- A numeral has no names. -/
theorem uses_eq_nil (h : w.IsNumeral z) {e : Expr} (he : e.tree = w.tree) (x : Extraction) :
    e.uses x = [] := by
  cases h with
  | plain n =>
    cases e with
    | literal => rfl
    | _ => cases he
  | minus n =>
    cases e with
    | negate e s =>
      cases e with
      | literal => rfl
      | _ => cases he
    | _ => cases he

end Written.IsNumeral

namespace Engine

open Analysis

variable {engine : Engine} {source : String} {w : Written} {ls : List Lexeme} {z : Int}

/-! ### Compiling -/

/-- With the default options an expression as it is written has no literals to take out. -/
theorem extract_of_stands (hoptions : engine.options = {}) (h : w.Stands source ls) :
    engine.extract source = ⟨source, []⟩ := by
  rw [extract, hoptions]
  exact h.rendering.ofText_eq

theorem parse_of_stands (hoptions : engine.options = {}) (h : w.Stands source ls) :
    engine.parse source = Expr.parse source defaultMaxDepth := by
  rw [parse, extract_of_stands hoptions h, hoptions]

theorem exists_compileText_of_isPolynomial {e : Expr} (he : engine.parse source = .ok e)
    (hx : (engine.extract source).excerpts = []) (h : e.tree.IsPolynomial) :
    ∃ c, engine.compileText source {} = .ok c := by
  cases hcompile : engine.compileText source {} with
  | ok c => exact ⟨c, rfl⟩
  | error f =>
    exfalso
    have hr : Registry.Distinct {} := List.nodup_nil
    rcases compileText_error_cases hr rfl hcompile with ⟨p, hp, -⟩ | ⟨e', t, he', ht, -⟩
    · cases he.symm.trans hp
    · obtain rfl := Except.ok.inj (he.symm.trans he')
      obtain ⟨a, ha, -⟩ := exists_ofExpr_of_isPolynomial hx h source engine.formatters
      cases ha.symm.trans ht

/-- An expression without names has no parameters. -/
theorem parameters_eq_nil {e : Expr} {c : Compiled} (he : engine.parse source = .ok e)
    (huses : e.uses (engine.extract source) = []) (h : engine.compileText source {} = .ok c) :
    c.parameters = [] := by
  obtain ⟨e', a, he', ha, htable, -⟩ := exists_stages_of_compileText h
  obtain rfl := Except.ok.inj (he.symm.trans he')
  have hr : Registry.Distinct {} := List.nodup_nil
  obtain ⟨hroot, hknown⟩ := names_of_ofExpr hr rfl ha
  have hnames : a.parameters.names = [] := by
    refine List.eq_nil_iff_forall_not_mem.mpr fun name hname => ?_
    rw [hknown, hroot, ← extract, huses] at hname
    cases hname
  rw [htable]
  exact List.map_eq_nil_iff.mp hnames

/-! ### Numerals -/

/-- A numeral whose magnitude fits compiles and yields its integer. -/
theorem compileText_of_isNumeral (hoptions : engine.options = {}) (h : w.IsNumeral z)
    (hw : w.Stands source ls) (hz : z.natAbs ≤ Int64.maxValue.toInt) :
    ∃ c, engine.compileText source {} = .ok c ∧
      ∀ tolerance, c.call tolerance [] = pure (.int (Int64.ofInt z)) := by
  have hx : (engine.extract source).excerpts = [] := by rw [extract_of_stands hoptions hw]
  obtain ⟨e, hparse⟩ : ∃ e, Expr.parse source defaultMaxDepth = .ok e :=
    hw.exists_parse_iff.mpr ⟨(h.fits_iff hw).mpr hz, h.depth_eq.trans_le (Nat.zero_le _)⟩
  have htree : e.tree = w.tree :=
    (rendering_of_ofLexemes (parse_eq_ok_iff.mp hparse).2.1).unique hw.rendering |>.1
  rw [← parse_of_stands hoptions hw] at hparse
  have hpoly : e.tree.IsPolynomial := htree ▸ h.isPolynomial
  obtain ⟨c, hc⟩ := exists_compileText_of_isPolynomial hparse hx hpoly
  have hparameters := parameters_eq_nil hparse (h.uses_eq_nil htree _) hc
  refine ⟨c, hc, fun tolerance => ?_⟩
  have hlength : ([] : List Int64).length = c.parameters.length := by rw [hparameters]; rfl
  have hcall := call_of_isPolynomial hc hparse hx hpoly (by simp [hparameters]) hlength tolerance
  rwa [htree, h.exactValue_eq hz] at hcall

/-- A magnitude that does not fit is reported. -/
theorem compileText_of_not_fits (hoptions : engine.options = {}) (h : w.IsNumeral z)
    (hw : w.Stands source ls) (hz : ¬z.natAbs ≤ Int64.maxValue.toInt) :
    ∃ p text, engine.compileText source {} = .error (.ofParse p) ∧
      p.cause = .invalidNumber text := by
  obtain ⟨e, he, -⟩ := hw.rendering.ofLexemes
  have hdeep : nesting 0 source.toList ≤ defaultMaxDepth :=
    hw.nesting_le_iff.mpr (h.depth_eq.trans_le (Nat.zero_le _))
  obtain ⟨l, hl⟩ : ∃ l, (Token.scan 0 source.toList).find? Lexeme.isOversized = some l := by
    rw [← Option.isSome_iff_exists, List.find?_isSome, hw.rendering.scan_eq]
    by_contra hall
    refine hz ((h.fits_iff hw).mp fun l hl => ?_)
    by_contra hfits
    exact hall ⟨l, hl, Lexeme.isOversized_iff.mpr hfits⟩
  have hparse := parse_of_ofLexemes hdeep he
  rw [hl, Option.elim_some, ← parse_of_stands hoptions hw] at hparse
  exact ⟨_, _, compileText_of_parse_error hparse, rfl⟩

/-- With the default options every numeral for an integer, and the text of the integer is one,
compiles to an expression that yields the integer under every tolerance; but no numeral for the
smallest integer compiles, and each is reported as an invalid number. -/
theorem compile_numeral (hoptions : engine.options = {}) (n : Int64) :
    Numeral (Number.int n).text.toList n.toInt ∧
    ∀ source : String, Numeral source.toList n.toInt →
      (n ≠ Int64.minValue → ∃ c, (engine.compile source).1 = .ok c ∧
        ∀ (tolerance : Tolerance) (history : History),
          (c.call tolerance []).run history = (.ok (.int n), history)) ∧
      (n = Int64.minValue → ∃ p text, (engine.compile source).1 = .error (.ofParse p) ∧
        p.cause = .invalidNumber text) := by
  refine ⟨Number.numeral_text n, fun source hsource => ?_⟩
  obtain ⟨w, ls, hw, hstands⟩ := Written.exists_stands_of_numeral hsource
  have hfits := natAbs_toInt_le_iff n
  rw [compile, count_fst]
  constructor
  · intro hn
    obtain ⟨c, hc, hcall⟩ := compileText_of_isNumeral hoptions hw hstands (hfits.mpr hn)
    refine ⟨c, hc, fun tolerance history => ?_⟩
    rw [hcall, Int64.ofInt_toInt]
    rfl
  · intro hn
    exact compileText_of_not_fits hoptions hw hstands (fun hle => hfits.mp hle hn)

/-- A hexadecimal numeral with a sign and an underscore. -/
theorem compile_numeral_hexadecimal :
    (({ options := {} } : Engine).options = {}) ∧ Numeral "-0x2_A".toList (-42 : Int64).toInt ∧
      (-42 : Int64) ≠ Int64.minValue ∧
      ∃ c, (({ options := {} } : Engine).compile "-0x2_A").1 = .ok c ∧
        (c.call .exact []).run [] = (.ok (.int (-42)), []) := by
  have htwo : DigitsOf 16 ['2'] 2 := .digit (by decide) (.inl rfl)
  have hdigits : DigitsOf 16 ['2', '_', 'A'] (2 * 16 + 10) :=
    htwo.gap.concat (by decide) (.inr (by decide))
  have hnumeral : Numeral "-0x2_A".toList (-42 : Int64).toInt :=
    .minus (.hexadecimal (.inl rfl) hdigits)
  have hn : (-42 : Int64) ≠ Int64.minValue := by decide
  have hoptions : ({ options := {} } : Engine).options = {} := rfl
  obtain ⟨c, hc, hcall⟩ := ((compile_numeral hoptions (-42)).2 _ hnumeral).1 hn
  exact ⟨hoptions, hnumeral, hn, c, hc, hcall _ _⟩

/-- The text of the smallest integer does not compile. -/
theorem not_compile_minValue :
    (Number.int Int64.minValue).text = "-9223372036854775808" ∧
      ¬∃ c, (({ options := {} } : Engine).compile "-9223372036854775808").1 = .ok c := by
  have htext : (Number.int Int64.minValue).text = "-9223372036854775808" := by cbv
  obtain ⟨w, ls, hw, hstands⟩ :=
    Written.exists_stands_of_numeral (htext ▸ Number.numeral_text Int64.minValue)
  refine ⟨htext, ?_⟩
  rintro ⟨c, hc⟩
  have hoptions : ({ options := {} } : Engine).options = {} := rfl
  obtain ⟨p, text, hcompile, -⟩ := compileText_of_not_fits hoptions hw hstands fun hle =>
    (natAbs_toInt_le_iff _).mp hle rfl
  rw [compile, count_fst, hcompile] at hc
  cases hc

end Engine
end TolerantExpr
