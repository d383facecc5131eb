import TolerantExpr.Proofs.Engine.Slots
import TolerantExpr.Proofs.Typing.Reanalysis

/-!
# Compiling with the own table

A text that is compiled again with the table that it was compiled to becomes the same expression.
The second compilation goes through the same stages, from the same analysis to the same programs;
only the number that the engine counts it by is its own.
-/

namespace TolerantExpr.Engine

open Analysis

variable {engine : Engine} {source : String} {seed : ParameterTable} {c : Compiled}

/-- A text that compiles, without a table or with any one, compiles again with the table that it
was compiled to, on the same engine and at any later time: with the same tree, the same table and
the same type, and to the same expression but for its number. -/
theorem compileWith_own_table (h : (engine.compileWith source seed).1 = .ok c) {later : Engine}
    (hoptions : later.options = engine.options) (hformatters : later.formatters = engine.formatters) :
    (later.compileWith source c.parameters).1 = .ok { c with serial := later.compiledCount } ∧
      ∃ (e : Expr) (a : Analysis), engine.parse source = .ok e ∧
        ofExpr e (engine.extract source) source (.ofTable seed) engine.formatters = .ok a ∧
        ofExpr e (engine.extract source) source (.ofTable c.parameters) engine.formatters = .ok a ∧
        a.parameters = c.parameters ∧ a.root.type? = some c.type := by
  rw [compileWith, count_fst] at h
  obtain ⟨e, a, he, ha, hparameters, hexact, htolerant, htype⟩ := exists_stages_of_compileText h
  have hagain : ofExpr e (engine.extract source) source (.ofTable c.parameters) engine.formatters =
      .ok a := by
    rw [hparameters]
    exact ofExpr_ofTable (Registry.distinct_ofTable seed) (Registry.used_ofTable seed) ha
  refine ⟨?_, e, a, he, ha, hagain, hparameters.symm, htype⟩
  have hextract : later.extract source = engine.extract source := by rw [extract, extract, hoptions]
  have hparse : later.parse source = .ok e := by
    rw [parse, hextract, hoptions]
    exact he
  rw [← hextract, ← hformatters] at hagain
  rw [compileWith, count_fst, compileText_of_stages hparse hagain hexact htolerant htype]
  have hfirst := compileText_of_stages he ha hexact htolerant htype
  obtain ⟨serial, source', exact, tolerant, parameters, type, formatters, tolerance⟩ := c
  cases Except.ok.inj (h.symm.trans hfirst)
  rw [hoptions, hformatters]

/-- A default type and a preference are found again from the table that they led to. -/
theorem compileWith_own_table_shift :
    ∃ c, (({ options := {} } : Engine).compile "x + (x << y)").1 = .ok c ∧
      ((({ options := {} } : Engine).compile "x + (x << y)").2.compileWith "x + (x << y)"
        c.parameters).1 = .ok { c with serial := 1 } ∧
      ∃ (e : Expr) (a : Analysis), ({ options := {} } : Engine).parse "x + (x << y)" = .ok e ∧
        ofExpr e (({ options := {} } : Engine).extract "x + (x << y)") "x + (x << y)"
          (.ofTable []) [] = .ok a ∧
        ofExpr e (({ options := {} } : Engine).extract "x + (x << y)") "x + (x << y)"
          (.ofTable c.parameters) [] = .ok a ∧
        a.parameters = c.parameters ∧ a.root.type? = some c.type := by
  have hok : (({ options := {} } : Engine).compileText "x + (x << y)" {}).isOk = true := by cbv
  cases h : ({ options := {} } : Engine).compileText "x + (x << y)" {} with
  | ok c =>
    have hcompile : ({ options := {} } : Engine).compile "x + (x << y)" =
        (.ok c, { options := {}, compiledCount := 1 }) := by
      rw [compile, h]
      rfl
    have hfirst : (({ options := {} } : Engine).compileWith "x + (x << y)" []).1 = .ok c := by
      rw [← compile_eq_compileWith, hcompile]
    rw [hcompile]
    exact ⟨c, rfl, compileWith_own_table hfirst rfl rfl⟩
  | error failure =>
    rw [h] at hok
    cases hok

end TolerantExpr.Engine
