import TolerantExpr.Proofs.Parsing.Correctness
import TolerantExpr.Proofs.Quotation.Splitting

/-!
# Texts without literals

No token is written with the character that delimits literals, unless an engine was told to use
another one. So a text that is laid out as tokens has no literals, and extraction leaves it alone.
-/

namespace TolerantExpr

namespace Token

variable {cs : List Char}

theorem Spells.quote_not_mem {t : Token} (h : Spells cs t) : '"' ∉ cs := by
  have hatom (ht : t.literal?.isSome = true ∨ ∃ n, t = .name n) : '"' ∉ cs :=
    fun hc => absurd (isAtomChar_of_atom ht h _ hc) (by decide)
  cases h with
  | decimal | hexadecimal | float | yes | no => exact hatom (.inl rfl)
  | name => exact hatom (.inr ⟨_, rfl⟩)
  | @operator op _ h =>
    subst h
    rcases op with op | op | op | op <;> cases op <;> decide
  | doubleEqual | leftParen | rightParen | comma => decide

end Token

theorem Layout.quote_not_mem {offset : Nat} {ls : List Lexeme} {cs : List Char}
    (h : Layout offset ls cs) : '"' ∉ cs := by
  have hblanks : ∀ {blanks : List Char}, (∀ c ∈ blanks, Text.isTokenBlank c = true) →
      '"' ∉ blanks := fun hb hmem => absurd (hb _ hmem) (by decide)
  induction h with
  | nil h => exact hblanks h
  | cons h ht _ ih => simpa using ⟨hblanks h, ht.quote_not_mem, ih⟩

/-- A text without delimiters is its own skeleton. -/
theorem Extraction.ofText_of_not_mem {d : Delimiters} {text : String}
    (h : d.delimiter ∉ text.toList) : Extraction.ofText d text = ⟨text, []⟩ := by
  have hrun : run d {} (text.toList ++ []) = _ := run_gap h
  rw [List.append_nil, run_nil] at hrun
  unfold ofText
  rw [hrun]
  simp only [List.append_nil, List.reverse_reverse, String.ofList_toList, List.reverse_nil]

/-- A text that is laid out as tokens has no literals. -/
theorem Rendering.ofText_eq {source : String} {t : Tree} {ls : List Lexeme}
    (h : Rendering source t ls) : Extraction.ofText {} source = ⟨source, []⟩ :=
  Extraction.ofText_of_not_mem h.layout.quote_not_mem

end TolerantExpr
