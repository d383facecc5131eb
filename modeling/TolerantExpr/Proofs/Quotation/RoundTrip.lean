import TolerantExpr.Engine.Options
import TolerantExpr.Proofs.Quotation.Splitting

/-!
# Writing literals

A string is written between delimiters with an escape before each character that means something,
a byte sequence with two hexadecimal digits for each byte. Read back, literals have the values that
were written, and nothing in them reaches the skeleton, which the gaps between them determine.
-/

namespace TolerantExpr

/-! ### Delimiters -/

/-- Delimiter and escape are two characters, and neither can belong to a word. -/
structure Delimiters.Valid (d : Delimiters) : Prop where
  ne : d.delimiter ≠ d.escape
  delimiter : Text.isWordChar d.delimiter = false
  escape : Text.isWordChar d.escape = false

theorem Options.valid_delimiters {o : Options} (h : o.refusal? = none) : o.delimiters.Valid := by
  unfold refusal? isReserved at h
  simp only [Bool.or_eq_true] at h
  split at h
  · cases h
  · rename_i hne
    split at h
    · cases h
    · rename_i hdelimiter
      split at h
      · cases h
      · rename_i hescape
        rw [not_or, Bool.not_eq_true] at hdelimiter hescape
        exact ⟨hne, hdelimiter.1, hescape.1⟩

theorem Text.isWordChar_of_hexDigit {c : Char} {n : Nat} (h : hexDigit? c = some n) :
    Text.isWordChar c = true := by
  obtain ⟨rest, hrest⟩ : ∃ rest, Text.alphanumeric =
      (0x30, 0x39) :: (0x41, 0x5A) :: (0x61, 0x7A) :: rest := ⟨_, rfl⟩
  have hrange : '0' ≤ c ∧ c ≤ '9' ∨ 'a' ≤ c ∧ c ≤ 'f' ∨ 'A' ≤ c ∧ c ≤ 'F' := by
    unfold hexDigit? at h
    split at h
    · exact .inl ‹_›
    · split at h
      · exact .inr (.inl ‹_›)
      · split at h
        · exact .inr (.inr ‹_›)
        · cases h
  change 48 ≤ c.toNat ∧ c.toNat ≤ 57 ∨ 97 ≤ c.toNat ∧ c.toNat ≤ 102 ∨
    65 ≤ c.toNat ∧ c.toNat ≤ 70 at hrange
  rw [Text.isWordChar, Text.isAlphanumeric, hrest, Bool.or_eq_true]
  left
  simp only [Text.CharSet.has]
  split
  · exact decide_eq_true (by omega)
  · split
    · exact decide_eq_true (by omega)
    · rw [if_pos (by omega)]
      exact decide_eq_true (by omega)

section

variable {d : Delimiters} {c : Char}

theorem Delimiters.Valid.delimiter_ne (hd : d.Valid) (h : Text.isWordChar c = true) :
    c ≠ d.delimiter := by
  rintro rfl
  rw [hd.delimiter] at h
  cases h

/-- The prefix of byte literals is no delimiter. -/
theorem Delimiters.Valid.delimiter_ne_b (hd : d.Valid) : d.delimiter ≠ 'b' :=
  (hd.delimiter_ne (by decide)).symm

theorem Delimiters.Valid.escape_ne (hd : d.Valid) (h : Text.isWordChar c = true) :
    c ≠ d.escape := by
  rintro rfl
  rw [hd.escape] at h
  cases h

end

/-! ### Bodies that close -/

namespace Extraction

variable {d : Delimiters} {c : Char} {body : List Char}

theorem Closes.nil : Closes d [] := fun rest => by simp [splitClose]

theorem Closes.char (h : Closes d body) (hdelimiter : c ≠ d.delimiter) (hescape : c ≠ d.escape) :
    Closes d (c :: body) := by
  intro rest
  rw [List.cons_append, splitClose, if_neg (fun he => hdelimiter he.1), decide_eq_false hescape,
    Bool.false_and, h rest]
  rfl

/-- Whatever stands behind an escape is passed over. -/
theorem Closes.pair (h : Closes d body) (hd : d.Valid) (c : Char) :
    Closes d (d.escape :: c :: body) := by
  intro rest
  rw [List.cons_append, List.cons_append, splitClose, if_neg (fun he => hd.ne he.1.symm),
    decide_eq_true rfl, Bool.not_false, Bool.and_self, splitClose, if_neg (by simp), Bool.not_true,
    Bool.and_false, h rest]
  rfl

end Extraction

namespace Quotation

/-! ### Units -/

variable {d : Delimiters}

theorem units_char {c : Char} (h : c ≠ d.escape) (cs : List Char) :
    units d.delimiter d.escape (c :: cs) = .char c :: units d.delimiter d.escape cs := by
  rw [units.eq_def]
  exact if_pos h

theorem units_special {c : Char} (h : c = d.delimiter ∨ c = d.escape) (cs : List Char) :
    units d.delimiter d.escape (d.escape :: c :: cs) =
      .char c :: units d.delimiter d.escape cs := by
  rw [units.eq_def]
  exact (if_neg (not_not.mpr rfl)).trans (if_pos h)

theorem units_byte (hd : d.Valid) {hi lo : Char} {m n : Nat} (hhi : hexDigit? hi = some m)
    (hlo : hexDigit? lo = some n) (cs : List Char) :
    units d.delimiter d.escape (d.escape :: 'x' :: hi :: lo :: cs) =
      .byte (UInt8.ofNat (16 * m + n)) :: units d.delimiter d.escape cs := by
  have hx : Text.isWordChar 'x' = true := by decide
  have hspecial : ¬('x' = d.delimiter ∨ 'x' = d.escape) :=
    not_or.mpr ⟨hd.delimiter_ne hx, hd.escape_ne hx⟩
  rw [units.eq_def]
  refine (if_neg (not_not.mpr rfl)).trans ((if_neg hspecial).trans ?_)
  simp [control?, hexEscape, hhi, hlo]

/-! ### Strings -/

/-- A string as it is written between delimiters. -/
def escaped (d : Delimiters) (cs : List Char) : List Char :=
  cs.flatMap fun c => if c = d.delimiter ∨ c = d.escape then [d.escape, c] else [c]

theorem escaped_special {c : Char} (h : c = d.delimiter ∨ c = d.escape) (cs : List Char) :
    escaped d (c :: cs) = d.escape :: c :: escaped d cs := by
  simp [escaped, h]

theorem escaped_char {c : Char} (h : ¬(c = d.delimiter ∨ c = d.escape)) (cs : List Char) :
    escaped d (c :: cs) = c :: escaped d cs := by
  simp [escaped, h]

theorem closes_escaped (hd : d.Valid) (cs : List Char) : Extraction.Closes d (escaped d cs) := by
  induction cs with
  | nil => exact .nil
  | cons c cs ih =>
    by_cases h : c = d.delimiter ∨ c = d.escape
    · rw [escaped_special h]
      exact ih.pair hd c
    · rw [escaped_char h]
      rw [not_or] at h
      exact ih.char h.1 h.2

theorem units_escaped (cs : List Char) :
    units d.delimiter d.escape (escaped d cs) = cs.map Unit.char := by
  induction cs with
  | nil => simp [escaped, units]
  | cons c cs ih =>
    by_cases h : c = d.delimiter ∨ c = d.escape
    · rw [escaped_special h, units_special h, ih, List.map_cons]
    · rw [escaped_char h, units_char (fun he => h (.inr he)), ih, List.map_cons]

/-- A string is read back as it was written. -/
theorem decodeString_escaped (s : String) :
    decodeString d.delimiter d.escape (escaped d s.toList) = s := by
  have hid : Unit.toChar ∘ Unit.char = id := rfl
  rw [decodeString, units_escaped, List.map_map, hid, List.map_id, String.ofList_toList]

/-! ### Byte sequences -/

/-- Bytes as they are written between delimiters, with two hexadecimal digits for each, in either
case. -/
inductive WritesBytes (d : Delimiters) : Bytes → List Char → Prop where
  | nil : WritesBytes d [] []
  | cons {hi lo : Char} {m n : Nat} {bs : Bytes} {text : List Char} (hhi : hexDigit? hi = some m)
    (hlo : hexDigit? lo = some n) (rest : WritesBytes d bs text) :
    WritesBytes d (UInt8.ofNat (16 * m + n) :: bs) (d.escape :: 'x' :: hi :: lo :: text)

section Bytes

variable {bs : Bytes} {text : List Char}

theorem closes_of_writesBytes (hd : d.Valid) (h : WritesBytes d bs text) :
    Extraction.Closes d text := by
  induction h with
  | nil => exact .nil
  | cons hhi hlo _ ih =>
    have hhi' := Text.isWordChar_of_hexDigit hhi
    have hlo' := Text.isWordChar_of_hexDigit hlo
    exact ((ih.char (hd.delimiter_ne hlo') (hd.escape_ne hlo')).char (hd.delimiter_ne hhi')
      (hd.escape_ne hhi')).pair hd 'x'

/-- A byte sequence is read back as it was written. -/
theorem decodeBytes_of_writesBytes (hd : d.Valid) (h : WritesBytes d bs text) :
    decodeBytes d.delimiter d.escape text = bs := by
  unfold decodeBytes
  induction h with
  | nil => simp [units]
  | cons hhi hlo _ ih =>
    rw [units_byte hd hhi hlo, List.flatMap_cons, ih]
    rfl

theorem exists_writesBytes (d : Delimiters) (bs : Bytes) : ∃ text, WritesBytes d bs text := by
  have hdigit : ∀ n < 16, ∃ c, hexDigit? c = some n := by
    intro n hn
    refine ⟨"0123456789abcdef".toList.getD n '0', ?_⟩
    revert n
    decide
  induction bs with
  | nil => exact ⟨[], .nil⟩
  | cons b bs ih =>
    obtain ⟨text, h⟩ := ih
    have hb := b.toNat_lt
    obtain ⟨hi, hhi⟩ := hdigit (b.toNat / 16) (by omega)
    obtain ⟨lo, hlo⟩ := hdigit (b.toNat % 16) (by omega)
    have hwrites := WritesBytes.cons hhi hlo h
    rw [Nat.div_add_mod, UInt8.ofNat_toNat] at hwrites
    exact ⟨_, hwrites⟩

end Bytes

/-! ### Literals -/

/-- A literal as it is written, with its delimiters. -/
inductive Writes (d : Delimiters) : Value → List Char → Prop where
  | string (s : String) :
    Writes d (.string s) (d.delimiter :: (escaped d s.toList ++ [d.delimiter]))
  | bytes {bs : Bytes} {text : List Char} (h : WritesBytes d bs text) :
    Writes d (.bytes bs) ('b' :: d.delimiter :: (text ++ [d.delimiter]))

theorem exists_writes (d : Delimiters) {v : Value}
    (h : v.type = .string ∨ v.type = .byteSequence) : ∃ text, Writes d v text := by
  cases v with
  | string s => exact ⟨_, .string s⟩
  | bytes bs =>
    obtain ⟨text, h⟩ := exists_writesBytes d bs
    exact ⟨_, .bytes h⟩
  | _ => simp [Value.type] at h

/-- A text ends in a prefix of byte literals: a `b` that is no part of a longer word. -/
def EndsInPrefix (text : List Char) : Prop :=
  ∃ rest, text = rest ++ ['b'] ∧ ∀ c ∈ rest.getLast?, Text.isWordChar c = false

/-- A text that a literal may follow: one that does not make bytes of a string, nor a word of the
`b` of a byte sequence. -/
def Precedes (text : List Char) : Value → Prop
  | .string _ => ¬EndsInPrefix text
  | _ => ∀ c ∈ text.getLast?, Text.isWordChar c = false

theorem opensBytes_reverse_iff {text : List Char} :
    Extraction.opensBytes text.reverse = true ↔ EndsInPrefix text := by
  constructor
  · intro h
    obtain ⟨rest, hrest⟩ := Extraction.opensBytes_cons h
    refine ⟨rest.reverse, by rw [← List.reverse_cons, ← hrest, List.reverse_reverse], ?_⟩
    intro c hc
    rw [List.getLast?_reverse] at hc
    cases rest with
    | nil => cases hc
    | cons c' rest =>
      cases hc
      rw [hrest] at h
      simpa [Extraction.opensBytes] using h
  · rintro ⟨rest, rfl, hlast⟩
    rw [List.reverse_append, List.reverse_singleton, List.singleton_append]
    cases hrest : rest.reverse with
    | nil => rfl
    | cons c rest' =>
      have hc := hlast c (by rw [List.getLast?_eq_head?_reverse, hrest]; rfl)
      simp [Extraction.opensBytes, hc]

variable {d : Delimiters}

/-- What is written for a value stands for that value, behind a text that it may follow. -/
theorem isLiteral_of_writes (hd : d.Valid) {before written : List Char} {v : Value}
    (h : Writes d v written) (hbefore : Precedes before v) :
    Extraction.IsLiteral d before v written := by
  cases h with
  | string s =>
    have hopens := mt opensBytes_reverse_iff.mp hbefore
    rw [Bool.not_eq_true] at hopens
    have := Extraction.IsLiteral.string (closes_escaped hd s.toList) hopens
    rwa [decodeString_escaped] at this
  | @bytes bs text h =>
    have hopens : Extraction.opensBytes (before ++ ['b']).reverse = true :=
      opensBytes_reverse_iff.mpr ⟨before, rfl, hbefore⟩
    rw [List.reverse_append, List.reverse_singleton, List.singleton_append] at hopens
    have := Extraction.IsLiteral.bytes (closes_of_writesBytes hd h) hopens
    rwa [decodeBytes_of_writesBytes hd h] at this

/-- A text that is written with gaps between literals falls into just these parts. -/
theorem splits_of_writes (hd : d.Valid) {before gap : List Char} {parts : List Extraction.Part}
    (hgap : d.delimiter ∉ gap) (hgaps : ∀ p ∈ parts, d.delimiter ∉ p.gap)
    (hwrites : ∀ p ∈ parts, Writes d p.value p.written)
    (hprecedes : ∀ done p rest, parts = done ++ p :: rest →
      Precedes (before ++ Extraction.textOf gap done) p.value) :
    Extraction.Splits d before gap parts := by
  induction parts generalizing before gap with
  | nil => exact .done hgap
  | cons p parts ih =>
    have hp : Precedes (before ++ gap) p.value := by
      have := hprecedes [] p parts rfl
      rwa [Extraction.textOf, List.flatMap_nil, List.append_nil] at this
    refine .literal hgap (isLiteral_of_writes hd (hwrites p (List.mem_cons_self ..)) hp)
      (ih (hgaps p (List.mem_cons_self ..)) (fun q hq => hgaps q (List.mem_cons_of_mem _ hq))
        (fun q hq => hwrites q (List.mem_cons_of_mem _ hq)) ?_)
    intro done q rest hparts
    have := hprecedes (p :: done) q rest (by rw [hparts, List.cons_append])
    simpa [Extraction.textOf] using this

/-- Written with gaps between them, literals are read back with the values they were written for
and where they were written, and the skeleton comes from the gaps alone. -/
theorem ofText_of_writes {o : Options} (ho : o.refusal? = none) {gap : List Char}
    {parts : List Extraction.Part} (hgap : o.delimiters.delimiter ∉ gap)
    (hgaps : ∀ p ∈ parts, o.delimiters.delimiter ∉ p.gap)
    (hwrites : ∀ p ∈ parts, Writes o.delimiters p.value p.written)
    (hprecedes : ∀ done p rest, parts = done ++ p :: rest →
      Precedes (Extraction.textOf gap done) p.value) :
    let e := Extraction.ofText o.delimiters (String.ofList (Extraction.textOf gap parts))
    e.skeleton = String.ofList (Extraction.skeletonFrom 0 gap (parts.map Extraction.Part.gap)) ∧
      e.excerpts.length = parts.length ∧
      ∀ done p rest, parts = done ++ p :: rest →
        e.excerpts[done.length]? =
          some
            { placeholder := Extraction.placeholderName done.length
              value := p.value
              sourceSpan := Span.ofText (byteLength (Extraction.textOf gap done)) p.written
              placeholderSpan :=
                Span.ofText
                  (byteLength (Extraction.skeletonFrom 0 gap (done.map Extraction.Part.gap)) + 1)
                  (Extraction.placeholderName done.length).toList } := by
  have hd := o.valid_delimiters ho
  have hsplits : Extraction.Splits o.delimiters [] gap parts :=
    splits_of_writes hd hgap hgaps hwrites hprecedes
  dsimp only
  rw [Extraction.ofText_of_splits hd.delimiter_ne_b hsplits]
  refine ⟨rfl, Extraction.length_excerptsFrom .., ?_⟩
  rintro done p rest rfl
  have := Extraction.getElem?_excerptsFrom 0 0 0 gap done p rest
  rwa [Nat.zero_add, Nat.zero_add, Nat.zero_add] at this

/-- Delimiter and escape inside a string, and a byte literal right behind its closing delimiter. -/
theorem ofText_of_writes_adjacent :
    let gap := "a + ".toList
    let parts : List Extraction.Part :=
      [⟨.string "\"\\", "\"\\\"\\\\\"".toList, []⟩,
        ⟨.bytes [0x22, 0xFF], "b\"\\x22\\xfF\"".toList, " = c".toList⟩]
    let e := Extraction.ofText {} (String.ofList (Extraction.textOf gap parts))
    e.skeleton = "a +  __const0  __const1  = c" ∧ e.excerpts.length = 2 ∧
      e.excerpts[0]? = some ⟨"__const0", .string "\"\\", ⟨4, 10⟩, ⟨5, 13⟩⟩ ∧
      e.excerpts[1]? = some ⟨"__const1", .bytes [0x22, 0xFF], ⟨10, 21⟩, ⟨15, 23⟩⟩ := by
  intro gap parts
  have hwrites : ∀ p ∈ parts, Writes {} p.value p.written := by
    intro p hp
    rcases List.mem_cons.mp hp with rfl | hp
    · exact .string "\"\\"
    · rw [List.mem_singleton.mp hp]
      exact .bytes (.cons (m := 2) (n := 2) (by decide) (by decide)
        (.cons (m := 15) (n := 15) (by decide) (by decide) .nil))
  have hprecedes : ∀ done p rest, parts = done ++ p :: rest →
      Precedes (Extraction.textOf gap done) p.value := by
    rintro (_ | ⟨q, _ | ⟨q', done⟩⟩) p rest h <;>
      simp only [parts, List.cons_append, List.nil_append, List.cons.injEq] at h
    · rw [← h.1]
      exact mt opensBytes_reverse_iff.mpr (by decide)
    · rw [← h.1, ← h.2.1]
      have hlast : (Extraction.textOf gap [parts[0]]).getLast? = some '"' := by decide
      intro c hc
      cases hlast.symm.trans hc
      decide
    · simp at h
  obtain ⟨hskeleton, hlength, hexcerpts⟩ :=
    ofText_of_writes (o := {}) (by decide) (by decide) (by decide) hwrites hprecedes
  exact ⟨hskeleton.trans (by decide), hlength, (hexcerpts [] _ _ rfl).trans rfl,
    (hexcerpts [_] _ _ rfl).trans rfl⟩

end Quotation

end TolerantExpr
