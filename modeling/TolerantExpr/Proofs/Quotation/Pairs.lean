import TolerantExpr.Proofs.Quotation.Lossless
import Mathlib.Data.List.Induction

/-!
# Where literals close and what their escapes take

A literal closes at the first delimiter with an even run of escapes before it. That is the first
delimiter that is left over when escapes are paired up from left to right, each with the character
behind it. Decoding pairs them up in the same way; an escaped `x` takes digits as well, but these
neither delimit nor escape. So every delimiter inside a literal is the second character of a pair,
and no literal ends within a pair.
-/

namespace TolerantExpr

namespace Quotation

/-! ### Escapes in pairs -/

/-- From left to right each escape makes a pair with the character behind it, and none is left
without one at the end. -/
inductive Paired (escape : Char) : List Char → Prop where
  | nil : Paired escape []
  | char {c : Char} {cs : List Char} (h : c ≠ escape) (rest : Paired escape cs) :
    Paired escape (c :: cs)
  | pair (c : Char) {cs : List Char} (rest : Paired escape cs) : Paired escape (escape :: c :: cs)

/-- The number of escapes that a text ends in. -/
def escapeRun (escape : Char) (text : List Char) : Nat :=
  (text.reverse.takeWhile fun c => c = escape).length

/-- Whether an escape waits for its second character at the end of a text, when one does or does not
do so at the start. -/
def pending (escape : Char) (waits : Bool) (text : List Char) : Bool :=
  text.foldl (fun waits c => c = escape && !waits) waits

section

variable {escape c : Char} {cs ds : List Char} {waits : Bool}

theorem pending_cons (escape : Char) (waits : Bool) (c : Char) (cs : List Char) :
    pending escape waits (c :: cs) = pending escape (c = escape && !waits) cs := rfl

theorem pending_char (h : c ≠ escape) :
    pending escape waits (c :: cs) = pending escape false cs := by
  rw [pending_cons, decide_eq_false h, Bool.false_and]

theorem pending_second : pending escape true (c :: cs) = pending escape false cs := by
  rw [pending_cons, Bool.not_true, Bool.and_false]

theorem pending_escape : pending escape false (escape :: cs) = pending escape true cs := by
  rw [pending_cons, decide_eq_true rfl, Bool.not_false, Bool.and_self]

theorem paired_of_pending (cs : List Char) :
    (pending escape false cs = false → Paired escape cs) ∧
      (pending escape true cs = false → ∃ c ds, cs = c :: ds ∧ Paired escape ds) := by
  -- both states together: an escape leads from the first to the second, and any character back
  induction cs with
  | nil => exact ⟨fun _ => .nil, fun h => by cases h⟩
  | cons c cs ih =>
    refine ⟨fun h => ?_, fun h => ⟨c, cs, rfl, ih.1 (pending_second.symm.trans h)⟩⟩
    by_cases hc : c = escape
    · subst hc
      obtain ⟨second, ds, rfl, hds⟩ := ih.2 (pending_escape.symm.trans h)
      exact .pair second hds
    · exact .char hc (ih.1 ((pending_char hc).symm.trans h))

/-- The escapes of a text are paired up if none waits at its end. -/
theorem paired_iff_pending : Paired escape cs ↔ pending escape false cs = false := by
  refine ⟨fun h => ?_, (paired_of_pending cs).1⟩
  induction h with
  | nil => rfl
  | char hc _ ih => rwa [pending_char hc]
  | pair c _ ih => rwa [pending_escape, pending_second]

theorem escapeRun_concat (escape : Char) (cs : List Char) (c : Char) :
    escapeRun escape (cs ++ [c]) = if c = escape then escapeRun escape cs + 1 else 0 := by
  rw [escapeRun, escapeRun, List.reverse_append, List.reverse_singleton, List.singleton_append,
    List.takeWhile_cons]
  by_cases hc : c = escape <;> simp [hc]

/-- An escape waits behind an odd run of them. -/
theorem pending_iff_odd : pending escape false cs = true ↔ escapeRun escape cs % 2 = 1 := by
  -- from the back, since that is where the run stands
  induction cs using List.reverseRecOn with
  | nil => simp [pending, escapeRun]
  | append_singleton cs c ih =>
    rw [escapeRun_concat, pending, List.foldl_append, List.foldl_cons, List.foldl_nil, ← pending,
      Bool.and_eq_true, decide_eq_true_iff, Bool.not_eq_true', ← Bool.not_eq_true, ih]
    split
    · rename_i hc
      rw [eq_true hc, true_and]
      omega
    · rename_i hc
      simp [hc]

/-- The escapes of a text are paired up if it ends in an even run of them. -/
theorem paired_iff_even : Paired escape cs ↔ escapeRun escape cs % 2 = 0 := by
  rw [paired_iff_pending, ← Bool.not_eq_true, pending_iff_odd]
  omega

theorem paired_char_iff (h : c ≠ escape) : Paired escape (c :: cs) ↔ Paired escape cs := by
  rw [paired_iff_pending, pending_char h, ← paired_iff_pending]

theorem paired_pair_iff : Paired escape (escape :: c :: cs) ↔ Paired escape cs := by
  rw [paired_iff_pending, pending_escape, pending_second, ← paired_iff_pending]

theorem not_paired_singleton (escape : Char) : ¬Paired escape [escape] := by
  rw [paired_iff_pending, pending_escape]
  exact Bool.noConfusion

/-- Characters in front that are no escapes do not matter. -/
theorem paired_append_iff (h : escape ∉ ds) : Paired escape (ds ++ cs) ↔ Paired escape cs := by
  induction ds with
  | nil => exact Iff.rfl
  | cons d ds ih =>
    rw [List.mem_cons, not_or] at h
    rw [List.cons_append, paired_char_iff (Ne.symm h.1), ih h.2]

end

end Quotation

/-! ### Where a literal closes -/

namespace Extraction

open Quotation (Paired pending)

variable {d : Delimiters} {odd : Bool} {text body rest : List Char}

/-- A delimiter that closes no literal stands behind an escape that waits. -/
theorem waits_of_not_closing {c : Char} (h : ¬(c = d.delimiter ∧ odd = false))
    (hc : c = d.delimiter) : odd = true := by
  rw [not_and, Bool.not_eq_false] at h
  exact h hc

/-- A literal closes at the first delimiter in front of which no escape waits. -/
theorem splitClose_eq_some_iff : splitClose d odd text = some (body, rest) ↔
    text = body ++ d.delimiter :: rest ∧ pending d.escape odd body = false ∧
      ∀ p s, body = p ++ d.delimiter :: s → pending d.escape odd p = true := by
  induction text generalizing odd body with
  | nil => simp [splitClose]
  | cons c cs ih =>
    rw [splitClose]
    split
    · rename_i hc
      obtain ⟨rfl, rfl⟩ := hc
      constructor
      · rintro ⟨⟩
        refine ⟨rfl, rfl, fun p s hps => ?_⟩
        simp at hps
      · rintro ⟨htext, -, hfirst⟩
        cases body with
        | nil =>
          cases htext
          rfl
        | cons b body =>
          cases htext
          cases hfirst [] body rfl
    · rename_i hc
      rw [Option.map_eq_some_iff]
      constructor
      · rintro ⟨⟨b, r⟩, hclose, heq⟩
        cases heq
        obtain ⟨rfl, hend, hfirst⟩ := ih.mp hclose
        refine ⟨rfl, hend, fun p s hps => ?_⟩
        cases p with
        | nil => exact waits_of_not_closing hc (List.cons.inj hps).1
        | cons q p =>
          cases hps
          exact hfirst p s rfl
      · rintro ⟨htext, hend, hfirst⟩
        cases body with
        | nil =>
          have hodd : odd = true := waits_of_not_closing hc (List.cons.inj htext).1
          cases hodd.symm.trans hend
        | cons b body =>
          cases htext
          exact ⟨(body, rest), ih.mpr ⟨rfl, hend, fun p s hps => hfirst (c :: p) s (by
            rw [hps, List.cons_append])⟩, rfl⟩

/-- A literal is not closed if an escape waits in front of every delimiter. -/
theorem splitClose_eq_none_iff : splitClose d odd text = none ↔
    ∀ body rest, text = body ++ d.delimiter :: rest → pending d.escape odd body = true := by
  induction text generalizing odd with
  | nil => simp [splitClose]
  | cons c cs ih =>
    rw [splitClose]
    split
    · rename_i hc
      obtain ⟨rfl, rfl⟩ := hc
      exact iff_of_false (by simp) fun h => by cases h [] cs rfl
    · rename_i hc
      rw [Option.map_eq_none_iff, ih]
      constructor
      · intro h body rest htext
        cases body with
        | nil => exact waits_of_not_closing hc (List.cons.inj htext).1
        | cons b body =>
          cases htext
          exact h body rest rfl
      · intro h body rest htext
        exact h (c :: body) rest (by rw [htext, List.cons_append])

end Extraction

namespace Quotation

/-! ### What decoding takes -/

/-- What decoding takes from a body at a time: a character that stands for itself, an escape with
the character behind it and the digits that belong to them, or an escape with nothing behind it. -/
inductive Piece where
  | char (c : Char)
  | pair (second : Char) (digits : List Char)
  | dangling
deriving DecidableEq

def Piece.text (escape : Char) : Piece → List Char
  | char c => [c]
  | pair second digits => escape :: second :: digits
  | dangling => [escape]

/-- The text that pieces take up. -/
def Piece.textAll (escape : Char) (ps : List Piece) : List Char := ps.flatMap (Piece.text escape)

/-- How many digits belong to an escaped character: those behind an `x` that does not stand for
itself. -/
def digitCount (d : Delimiters) (second : Char) (cs : List Char) : Nat :=
  if ¬(second = d.delimiter ∨ second = d.escape) ∧ second = 'x' then (hexEscape d.escape cs).2
  else 0

/-- The pieces of a body, from left to right. -/
def pieces (d : Delimiters) (body : List Char) : List Piece :=
  match body with
  | [] => []
  | c :: cs =>
    if c ≠ d.escape then .char c :: pieces d cs
    else
      match cs with
      | [] => [.dangling]
      | second :: ds =>
        .pair second (ds.take (digitCount d second ds)) ::
          pieces d (ds.drop (digitCount d second ds))
termination_by body.length
decreasing_by
  all_goals simp only [List.length_cons, List.length_drop]; omega

section

variable {d : Delimiters} {c : Char} {cs : List Char}

/-- Pieces take up the whole body. -/
theorem textAll_pieces (d : Delimiters) (body : List Char) :
    Piece.textAll d.escape (pieces d body) = body := by
  unfold Piece.textAll
  fun_induction pieces d body with
  | case1 => rfl
  | case2 c cs h ih => exact congrArg (c :: ·) ih
  | case3 c h =>
    rw [not_not.mp h]
    rfl
  | case4 c h second ds ih =>
    rw [not_not.mp h, List.flatMap_cons, ih, Piece.text, List.cons_append, List.cons_append,
      List.take_append_drop]

/-- What an escaped `x` stands for depends on its digits alone. -/
theorem hexEscape_take (escape : Char) (cs : List Char) :
    hexEscape escape (cs.take (hexEscape escape cs).2) = hexEscape escape cs := by
  rcases cs with _ | ⟨hi, _ | ⟨lo, cs⟩⟩
  · rfl
  · by_cases hhi : isHexDigit hi = true <;> simp [hexEscape, hhi]
  · cases hhi : hexDigit? hi <;> cases hlo : hexDigit? lo <;>
      simp [hexEscape, hhi, hlo, isHexDigit]

/-- An escaped `x` takes nothing but digits. -/
theorem isHexDigit_of_mem {escape : Char} (h : c ∈ cs.take (hexEscape escape cs).2) :
    isHexDigit c = true := by
  rcases cs with _ | ⟨hi, _ | ⟨lo, cs⟩⟩
  · cases h
  · by_cases hhi : isHexDigit hi = true
    · rw [hexEscape, if_pos hhi] at h
      rwa [List.mem_singleton.mp h]
    · rw [hexEscape, if_neg hhi] at h
      cases h
  · cases hhi : hexDigit? hi <;> cases hlo : hexDigit? lo <;> simp [hexEscape, hhi, hlo] at h
    · rw [h, isHexDigit, hhi, Option.isSome_some]
    · rcases h with rfl | rfl
      · rw [isHexDigit, hhi, Option.isSome_some]
      · rw [isHexDigit, hlo, Option.isSome_some]

/-- Only digits belong to an escaped character. -/
theorem hexDigit?_of_mem {second : Char} (h : c ∈ cs.take (digitCount d second cs)) :
    ∃ n, hexDigit? c = some n := by
  unfold digitCount at h
  split at h
  · exact Option.isSome_iff_exists.mp (isHexDigit_of_mem h)
  · cases h

/-- An escaped `x` takes its digits. -/
theorem units_x (h : ¬('x' = d.delimiter ∨ 'x' = d.escape)) (cs : List Char) :
    units d.delimiter d.escape (d.escape :: 'x' :: cs) =
      (hexEscape d.escape cs).1 ++
        units d.delimiter d.escape (cs.drop (hexEscape d.escape cs).2) := by
  rw [units.eq_def]
  exact (if_neg (not_not.mpr rfl)).trans (if_neg h)

/-- Any other escaped character takes nothing of what comes behind it. -/
theorem exists_units_pair {second : Char}
    (h : ¬(¬(second = d.delimiter ∨ second = d.escape) ∧ second = 'x')) :
    ∃ us, ∀ cs, units d.delimiter d.escape (d.escape :: second :: cs) =
      us ++ units d.delimiter d.escape cs := by
  by_cases hspecial : second = d.delimiter ∨ second = d.escape
  · exact ⟨[.char second], units_special hspecial⟩
  · have hx : second ≠ 'x' := fun hx => h ⟨hspecial, hx⟩
    cases hcontrol : control? second with
    | some k =>
      refine ⟨[.char k], fun cs => ?_⟩
      rw [units.eq_def]
      refine (if_neg (not_not.mpr rfl)).trans ((if_neg hspecial).trans ?_)
      rw [hcontrol]
      rfl
    | none =>
      refine ⟨[.char d.escape, .char second], fun cs => ?_⟩
      rw [units.eq_def]
      refine (if_neg (not_not.mpr rfl)).trans ((if_neg hspecial).trans ?_)
      rw [hcontrol]
      exact if_neg hx

/-- A pair is decoded by itself, together with its digits. -/
theorem units_pair (d : Delimiters) (second : Char) (cs : List Char) :
    units d.delimiter d.escape (d.escape :: second :: cs) =
      units d.delimiter d.escape
          (d.escape :: second :: cs.take (digitCount d second cs)) ++
        units d.delimiter d.escape (cs.drop (digitCount d second cs)) := by
  have hnil : units d.delimiter d.escape [] = [] := by rw [units]
  unfold digitCount
  split
  · rename_i h
    obtain ⟨hspecial, rfl⟩ := h
    have hdigits : (cs.take (hexEscape d.escape cs).2).drop (hexEscape d.escape cs).2 = [] :=
      List.drop_eq_nil_of_le (List.length_take_le _ _)
    rw [units_x hspecial, units_x hspecial, hexEscape_take, hdigits, hnil, List.append_nil]
  · rename_i h
    obtain ⟨us, hus⟩ := exists_units_pair h
    rw [List.take_zero, List.drop_zero, hus, hus, hnil, List.append_nil]

/-- Decoding goes piece by piece. -/
theorem units_eq_flatMap (d : Delimiters) (body : List Char) :
    units d.delimiter d.escape body =
      (pieces d body).flatMap fun p => units d.delimiter d.escape (p.text d.escape) := by
  fun_induction pieces d body with
  | case1 => rw [units, List.flatMap_nil]
  | case2 c cs h ih =>
    rw [List.flatMap_cons, ← ih, Piece.text, units_char h, units_char h, units]
    rfl
  | case3 c h =>
    rw [not_not.mp h]
    exact (List.append_nil _).symm
  | case4 c h second ds ih =>
    rw [not_not.mp h, List.flatMap_cons, ← ih]
    exact units_pair d second ds

/-! ### Paired bodies -/

theorem escape_not_mem_digits (hd : d.Valid) (second : Char) :
    d.escape ∉ cs.take (digitCount d second cs) := by
  intro h
  obtain ⟨n, hn⟩ := hexDigit?_of_mem h
  exact hd.escape_ne (Text.isWordChar_of_hexDigit hn) rfl

theorem delimiter_not_mem_digits (hd : d.Valid) (second : Char) :
    d.delimiter ∉ cs.take (digitCount d second cs) := by
  intro h
  obtain ⟨n, hn⟩ := hexDigit?_of_mem h
  exact hd.delimiter_ne (Text.isWordChar_of_hexDigit hn) rfl

/-- What stands behind a pair and its digits is paired up if the whole is. -/
theorem Paired.behind (hd : d.Valid) {second : Char}
    (h : Paired d.escape (d.escape :: second :: cs)) :
    Paired d.escape (cs.drop (digitCount d second cs)) := by
  rw [paired_pair_iff, ← List.take_append_drop (digitCount d second cs) cs,
    paired_append_iff (escape_not_mem_digits hd second)] at h
  exact h

/-- Where pairing leaves no delimiter over, it leaves none over behind a pair and its digits. -/
theorem not_paired_behind (hd : d.Valid) {second : Char}
    (hinside : ∀ p s, d.escape :: second :: cs = p ++ d.delimiter :: s → ¬Paired d.escape p)
    {p s : List Char} (h : cs.drop (digitCount d second cs) = p ++ d.delimiter :: s) :
    ¬Paired d.escape p := by
  intro hpaired
  refine hinside (d.escape :: second :: (cs.take (digitCount d second cs) ++ p)) s ?_
    (paired_pair_iff.mpr ((paired_append_iff (escape_not_mem_digits hd second)).mpr hpaired))
  rw [List.cons_append, List.cons_append, List.append_assoc, ← h, List.take_append_drop]

/-- No escape is left over at the end of a body that is paired up. -/
theorem dangling_not_mem (hd : d.Valid) {body : List Char} (h : Paired d.escape body) :
    .dangling ∉ pieces d body := by
  fun_induction pieces d body with
  | case1 => exact List.not_mem_nil
  | case2 c cs hc ih =>
    rw [List.mem_cons, not_or]
    exact ⟨nofun, ih ((paired_char_iff hc).mp h)⟩
  | case3 c hc =>
    obtain rfl := not_not.mp hc
    exact absurd h (not_paired_singleton _)
  | case4 c hc second ds ih =>
    obtain rfl := not_not.mp hc
    rw [List.mem_cons, not_or]
    exact ⟨nofun, ih (h.behind hd)⟩

/-- A delimiter stands behind the digits of a pair. -/
theorem exists_behind_digits (hd : d.Valid) (second : Char) {p s : List Char}
    (h : cs = p ++ d.delimiter :: s) :
    ∃ q, p = cs.take (digitCount d second cs) ++ q ∧
      cs.drop (digitCount d second cs) = q ++ d.delimiter :: s := by
  have hdigits : d.delimiter ∉ cs.take (digitCount d second cs) :=
    delimiter_not_mem_digits hd second
  have hsplit := (List.take_append_drop (digitCount d second cs) cs).trans h
  rcases List.append_eq_append_iff.mp hsplit with ⟨q, hp, hrest⟩ | ⟨q, htake, hrest⟩
  · exact ⟨q, hp, hrest⟩
  · cases q with
    | nil => exact ⟨[], by rw [htake, List.append_nil, List.append_nil], hrest.symm⟩
    | cons c q =>
      rw [(List.cons.inj hrest).1, htake] at hdigits
      exact absurd (List.mem_append_right p List.mem_cons_self) hdigits

/-- Where no delimiter is left over by pairing, each one is the second character of a piece. -/
theorem pair_of_delimiter (hd : d.Valid) {body p s : List Char} (hbody : Paired d.escape body)
    (hinside : ∀ p s, body = p ++ d.delimiter :: s → ¬Paired d.escape p)
    (h : body = p ++ d.delimiter :: s) :
    ∃ ps qs, pieces d body = ps ++ .pair d.delimiter [] :: qs ∧
      Piece.textAll d.escape ps ++ [d.escape] = p ∧ Piece.textAll d.escape qs = s := by
  fun_induction pieces d body generalizing p s with
  | case1 => simp at h
  | case2 c cs hc ih =>
    cases p with
    | nil => exact absurd .nil (hinside [] s h)
    | cons b p =>
      cases h
      have hinside' : ∀ p' s', p ++ d.delimiter :: s = p' ++ d.delimiter :: s' →
          ¬Paired d.escape p' := fun p' s' hp' hpaired =>
        hinside (c :: p') s' (congrArg (c :: ·) hp') ((paired_char_iff hc).mpr hpaired)
      obtain ⟨ps, qs, hpieces, hbefore, hbehind⟩ :=
        ih ((paired_char_iff hc).mp hbody) hinside' rfl
      refine ⟨.char c :: ps, qs, congrArg (.char c :: ·) hpieces, ?_, hbehind⟩
      exact congrArg (c :: ·) hbefore
  | case3 c hc =>
    obtain rfl := not_not.mp hc
    exact absurd hbody (not_paired_singleton _)
  | case4 c hc second ds ih =>
    obtain rfl := not_not.mp hc
    rcases p with _ | ⟨b, _ | ⟨b', p⟩⟩
    · exact absurd (List.cons.inj h).1.symm hd.ne
    · cases h
      -- the delimiter is the second character here; an escaped one takes no digits, even an `x`
      have hcount : digitCount d d.delimiter ds = 0 := if_neg fun h => h.1 (.inl rfl)
      rw [hcount, List.take_zero, List.drop_zero]
      exact ⟨[], pieces d ds, rfl, rfl, textAll_pieces d ds⟩
    · simp only [List.cons_append, List.cons.injEq] at h
      obtain ⟨rfl, rfl, hds⟩ := h
      obtain ⟨q, rfl, hrest⟩ := exists_behind_digits hd second hds
      obtain ⟨ps, qs, hpieces, hbefore, hbehind⟩ :=
        ih (hbody.behind hd) (fun _ _ => not_paired_behind hd hinside) hrest
      refine ⟨.pair second (ds.take (digitCount d second ds)) :: ps, qs,
        congrArg (List.cons _) hpieces, ?_, hbehind⟩
      rw [← hbefore]
      simp [Piece.textAll, Piece.text]

end

end Quotation

/-! ### Closing and decoding -/

namespace Extraction

open Quotation (Paired Piece escapeRun pieces units decodeString decodeBytes)

/-- A literal that opens before a text closes where pairing of escapes ends it, and is decoded in
these pairs. -/
structure ClosesInPairs (d : Delimiters) (text : List Char) : Prop where
  /-- It closes at the first delimiter that pairing leaves over, -/
  closed_iff : ∀ body rest, splitClose d false text = some (body, rest) ↔
    text = body ++ d.delimiter :: rest ∧ Paired d.escape body ∧
      ∀ p s, body = p ++ d.delimiter :: s → ¬Paired d.escape p
  /-- and at none if there is no such delimiter. -/
  unclosed_iff : splitClose d false text = none ↔
    ∀ body rest, text = body ++ d.delimiter :: rest → ¬Paired d.escape body
  /-- Decoding takes up a body piece by piece, -/
  decodes : ∀ body, Piece.textAll d.escape (pieces d body) = body ∧
    units d.delimiter d.escape body =
      (pieces d body).flatMap fun p => units d.delimiter d.escape (p.text d.escape)
  /-- in the body of a literal it takes each delimiter as the second character of a pair, -/
  delimiter : ∀ body rest, splitClose d false text = some (body, rest) →
    ∀ p s, body = p ++ d.delimiter :: s → ∃ ps qs,
      pieces d body = ps ++ .pair d.delimiter [] :: qs ∧
        Piece.textAll d.escape ps ++ [d.escape] = p ∧ Piece.textAll d.escape qs = s
  /-- and no escape is left over at its end. -/
  dangling : ∀ body rest, splitClose d false text = some (body, rest) →
    .dangling ∉ pieces d body

theorem splitClose_iff_paired {d : Delimiters} {text body rest : List Char} :
    splitClose d false text = some (body, rest) ↔
      text = body ++ d.delimiter :: rest ∧ Paired d.escape body ∧
        ∀ p s, body = p ++ d.delimiter :: s → ¬Paired d.escape p := by
  simp only [splitClose_eq_some_iff, Quotation.paired_iff_pending, Bool.not_eq_false]

theorem closesInPairs {d : Delimiters} (hd : d.Valid) (text : List Char) :
    ClosesInPairs d text where
  closed_iff _ _ := splitClose_iff_paired
  unclosed_iff := by
    simp only [splitClose_eq_none_iff, Quotation.paired_iff_pending, Bool.not_eq_false]
  decodes body := ⟨Quotation.textAll_pieces d body, Quotation.units_eq_flatMap d body⟩
  delimiter body rest h p s := by
    obtain ⟨-, hpaired, hinside⟩ := splitClose_iff_paired.mp h
    exact Quotation.pair_of_delimiter hd hpaired hinside
  dangling body rest h := Quotation.dangling_not_mem hd (splitClose_iff_paired.mp h).2.1

section

variable {d : Delimiters}

theorem IsLiteral.exists_body {before written : List Char} {v : Value}
    (h : IsLiteral d before v written) :
    ∃ mark body, written = mark ++ d.delimiter :: (body ++ [d.delimiter]) ∧ Closes d body ∧
      (v = .string (decodeString d.delimiter d.escape body) ∨
        v = .bytes (decodeBytes d.delimiter d.escape body)) := by
  cases h with
  | @string body hbody => exact ⟨[], body, rfl, hbody, .inl rfl⟩
  | @bytes body hbody => exact ⟨['b'], body, rfl, hbody, .inr rfl⟩

/-- The literal that an excerpt was taken from. -/
theorem Accounts.exists_body {source : String} {x : Extraction} {gap : List Char}
    {parts : List Part} (h : x.Accounts d source gap parts) {y : Excerpt} (hy : y ∈ x.excerpts) :
    ∃ before body rest, source.toList = before ++ d.delimiter :: (body ++ d.delimiter :: rest) ∧
      y.sourceSpan.stop = byteLength (before ++ d.delimiter :: (body ++ [d.delimiter])) ∧
      Closes d body ∧
      (y.value = .string (decodeString d.delimiter d.escape body) ∨
        y.value = .bytes (decodeBytes d.delimiter d.escape body)) := by
  obtain ⟨i, hi⟩ := List.mem_iff_getElem?.mp hy
  have hparts : i < parts.length := h.length ▸ (List.getElem?_eq_some_iff.mp hi).1
  obtain ⟨done, p, after, rfl, hdone⟩ : ∃ done p after, parts = done ++ p :: after ∧
      done.length = i := by
    refine ⟨parts.take i, parts[i], parts.drop (i + 1), ?_, List.length_take_of_le hparts.le⟩
    rw [← List.drop_eq_getElem_cons hparts, List.take_append_drop]
  obtain ⟨z, hz, hexcerpt, -⟩ := h.excerpt done p after rfl
  obtain rfl : y = z := Option.some.inj ((hdone ▸ hi).symm.trans hz)
  obtain ⟨mark, body, hwritten, hbody, hvalue⟩ := (h.literal done p after rfl).2.exists_body
  refine ⟨textOf gap done ++ mark, body, p.gap ++ after.flatMap fun q => q.written ++ q.gap,
    ?_, ?_, hbody, ?_⟩
  · rw [h.text, String.toList_ofList]
    simp [textOf, hwritten]
  · rw [hexcerpt]
    simp [Part.excerpt, Span.ofText, hwritten]
  · rw [hexcerpt]
    exact hvalue

end

end Extraction
end TolerantExpr
