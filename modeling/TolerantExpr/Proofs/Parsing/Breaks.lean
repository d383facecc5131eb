import TolerantExpr.Proofs.Parsing.Layouts

/-!
# A blank ends a token

No token goes on behind a space, and none looks further than one character past its end. So a text
with a space in it is read in two halves, each by itself.
-/

namespace TolerantExpr.Token

/-! ### Parts of tokens -/

variable {c : Char} {cs rest : List Char}

theorem takeWhile_append_space {p : Char → Bool} (h : p ' ' = false) (cs rest : List Char) :
    (cs ++ ' ' :: rest).takeWhile p = cs.takeWhile p := by
  induction cs with
  | nil => simp [h]
  | cons c cs ih => rw [List.cons_append, List.takeWhile_cons, List.takeWhile_cons, ih]

theorem digitRun_append_space (cs rest : List Char) :
    digitRun (cs ++ ' ' :: rest) = digitRun cs := by
  cases cs with
  | nil => rfl
  | cons c cs =>
    rw [List.cons_append, digitRun, digitRun, takeWhile_append_space (by decide)]

theorem pointPart_append_space (cs rest : List Char) :
    pointPart (cs ++ ' ' :: rest) = pointPart cs := by
  cases cs with
  | nil => rfl
  | cons c cs =>
    by_cases hc : c = '.'
    · subst hc
      rw [List.cons_append, pointPart, pointPart, digitRun_append_space]
    · rw [pointPart_eq_nil (by simpa using hc), pointPart_eq_nil (by simpa using hc)]

theorem signPart_append_space (cs rest : List Char) :
    signPart (cs ++ ' ' :: rest) = signPart cs := by
  cases cs with
  | nil => rfl
  | cons c cs =>
    unfold signPart
    rw [List.cons_append]
    split <;> simp_all

theorem exponentPart_append_space (cs rest : List Char) :
    exponentPart (cs ++ ' ' :: rest) = exponentPart cs := by
  cases cs with
  | nil => rfl
  | cons c cs =>
    have hsign := (signPart_isPrefix cs).length_le
    rw [List.cons_append, exponentPart, exponentPart, signPart_append_space,
      List.drop_append_of_le_length hsign, digitRun_append_space]

theorem hexPart_append_space (cs rest : List Char) :
    hexPart (cs ++ ' ' :: rest) = hexPart cs := by
  have hspace : isHexDigit ' ' = false := by decide
  have hother : ∀ {cs : List Char}, (∀ c ∈ cs.head?, c ≠ '0') → hexPart cs = [] := by
    intro cs h
    rcases hexPart_cases cs with hnil | ⟨x, d, ds, heq, -⟩
    · exact hnil
    · have hprefix := hexPart_isPrefix cs
      rw [heq] at hprefix
      obtain ⟨ws, rfl⟩ := hprefix
      exact absurd rfl (h _ rfl)
  rcases cs with _ | ⟨c, cs⟩
  · rfl
  by_cases hc : c = '0'
  · subst hc
    rcases cs with _ | ⟨x, _ | ⟨h, cs⟩⟩
    · rw [List.singleton_append]
      cases rest with
      | nil => rfl
      | cons d rest => rw [hexPart, if_neg (by simp)]; rfl
    · rw [List.cons_append, List.singleton_append, hexPart, if_neg (by simp [hspace])]
      rfl
    · rw [List.cons_append, List.cons_append, List.cons_append, hexPart, hexPart,
        takeWhile_append_space (by decide)]
  · rw [hother (by simpa using hc), hother (by simpa using hc)]

theorem number?_append_space (cs rest : List Char) :
    number? (cs ++ ' ' :: rest) = number? cs := by
  have hwhole := (digitRun_isPrefix cs).length_le
  have hmantissa := (prefix_of_drop (digitRun_isPrefix cs) (pointPart_isPrefix _)).length_le
  unfold number?
  simp only [digitRun_append_space, List.drop_append_of_le_length hwhole, pointPart_append_space,
    List.drop_append_of_le_length hmantissa, exponentPart_append_space, hexPart_append_space]

/-- A symbol has at most two characters. -/
theorem symbol?_take_two (c d : Char) (cs : List Char) :
    symbol? (c :: d :: cs) = symbol? [c, d] := by
  generalize hr : symbol? [c, d] = r
  unfold symbol? at hr
  split at hr
  case h_7 h heq | h_8 h _ heq | h_9 h _ heq =>
    cases heq
    rw [← hr, symbol?]
    all_goals
      rintro _ ⟨⟩
      solve_by_elim
  case h_20 =>
    rw [← hr, symbol?]
    all_goals
      rintro _ ⟨⟩
      solve_by_elim
  all_goals
    rename_i heq
    cases heq
    exact hr

/-- A space is the second character of no symbol. -/
theorem symbol?_space (c : Char) : symbol? [c, ' '] = symbol? [c] := by
  generalize hr : symbol? [c] = r
  unfold symbol? at hr
  split at hr
  case h_7 heq | h_8 heq | h_9 heq =>
    cases heq
    exact hr
  case h_20 =>
    rw [← hr, symbol?]
    all_goals
      rintro _ heq
      obtain ⟨rfl, heq⟩ := List.cons.inj heq
      first
      | solve_by_elim
      | exact absurd heq (by simp)
  all_goals
    rename_i heq
    cases heq
    try exact hr

theorem symbol?_append_space (cs rest : List Char) :
    symbol? (cs ++ ' ' :: rest) = symbol? cs := by
  rcases cs with _ | ⟨c, _ | ⟨d, cs⟩⟩
  · rfl
  · exact (symbol?_take_two c ' ' rest).trans (symbol?_space c)
  · exact (symbol?_take_two c d _).trans (symbol?_take_two c d cs).symm

theorem length_of_symbol? {t : Token} {n : Nat} (h : symbol? cs = some (t, n)) :
    n ≤ cs.length := by
  unfold symbol? at h
  split at h <;> cases h <;> simp

/-! ### Tokens -/

/-- The text of a token ends before a space, and the token does not depend on what is behind
that. -/
theorem read_append_space (c : Char) (cs rest : List Char) :
    read c (cs ++ ' ' :: rest) = read c cs ∧ (read c cs).2 ≤ cs.length := by
  have hnumber := number?_append_space (c :: cs) rest
  have hsymbol := symbol?_append_space (c :: cs) rest
  rw [List.cons_append] at hnumber hsymbol
  unfold read
  rw [takeWhile_append_space (by decide), hnumber, hsymbol]
  refine ⟨rfl, ?_⟩
  dsimp only
  split
  · exact (List.takeWhile_prefix _).length_le
  cases hn : number? (c :: cs) with
  | some r =>
    have hlen := (spells_of_number? hn).2.length_le
    rw [List.length_cons] at hlen
    dsimp only
    omega
  | none =>
    cases hs : symbol? (c :: cs) with
    | some r =>
      have hlen := length_of_symbol? hs
      rw [List.length_cons] at hlen
      dsimp only
      omega
    | none => exact Nat.zero_le _

/-- A text with a space in it is read in two halves. -/
theorem scan_append_space (offset : Nat) (cs rest : List Char) :
    scan offset (cs ++ ' ' :: rest) = scan offset cs ++ scan (offset + byteLength cs + 1) rest := by
  induction hlen : cs.length using Nat.strongRecOn generalizing offset cs with
  | ind k ih =>
    cases cs with
    | nil =>
      have hspace : ∀ c ∈ [' '], Text.isTokenBlank c = true :=
        List.forall_mem_singleton.mpr (by decide)
      have hscan := Layout.scan_blanks hspace offset rest
      have hnil : scan offset [] = [] := by rw [scan]
      rw [hnil]
      exact hscan
    | cons c cs =>
      rw [List.length_cons] at hlen
      rw [List.cons_append]
      by_cases hc : Text.isTokenBlank c = true
      · rw [scan, if_pos hc, scan, if_pos hc, ih _ (by omega) _ _ rfl, byteLength_cons]
        congr 2
        omega
      · rw [Bool.not_eq_true] at hc
        obtain ⟨hread, hle⟩ := read_append_space c cs rest
        generalize hr : read c cs = r at hread hle
        obtain ⟨t, n⟩ := r
        have hlt : (cs.drop n).length < k := by
          rw [List.length_drop]
          omega
        have htext : byteLength cs = byteLength (cs.take n) + byteLength (cs.drop n) := by
          rw [← byteLength_append, List.take_append_drop]
        dsimp only at hle
        rw [Layout.scan_token hc hread, Layout.scan_token hc hr, List.take_append_of_le_length hle,
          List.drop_append_of_le_length hle, ih _ hlt _ _ rfl, List.cons_append, byteLength_cons,
          byteLength_cons, htext]
        congr 3
        omega

end TolerantExpr.Token
