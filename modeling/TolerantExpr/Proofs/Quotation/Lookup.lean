import TolerantExpr.Proofs.Quotation.Skeletons

/-!
# Looking up a placeholder

The excerpts of a text are sorted by where their placeholders begin, and no two of them begin at one
place. So the excerpt of a span can be looked for by halving the list: that finds the one excerpt
whose placeholder takes up the span, if there is one.
-/

namespace TolerantExpr

/-! ### Halving a sorted list -/

section

variable {α : Type} {xs after : List α} {x y : α} {key : α → Nat} {k : Nat}

theorem length_of_middle (h : xs.drop (xs.length / 2) = x :: after) :
    (xs.take (xs.length / 2)).length < xs.length ∧ after.length < xs.length := by
  have hlength := congrArg List.length h
  rw [List.length_drop, List.length_cons] at hlength
  rw [List.length_take]
  omega

/-- The element of a key, looked for by halving a list that is sorted by keys. -/
def bisect (key : α → Nat) (k : Nat) (xs : List α) : Option α :=
  match _middle : xs.drop (xs.length / 2) with
  | [] => none
  | x :: after =>
    if key x = k then some x
    else if key x < k then bisect key k after
    else bisect key k (xs.take (xs.length / 2))
termination_by xs.length
decreasing_by
  · exact (length_of_middle _middle).2
  · exact (length_of_middle _middle).1

/-- In a list that is sorted by its keys, the search ends at the element of the key. -/
theorem bisect_eq_some_iff (h : xs.Pairwise fun x y => key x < key y) :
    bisect key k xs = some y ↔ y ∈ xs ∧ key y = k := by
  induction hn : xs.length using Nat.strongRecOn generalizing xs with
  | ind n ih =>
    subst hn
    have hsplit := List.take_append_drop (xs.length / 2) xs
    rw [bisect]
    split
    · -- only an empty list has nothing behind its middle
      rename_i hmiddle
      have hempty : xs = [] := by
        rw [← List.length_eq_zero_iff]
        have := List.drop_eq_nil_iff.mp hmiddle
        omega
      simp [hempty]
    · rename_i x after hmiddle
      obtain ⟨hbefore, hafter⟩ := length_of_middle hmiddle
      rw [hmiddle] at hsplit
      generalize xs.take (xs.length / 2) = before at hsplit hbefore ⊢
      obtain ⟨hfirst, hrest, hless⟩ := List.pairwise_append.mp (hsplit ▸ h)
      obtain ⟨hx, hlast⟩ := List.pairwise_cons.mp hrest
      have hbelow : ∀ z ∈ before, key z < key x := fun z hz => hless z hz x List.mem_cons_self
      rw [← hsplit, List.mem_append, List.mem_cons]
      split
      · rename_i hkey
        rw [Option.some.injEq]
        constructor
        · rintro rfl
          exact ⟨.inr (.inl rfl), hkey⟩
        · rintro ⟨hy | rfl | hy, hk⟩
          · exact absurd (hbelow y hy) (by omega)
          · rfl
          · exact absurd (hx y hy) (by omega)
      · split
        · rw [ih _ hafter hlast rfl]
          constructor
          · exact fun ⟨hy, hk⟩ => ⟨.inr (.inr hy), hk⟩
          · rintro ⟨hy | rfl | hy, hk⟩
            · exact absurd (hbelow y hy) (by omega)
            · exact absurd hk ‹_›
            · exact ⟨hy, hk⟩
        · rw [ih _ hbefore hfirst rfl]
          constructor
          · exact fun ⟨hy, hk⟩ => ⟨.inl hy, hk⟩
          · rintro ⟨hy | rfl | hy, hk⟩
            · exact ⟨hy, hk⟩
            · exact absurd hk ‹_›
            · exact absurd (hx y hy) (by omega)

end

/-! ### Excerpts in order -/

/-- One excerpt comes before another one, in the text as in the skeleton. -/
structure Excerpt.Before (y z : Excerpt) : Prop where
  source : y.sourceSpan.stop ≤ z.sourceSpan.start
  placeholder : y.placeholderSpan.stop < z.placeholderSpan.start

namespace Extraction

section

variable {index read written : Nat} {gap : List Char} {parts : List Part} {y : Excerpt}

theorem sourceStart_of_mem_excerptsFrom (h : y ∈ excerptsFrom index read written gap parts) :
    read + byteLength gap ≤ y.sourceSpan.start := by
  induction parts generalizing index read written gap with
  | nil => simp [excerptsFrom] at h
  | cons p parts ih =>
    rw [excerptsFrom, List.mem_cons] at h
    rcases h with rfl | h
    · exact Nat.le_refl _
    · have hstart := ih h
      simp only [Part.excerpt, Span.ofText] at hstart
      omega

theorem ordered_excerptsFrom (index read written : Nat) (gap : List Char) (parts : List Part) :
    (excerptsFrom index read written gap parts).Pairwise Excerpt.Before := by
  induction parts generalizing index read written gap with
  | nil => exact .nil
  | cons p parts ih =>
    refine .cons (fun y hy => ⟨?_, ?_⟩) (ih ..)
    · exact (Nat.le_add_right _ _).trans (sourceStart_of_mem_excerptsFrom hy)
    · have := start_of_mem_excerptsFrom hy
      omega

/-- Each excerpt is that of a part. -/
theorem exists_part_of_mem_excerptsFrom (h : y ∈ excerptsFrom index read written gap parts) :
    ∃ p ∈ parts, ∃ i r w, y = p.excerpt i r w := by
  induction parts generalizing index read written gap with
  | nil => simp [excerptsFrom] at h
  | cons p parts ih =>
    rw [excerptsFrom, List.mem_cons] at h
    rcases h with rfl | h
    · exact ⟨p, List.mem_cons_self, _, _, _, rfl⟩
    · obtain ⟨q, hq, i, r, w, rfl⟩ := ih h
      exact ⟨q, List.mem_cons_of_mem _ hq, i, r, w, rfl⟩

theorem byteLength_placeholderName_pos (index : Nat) :
    0 < byteLength (placeholderName index).toList := by
  rw [byteLength_toList, placeholderName, String.utf8ByteSize_append]
  exact Nat.add_pos_left (by decide) _

theorem placeholder_of_mem_excerptsFrom (h : y ∈ excerptsFrom index read written gap parts) :
    y.placeholderSpan.start < y.placeholderSpan.stop := by
  obtain ⟨p, -, i, r, w, rfl⟩ := exists_part_of_mem_excerptsFrom h
  exact Nat.lt_add_of_pos_right (byteLength_placeholderName_pos i)

end

/-! ### The excerpt of a span -/

/-- The excerpt whose placeholder takes up a span, looked for by where it begins. -/
def searchAt? (x : Extraction) (span : Span) : Option Excerpt :=
  (bisect (fun y => y.placeholderSpan.start) span.start x.excerpts).filter
    fun y => y.placeholderSpan = span

section

variable {x : Extraction}

/-- Placeholders are told apart by where they begin. -/
theorem starts_of_ordered (h : x.excerpts.Pairwise Excerpt.Before)
    (hne : ∀ y ∈ x.excerpts, y.placeholderSpan.start < y.placeholderSpan.stop) :
    x.excerpts.Pairwise fun y z => y.placeholderSpan.start < z.placeholderSpan.start :=
  h.imp_of_mem fun hy _ hyz => (hne _ hy).trans hyz.placeholder

variable (h : x.excerpts.Pairwise fun y z => y.placeholderSpan.start < z.placeholderSpan.start)
include h

theorem excerptAt?_eq_some_iff {span : Span} {y : Excerpt} :
    x.excerptAt? span = some y ↔ y ∈ x.excerpts ∧ y.placeholderSpan = span := by
  constructor
  · intro hy
    unfold excerptAt? at hy
    exact ⟨List.mem_of_find?_eq_some hy, by simpa using List.find?_some hy⟩
  · rintro ⟨hy, rfl⟩
    obtain ⟨before, after, hx⟩ := List.append_of_mem hy
    rw [hx, List.pairwise_append] at h
    exact excerptAt?_of_split hx fun z hz => Nat.ne_of_lt (h.2.2 z hz y List.mem_cons_self)

/-- Halving the list finds the excerpt that is there. -/
theorem searchAt?_eq_excerptAt? (span : Span) : x.searchAt? span = x.excerptAt? span := by
  refine Option.ext fun y => ?_
  rw [excerptAt?_eq_some_iff h, searchAt?, Option.filter_eq_some_iff, bisect_eq_some_iff h,
    decide_eq_true_eq]
  constructor
  · rintro ⟨⟨hy, -⟩, hspan⟩
    exact ⟨hy, hspan⟩
  · rintro ⟨hy, hspan⟩
    exact ⟨⟨hy, congrArg Span.start hspan⟩, hspan⟩

end

end Extraction
end TolerantExpr
