import Mathlib.Data.List.Forall2

/-!
# Lists

Facts about `List.Forall₂` whose premises hold of the members of one list only, as the hypotheses
of an induction over the operands of a tree do; and what a list with separators is made of.
-/

namespace TolerantExpr

variable {α β γ : Type}

theorem forall₂_comp_of_mem {R : α → β → Prop} {S : β → γ → Prop} {T : α → γ → Prop}
    {xs : List α} {ys : List β} {zs : List γ} (hxy : List.Forall₂ R xs ys)
    (hyz : List.Forall₂ S ys zs) (h : ∀ x ∈ xs, ∀ y z, R x y → S y z → T x z) :
    List.Forall₂ T xs zs := by
  induction hxy generalizing zs with
  | nil =>
    cases hyz
    exact .nil
  | cons hR _ ih =>
    cases hyz with
    | cons hS hyz =>
      refine .cons (h _ List.mem_cons_self _ _ hR hS) (ih hyz ?_)
      exact fun x hx => h x (List.mem_cons_of_mem _ hx)

theorem forall₂_antisymm_of_mem {R : α → α → Prop} {xs ys : List α} (hxy : List.Forall₂ R xs ys)
    (hyx : List.Forall₂ R ys xs) (h : ∀ y ∈ ys, ∀ x, R x y → R y x → x = y) : xs = ys := by
  induction hxy with
  | nil => rfl
  | cons hR _ ih =>
    cases hyx with
    | cons hR' hyx =>
      rw [h _ List.mem_cons_self _ hR hR', ih hyx fun y hy => h y (List.mem_cons_of_mem _ hy)]

/-- A relation that follows for members. -/
theorem forall₂_imp_of_mem {R S : α → β → Prop} {xs : List α} {ys : List β}
    (h : List.Forall₂ R xs ys) (hRS : ∀ x ∈ xs, ∀ y ∈ ys, R x y → S x y) : List.Forall₂ S xs ys := by
  induction h with
  | nil => exact .nil
  | cons hR _ ih =>
    refine .cons (hRS _ List.mem_cons_self _ List.mem_cons_self hR) (ih fun x hx y hy => ?_)
    exact hRS x (List.mem_cons_of_mem _ hx) y (List.mem_cons_of_mem _ hy)

/-- Two lists have the same images if their elements do, one by one. -/
theorem map_eq_map_iff {f : α → γ} {g : β → γ} {xs : List α} {ys : List β} :
    xs.map f = ys.map g ↔ List.Forall₂ (fun x y => f x = g y) xs ys := by
  rw [← List.forall₂_eq_eq_eq, List.forall₂_map_left_iff, List.forall₂_map_right_iff]

theorem exists_of_forall₂_of_mem_right {S : α → β → Prop} {xs : List α} {ys : List β}
    (h : List.Forall₂ S xs ys) {y : β} (hy : y ∈ ys) : ∃ x ∈ xs, S x y := by
  induction h with
  | nil => simp at hy
  | cons hS _ ih =>
    rcases List.mem_cons.mp hy with rfl | hy
    · exact ⟨_, List.mem_cons_self, hS⟩
    · obtain ⟨x, hx, hS⟩ := ih hy
      exact ⟨x, List.mem_cons_of_mem _ hx, hS⟩

theorem exists_forall₂_of_mem {R : α → β → Prop} {xs : List α} (h : ∀ x ∈ xs, ∃ y, R x y) :
    ∃ ys, List.Forall₂ R xs ys := by
  induction xs with
  | nil => exact ⟨[], .nil⟩
  | cons x xs ih =>
    obtain ⟨y, hy⟩ := h x List.mem_cons_self
    obtain ⟨ys, hys⟩ := ih fun z hz => h z (List.mem_cons_of_mem _ hz)
    exact ⟨y :: ys, .cons hy hys⟩

theorem forall_mem_iff_of_forall₂ {P : α → Prop} {Q : β → Prop} {xs : List α} {ys : List β}
    (h : List.Forall₂ (fun x y => P x ↔ Q y) xs ys) : (∀ x ∈ xs, P x) ↔ ∀ y ∈ ys, Q y := by
  constructor
  · intro hxs y hy
    obtain ⟨x, hx, hxy⟩ := exists_of_forall₂_of_mem_right h hy
    exact hxy.mp (hxs x hx)
  · intro hys x hx
    obtain ⟨y, hy, hxy⟩ := exists_of_forall₂_of_mem_right h.flip hx
    exact hxy.mpr (hys y hy)

theorem exists_of_forall₂_append_cons {R : α → β → Prop} {as : List α} {xs ys : List β} {x : β}
    (h : List.Forall₂ R as (xs ++ x :: ys)) :
    ∃ bs b cs, as = bs ++ b :: cs ∧ List.Forall₂ R bs xs ∧ R b x ∧ List.Forall₂ R cs ys := by
  induction xs generalizing as with
  | nil =>
    obtain ⟨b, cs, hb, hcs, rfl⟩ := List.forall₂_cons_right_iff.mp h
    exact ⟨[], b, cs, rfl, .nil, hb, hcs⟩
  | cons z xs ih =>
    obtain ⟨c, as, hc, has, rfl⟩ := List.forall₂_cons_right_iff.mp h
    obtain ⟨bs, b, cs, rfl, hbs, hb, hcs⟩ := ih has
    exact ⟨c :: bs, b, cs, rfl, .cons hc hbs, hb, hcs⟩

theorem forall₂_unique_of_mem {R : α → β → Prop} {xs : List α} {ys zs : List β}
    (hy : List.Forall₂ R xs ys) (hz : List.Forall₂ R xs zs)
    (h : ∀ x ∈ xs, ∀ y z, R x y → R x z → y = z) : ys = zs := by
  induction hy generalizing zs with
  | nil =>
    cases hz
    rfl
  | cons hR _ ih =>
    cases hz with
    | cons hR' hz =>
      rw [h _ List.mem_cons_self _ _ hR hR', ih hz fun x hx => h x (List.mem_cons_of_mem _ hx)]

/-- Lists with the same keys in the same order are related if each key has a related pair. -/
theorem forall₂_of_map_eq {R : α → β → Prop} {f : α → γ} {g : β → γ} {xs : List α} {ys : List β}
    (h : xs.map f = ys.map g) (hkeys : (ys.map g).Nodup)
    (hR : ∀ y ∈ ys, ∃ x ∈ xs, f x = g y ∧ R x y) : List.Forall₂ R xs ys := by
  induction xs generalizing ys with
  | nil =>
    rw [List.map_nil, eq_comm, List.map_eq_nil_iff] at h
    subst h
    exact .nil
  | cons x xs ih =>
    obtain ⟨y, ys, rfl, hy, hys⟩ := List.map_eq_cons_iff.mp h.symm
    rw [List.map_cons, List.nodup_cons, hy, hys] at hkeys
    rw [List.forall_mem_cons] at hR
    obtain ⟨⟨x', hx', hkey, hxy⟩, hrest⟩ := hR
    refine .cons ?_ (ih hys.symm (hys ▸ hkeys.2) fun z hz => ?_)
    · rcases List.mem_cons.mp hx' with rfl | hx'
      · exact hxy
      · exact absurd (List.mem_map_of_mem hx') (hkey.trans hy ▸ hkeys.1)
    · obtain ⟨w, hw, hkey, hwz⟩ := hrest z hz
      refine ⟨w, ?_, hkey, hwz⟩
      rcases List.mem_cons.mp hw with rfl | hw
      · exact absurd (hys ▸ hkey ▸ List.mem_map_of_mem hz) hkeys.1
      · exact hw

theorem exists_map_eq_map {f : α → γ} {g : β → γ} {xs : List α} (h : ∀ x ∈ xs, ∃ y, f x = g y) :
    ∃ ys : List β, xs.map f = ys.map g := by
  induction xs with
  | nil => exact ⟨[], rfl⟩
  | cons x xs ih =>
    obtain ⟨y, hy⟩ := h x List.mem_cons_self
    obtain ⟨ys, hys⟩ := ih fun z hz => h z (List.mem_cons_of_mem _ hz)
    exact ⟨y :: ys, by rw [List.map_cons, List.map_cons, hy, hys]⟩

/-- Each element but the first one has a separator in front of it. -/
theorem intercalate_cons (sep xs : List α) (yss : List (List α)) :
    List.intercalate sep (xs :: yss) = xs ++ yss.flatMap (sep ++ ·) := by
  induction yss generalizing xs with
  | nil => simp [List.intercalate]
  | cons ys yss ih =>
    rw [List.flatMap_cons, List.append_assoc, ← ih ys]
    simp [List.intercalate]

end TolerantExpr
