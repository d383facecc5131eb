import Mathlib.Data.List.Forall2

/-!
# Computations that may fail

A part of the build of a tree, and a part of a call, is a computation with a state that may fail.
What it leads to is stated once for a result and once for an error, and carried over to
computations in sequence.
-/

namespace TolerantExpr

variable {ε α β σ : Type}

/-- A computation in sequence succeeds when both of its parts do. -/
theorem except_bind_eq_ok_iff {m : Except ε α} {k : α → Except ε β} {b : β} :
    (m >>= k) = .ok b ↔ ∃ a, m = .ok a ∧ k a = .ok b := by
  cases m with
  | ok a =>
    constructor
    · exact fun h => ⟨a, rfl, h⟩
    · intro h
      obtain ⟨_, ⟨⟩, h⟩ := h
      exact h
  | error e =>
    constructor
    · intro h
      cases h
    · intro h
      obtain ⟨_, ⟨⟩, _⟩ := h

/-- It fails when the first part does, or the second one after it. -/
theorem except_bind_eq_error_iff {m : Except ε α} {k : α → Except ε β} {e : ε} :
    (m >>= k) = .error e ↔ m = .error e ∨ ∃ a, m = .ok a ∧ k a = .error e := by
  cases m with
  | ok a =>
    constructor
    · exact fun h => .inr ⟨a, rfl, h⟩
    · rintro (⟨⟨⟩⟩ | ⟨_, ⟨⟩, h⟩)
      exact h
  | error e' =>
    constructor
    · exact fun h => .inl (congrArg Except.error (Except.error.inj h))
    · rintro (h | ⟨_, ⟨⟩, _⟩)
      exact congrArg Except.error (Except.error.inj h)

theorem except_mapError_eq_ok_iff {ε' : Type} {m : Except ε α} {f : ε → ε'} {a : α} :
    m.mapError f = .ok a ↔ m = .ok a := by
  cases m with
  | ok b => constructor <;> exact fun h => congrArg Except.ok (Except.ok.inj h)
  | error e => constructor <;> intro h <;> cases h

theorem except_mapError_eq_error_iff {ε' : Type} {m : Except ε α} {f : ε → ε'} {e' : ε'} :
    m.mapError f = .error e' ↔ ∃ e, m = .error e ∧ f e = e' := by
  cases m with
  | ok b =>
    constructor
    · intro h
      cases h
    · rintro ⟨_, ⟨⟩, _⟩
  | error e =>
    constructor
    · exact fun h => ⟨e, rfl, Except.error.inj h⟩
    · rintro ⟨_, ⟨⟩, rfl⟩
      rfl

theorem except_map_bind {γ : Type} (m : Except ε α) (k : α → Except ε β) (f : β → γ) :
    (m >>= k).map f = m >>= fun a => (k a).map f := by
  cases m <;> rfl

/-- Where a computation leads: to a result of which `Q` holds, or to an error of which `E` holds. -/
def LeadsTo (m : Except ε α) (Q : α → Prop) (E : ε → Prop) : Prop :=
  match m with
  | .ok a => Q a
  | .error e => E e

theorem LeadsTo.bind {m : Except ε α} {k : α → Except ε β} {Q : α → Prop} {R : β → Prop}
    {E : ε → Prop} (hm : LeadsTo m Q E) (hk : ∀ a, Q a → LeadsTo (k a) R E) :
    LeadsTo (m >>= k) R E := by
  cases m with
  | ok a => exact hk a hm
  | error e => exact hm

/-- A computation over a list that is one for each element in turn succeeds when all of them do. -/
theorem except_map_eq_ok_iff (f : α → Except ε β) (g : List α → Except ε (List β))
    (hnil : g [] = .ok [])
    (hcons : ∀ x xs, g (x :: xs) = f x >>= fun y => g xs >>= fun ys => .ok (y :: ys))
    {xs : List α} {ys : List β} :
    g xs = .ok ys ↔ List.Forall₂ (fun x y => f x = .ok y) xs ys := by
  induction xs generalizing ys with
  | nil =>
    rw [hnil, List.forall₂_nil_left_iff]
    constructor
    · exact fun h => (Except.ok.inj h).symm
    · intro heq
      subst heq
      rfl
  | cons x xs ih =>
    rw [hcons, except_bind_eq_ok_iff, List.forall₂_cons_left_iff]
    refine exists_congr fun y => ?_
    rw [except_bind_eq_ok_iff]
    simp only [ih]
    constructor
    · intro h
      obtain ⟨hy, ys, hys, h⟩ := h
      exact ⟨ys, hy, hys, (Except.ok.inj h).symm⟩
    · intro h
      obtain ⟨ys, hy, hys, rfl⟩ := h
      exact ⟨hy, ys, hys, rfl⟩

/-- A computation in sequence stops at the first error. -/
theorem run_bind (m : ExceptT ε (StateM σ) α) (k : α → ExceptT ε (StateM σ) β) (s : σ) :
    (m >>= k).run s = match m.run s with
      | (.ok a, t) => (k a).run t
      | (.error e, t) => (.error e, t) := by
  change (match m.run s with | (r, t) => ExceptT.bindCont k r t) = _
  obtain ⟨r | r, t⟩ := m.run s <;> rfl

/-- Where a computation leads from a state: to a result and a state of which `Q` holds, or to an
error and a state of which `E` holds. -/
def Meets (m : ExceptT ε (StateM σ) α) (s : σ) (Q : α → σ → Prop) (E : ε → σ → Prop) : Prop :=
  match m.run s with
  | (.ok a, t) => Q a t
  | (.error e, t) => E e t

section Meets

variable {m : ExceptT ε (StateM σ) α} {k : α → ExceptT ε (StateM σ) β} {s : σ}
  {Q R : α → σ → Prop} {S : β → σ → Prop} {E : ε → σ → Prop}

theorem meets_pure {a : α} (h : Q a s) : Meets (pure a) s Q E := h

theorem meets_throw {e : ε} (h : E e s) : Meets (throw e) s Q E := h

theorem Meets.bind (hm : Meets m s Q E) (hk : ∀ a t, Q a t → Meets (k a) t S E) :
    Meets (m >>= k) s S E := by
  unfold Meets at hm ⊢
  rw [run_bind]
  rcases hrun : m.run s with ⟨e | a, t⟩
  · rw [hrun] at hm
    exact hm
  · rw [hrun] at hm
    exact hk a t hm

theorem Meets.imp {F : ε → σ → Prop} (hm : Meets m s Q E) (hQ : ∀ a t, Q a t → R a t)
    (hE : ∀ e t, E e t → F e t) : Meets m s R F := by
  unfold Meets at hm ⊢
  rcases hrun : m.run s with ⟨e | a, t⟩ <;> rw [hrun] at hm
  · exact hE e t hm
  · exact hQ a t hm

/-- A second fact about the result. -/
theorem Meets.and (hQ : Meets m s Q fun _ _ => True) (hR : Meets m s R E) :
    Meets m s (fun a t => Q a t ∧ R a t) E := by
  unfold Meets at hQ hR ⊢
  rcases hrun : m.run s with ⟨e | a, t⟩ <;> rw [hrun] at hQ hR
  · exact hR
  · exact ⟨hQ, hR⟩

end Meets

end TolerantExpr
