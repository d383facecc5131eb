import TolerantExpr.Proofs.Typing.Records
import Mathlib.Data.List.Sort

/-!
# Orders of parameters

New parameters draw their orders from a counter that stays above all of them. A parameter that is
taken over keeps the order that it has elsewhere, and this may be the order of another entry. As
long as it is not, entries of different names have different orders, and then nothing that is read
off a registry depends on the sequence in which its entries are listed.
-/

namespace TolerantExpr.Registry

variable {r s : Registry}

/-! ### Requests -/

/-- What a request does to the orders: nothing, or a parameter keeps its order under a change, or
the next order is given to a new name. -/
theorem after_cases (hr : r.Distinct) (q : Request) :
    (r.after q).entries = r.entries ∧ (r.after q).nextOrder = r.nextOrder ∨
    (∃ p u, r.get? u.name = some p ∧ u.order = p.order ∧ r.after q = r.put u) ∨
    ∃ name, ¬r.contains name = true ∧
      (r.after q).entries = (r.put { name := name, order := r.nextOrder }).entries ∧
      (r.after q).nextOrder = r.nextOrder + 1 := by
  cases h : q.serve r with
  | error e s =>
    rw [after_of_refused hr h]
    exact .inl ⟨rfl, rfl⟩
  | ok s =>
    rw [after, h]
    cases q with
    | mention name =>
      obtain rfl := Changed.ok.inj h
      obtain ⟨hknown, hnew⟩ := nextOrder_mention r name
      rcases entries_mention r name with ⟨hc, he⟩ | ⟨hc, he⟩
      · exact .inl ⟨he, hknown hc⟩
      · refine .inr (.inr ⟨name, hc, ?_, hnew hc⟩)
        rw [put_of_not_contains (p := { name := name, order := r.nextOrder }) hc]
        exact he
    | change name d =>
      rw [Request.serve_change] at h
      obtain ⟨p, u, hp, hu, rfl⟩ := change_eq_ok_iff.mp h
      obtain ⟨hpu, -⟩ := Demand.apply_spec hu
      have hname : u.name = name := hpu.name.trans (get?_eq_some hp).2
      exact .inr (.inl ⟨p, u, hname ▸ hp, hpu.order, rfl⟩)

/-! ### The counter -/

/-- Names are distinct, and every order is below the next one. -/
structure Counted (r : Registry) : Prop where
  distinct : r.Distinct
  bounded : ∀ p ∈ r.entries, p.order < r.nextOrder

theorem Initial.counted (h : Initial r) : r.Counted := by
  refine ⟨h.wellKept.distinct, fun p hp => ?_⟩
  exact h.wellKept.ordered.bounded _ (List.mem_map_of_mem hp)

theorem nextOrder_put (r : Registry) (p : OpenParameter) : (r.put p).nextOrder = r.nextOrder := by
  unfold put
  split <;> rfl

theorem nextOrder_after_le (hr : r.Distinct) (q : Request) :
    (r.after q).nextOrder ≤ r.nextOrder + 1 := by
  rcases after_cases hr q with ⟨-, hn⟩ | ⟨p, u, -, -, ha⟩ | ⟨name, -, -, hn⟩
  · exact hn.le.trans (Nat.le_succ _)
  · rw [ha, nextOrder_put]
    exact Nat.le_succ _
  · exact hn.le

theorem Counted.after (h : r.Counted) (q : Request) : (r.after q).Counted := by
  rcases after_cases h.distinct q with ⟨he, hn⟩ | ⟨p, u, hp, horder, ha⟩ | ⟨name, hc, he, hn⟩
  · refine ⟨?_, fun p hp => ?_⟩
    · rw [Distinct, he]
      exact h.distinct
    · rw [hn]
      exact h.bounded p (he ▸ hp)
  · rw [ha]
    refine ⟨distinct_put h.distinct u, fun v hv => ?_⟩
    rw [nextOrder_put]
    rcases mem_put_iff.mp hv with rfl | ⟨hv, -⟩
    · exact horder ▸ h.bounded p (get?_eq_some hp).1
    · exact h.bounded v hv
  · refine ⟨?_, fun v hv => ?_⟩
    · rw [Distinct, he]
      exact distinct_put h.distinct _
    · rw [hn]
      rw [he] at hv
      rcases mem_put_iff.mp hv with rfl | ⟨hv, -⟩
      · exact Nat.lt_succ_self _
      · exact Nat.lt_succ_of_lt (h.bounded v hv)

theorem Counted.adopt (h : r.Counted) (p : Parameter) : (r.adopt p).Counted := by
  refine ⟨distinct_put h.distinct p.toOpen, fun v hv => ?_⟩
  change v ∈ (r.put p.toOpen).entries at hv
  change v.order < max r.nextOrder (p.toOpen.order + 1)
  rcases mem_put_iff.mp hv with rfl | ⟨hv, -⟩
  · omega
  · have := h.bounded v hv
    omega

/-! ### Different orders -/

/-- Entries of different names have different orders. -/
def OrdersDiffer (r : Registry) : Prop :=
  ∀ p ∈ r.entries, ∀ q ∈ r.entries, p.name ≠ q.name → p.order ≠ q.order

/-- An entry of another name has the order of the parameter. -/
def Clashes (r : Registry) (p : Parameter) : Prop :=
  ∃ q ∈ r.entries, q.name ≠ p.name ∧ q.order = p.order

theorem Initial.ordersDiffer (h : Initial r) : r.OrdersDiffer := by
  have horders : r.orders.Nodup := h.wellKept.ordered.increasing.imp Nat.ne_of_lt
  intro p hp q hq hname horder
  exact hname (congrArg _ (List.inj_on_of_nodup_map horders hp hq horder))

theorem ordersDiffer_put_iff {p : OpenParameter} (h : r.OrdersDiffer) :
    (r.put p).OrdersDiffer ↔ ∀ q ∈ r.entries, q.name ≠ p.name → q.order ≠ p.order := by
  constructor
  · intro hput q hq hname
    exact hput q (mem_put_iff.mpr (.inr ⟨hq, hname⟩)) p (mem_put_iff.mpr (.inl rfl)) hname
  · intro hp u hu v hv hname
    rcases mem_put_iff.mp hu with rfl | ⟨hu', hup⟩ <;>
      rcases mem_put_iff.mp hv with rfl | ⟨hv', hvp⟩
    · exact absurd rfl hname
    · exact (hp v hv' hvp).symm
    · exact hp u hu' hup
    · exact h u hu' v hv' hname

/-- Requests give no order twice. -/
theorem OrdersDiffer.after (h : r.OrdersDiffer) (hr : r.Counted) (q : Request) :
    (r.after q).OrdersDiffer := by
  rcases after_cases hr.distinct q with ⟨he, -⟩ | ⟨p, u, hp, horder, ha⟩ | ⟨name, hc, he, -⟩
  · rw [OrdersDiffer, he]
    exact h
  · rw [ha, ordersDiffer_put_iff h]
    obtain ⟨hmem, hname⟩ := get?_eq_some hp
    intro v hv hne
    rw [horder]
    exact h v hv p hmem (hname ▸ hne)
  · rw [OrdersDiffer, he]
    refine (ordersDiffer_put_iff h).mpr fun v hv _ => ?_
    exact Nat.ne_of_lt (hr.bounded v hv)

theorem ordersDiffer_adopt_iff (h : r.OrdersDiffer) (p : Parameter) :
    (r.adopt p).OrdersDiffer ↔ ¬r.Clashes p := by
  have hname : p.toOpen.name = p.name := by cases p <;> rfl
  have horder : p.toOpen.order = p.order := by cases p <;> rfl
  have hput : (r.adopt p).OrdersDiffer ↔ (r.put p.toOpen).OrdersDiffer := Iff.rfl
  rw [hput, ordersDiffer_put_iff h, hname, horder, Clashes]
  push Not
  rfl

/-! ### What depends on orders only -/

/-- The same registry, with its entries and its names listed in any sequence. -/
structure Relisted (r s : Registry) : Prop where
  entries : s.entries.Perm r.entries
  used : ∀ name, name ∈ s.used ↔ name ∈ r.used

/-- What is read off a registry does not depend on the sequence of its entries. -/
def Determined (r : Registry) : Prop :=
  ∀ s, r.Relisted s →
    s.sorted = r.sorted ∧ s.firstUndecided? = r.firstUndecided? ∧ s.fix = r.fix

theorem sorted_pairwise (r : Registry) : r.sorted.Pairwise fun p q => p.order ≤ q.order := by
  have hsorted : r.sorted.Pairwise fun p q => decide (p.order ≤ q.order) = true := by
    refine List.pairwise_mergeSort (fun p q u hpq hqu => ?_) (fun p q => ?_) r.entries
    · exact decide_eq_true ((of_decide_eq_true hpq).trans (of_decide_eq_true hqu))
    · rw [Bool.or_eq_true, decide_eq_true_eq, decide_eq_true_eq]
      exact Nat.le_total _ _
  exact hsorted.imp of_decide_eq_true

theorem OrdersDiffer.eq_of_order_eq (h : r.OrdersDiffer) (hr : r.Distinct) {p q : OpenParameter}
    (hp : p ∈ r.entries) (hq : q ∈ r.entries) (horder : p.order = q.order) : p = q := by
  by_cases hname : p.name = q.name
  · exact Option.some.inj ((get?_of_mem hr hp).symm.trans (hname ▸ get?_of_mem hr hq))
  · exact absurd horder (h p hp q hq hname)

theorem OrdersDiffer.determined (h : r.OrdersDiffer) (hr : r.Distinct) : r.Determined := by
  intro s hs
  have hperm : s.sorted.Perm r.sorted :=
    ((List.mergeSort_perm _ _).trans hs.entries).trans (List.mergeSort_perm _ _).symm
  have hsorted : s.sorted = r.sorted := by
    refine hperm.eq_of_pairwise (fun p q hp hq hpq hqp => ?_) s.sorted_pairwise r.sorted_pairwise
    have hp' := hs.entries.mem_iff.mp (List.mem_mergeSort.mp hp)
    exact h.eq_of_order_eq hr hp' (List.mem_mergeSort.mp hq) (Nat.le_antisymm hpq hqp)
  refine ⟨hsorted, ?_, ?_⟩
  · rw [firstUndecided?, hsorted, ← firstUndecided?]
  · rw [fix, hsorted, fix]
    simp only [hs.used]

/-! ### Runs with parameters taken over -/

/-- What is done to a registry: a request is made to it, or it takes over a parameter from any
registry. -/
inductive Step where
  | request (q : Request)
  | adopt (p : Parameter)
deriving DecidableEq

def step (r : Registry) : Step → Registry
  | .request q => r.after q
  | .adopt p => r.adopt p

def run (r : Registry) (steps : List Step) : Registry := steps.foldl step r

@[simp]
theorem run_nil (r : Registry) : r.run [] = r := rfl

@[simp]
theorem run_cons (r : Registry) (a : Step) (steps : List Step) :
    r.run (a :: steps) = (r.step a).run steps := rfl

/-- No parameter is taken over whose order an entry of another name has by then. -/
def Apart : Registry → List Step → Prop
  | _, [] => True
  | r, .request q :: steps => Apart (r.after q) steps
  | r, .adopt p :: steps => ¬r.Clashes p ∧ Apart (r.adopt p) steps

theorem Counted.run (h : r.Counted) (steps : List Step) : (r.run steps).Counted := by
  induction steps generalizing r with
  | nil => exact h
  | cons a steps ih =>
    cases a with
    | request q => exact ih (h.after q)
    | adopt p => exact ih (h.adopt p)

/-- Beyond the orders that are taken over, the counter goes up by one for each step at most. So a
machine word holds it, as long as those orders are not themselves at the end of its range. -/
theorem nextOrder_run_le {n : Nat} (h : r.Counted) (hn : r.nextOrder ≤ n) {steps : List Step}
    (hsteps : ∀ p, .adopt p ∈ steps → p.order < n) :
    (r.run steps).nextOrder ≤ n + steps.length := by
  induction steps generalizing r n with
  | nil => exact hn
  | cons a steps ih =>
    have hrest : ∀ p, .adopt p ∈ steps → p.order < n + 1 := fun p hp =>
      Nat.lt_succ_of_lt (hsteps p (List.mem_cons_of_mem _ hp))
    rw [run_cons, List.length_cons, Nat.add_comm steps.length, ← Nat.add_assoc]
    cases a with
    | request q =>
      exact ih (h.after q) ((nextOrder_after_le h.distinct q).trans (Nat.succ_le_succ hn)) hrest
    | adopt p =>
      refine ih (h.adopt p) ?_ hrest
      have hp : p.toOpen.order < n := by
        have := hsteps p List.mem_cons_self
        cases p <;> exact this
      exact max_le (Nat.le_succ_of_le hn) (Nat.succ_le_succ hp.le)

theorem forall_take_cons_iff {P : Registry → Prop} {a : Step} {steps : List Step} :
    (∀ k, P (r.run ((a :: steps).take k))) ↔ P r ∧ ∀ k, P ((r.step a).run (steps.take k)) := by
  constructor
  · exact fun h => ⟨h 0, fun k => h (k + 1)⟩
  · rintro ⟨hr, h⟩ (_ | k)
    · exact hr
    · exact h k

/-- Orders differ all along a run exactly if no parameter is taken over that clashes. -/
theorem ordersDiffer_run_iff (hr : r.Counted) (h : r.OrdersDiffer) (steps : List Step) :
    (∀ k, (r.run (steps.take k)).OrdersDiffer) ↔ r.Apart steps := by
  induction steps generalizing r with
  | nil => simpa [Apart] using h
  | cons a steps ih =>
    rw [forall_take_cons_iff, and_iff_right h]
    cases a with
    | request q => exact ih (hr.after q) (h.after hr q)
    | adopt p =>
      rw [Apart, ← ordersDiffer_adopt_iff h]
      constructor
      · intro hrun
        exact ⟨hrun 0, (ih (hr.adopt p) (hrun 0)).mp hrun⟩
      · rintro ⟨hp, hsteps⟩
        exact (ih (hr.adopt p) hp).mpr hsteps

/-- The orders of a registry that was reached by a run. -/
structure Numbered (r : Registry) (steps : List Step) : Prop where
  bounded : ∀ p ∈ (r.run steps).entries, p.order < (r.run steps).nextOrder
  differ : (∀ k, (r.run (steps.take k)).OrdersDiffer) ↔ r.Apart steps
  determined : (r.run steps).OrdersDiffer → (r.run steps).Determined

end TolerantExpr.Registry
