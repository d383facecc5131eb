import TolerantExpr.Engine.Basic
import TolerantExpr.Proofs.Computations
import Mathlib.Data.List.Nodup

/-!
# Slots of the cache

Between requests no slot of an engine is empty and no text has two. From such an engine, a text
that is not remembered is compiled and remembered in one step: the slot that is made for it is
filled when it compiles, and gone again when it does not.

What a text compiles to depends on the options and the formatters of the engine alone, but for the
number of the compilation.
-/

namespace TolerantExpr

/-! ### Looking up -/

section Lookup

variable {α : Type} {slots : List (String × α)} {key : String} {a : α}

theorem lookup_eq_some_iff_mem (h : (slots.map Prod.fst).Nodup) :
    slots.lookup key = some a ↔ (key, a) ∈ slots := by
  rw [List.lookup_eq_some_iff]
  constructor
  · intro hsplit
    obtain ⟨before, after, rfl, -⟩ := hsplit
    simp
  · intro hmem
    obtain ⟨before, after, rfl⟩ := List.append_of_mem hmem
    refine ⟨before, after, rfl, fun p hp => bne_iff_ne.mpr fun heq => ?_⟩
    rw [List.map_append, List.map_cons, List.nodup_append] at h
    exact h.2.2 p.1 (List.mem_map_of_mem hp) key List.mem_cons_self heq.symm

theorem lookup_eq_none_iff_not_mem : slots.lookup key = none ↔ key ∉ slots.map Prod.fst := by
  rw [List.lookup_eq_none_iff, List.mem_map]
  constructor
  · rintro h ⟨p, hp, rfl⟩
    simpa using h p hp
  · exact fun h p hp => bne_iff_ne.mpr fun heq => h ⟨p, hp, heq.symm⟩

end Lookup

namespace Engine

variable {engine : Engine} {source : String} {e : Compiled}

/-! ### Slots -/

/-- Every slot is filled, and every text has one slot at most. -/
structure Settled (engine : Engine) : Prop where
  filled : ∀ slot ∈ engine.cache, slot.2.isSome = true
  distinct : (engine.cache.map Prod.fst).Nodup

theorem settled_of_cache_nil (h : engine.cache = []) : engine.Settled := by
  constructor <;> simp [h]

theorem Settled.cached?_eq_some_iff (h : engine.Settled) :
    engine.cached? source = some e ↔ (source, some e) ∈ engine.cache := by
  rw [cached?, Option.join_eq_some_iff, lookup_eq_some_iff_mem h.distinct]

theorem Settled.cached?_eq_none_iff (h : engine.Settled) :
    engine.cached? source = none ↔ source ∉ engine.cache.map Prod.fst := by
  rw [cached?, Option.join_eq_none_iff, lookup_eq_none_iff_not_mem, or_iff_left]
  intro hempty
  have := h.filled _ ((lookup_eq_some_iff_mem h.distinct).mp hempty)
  cases this

/-- All slots count. -/
theorem Settled.size_eq (h : engine.Settled) :
    engine.size = (engine.cache.map Prod.fst).length := by
  rw [List.length_map, size, List.countP_eq_length]
  exact h.filled

theorem fill_reserve (h : source ∉ engine.cache.map Prod.fst) :
    { engine.reserve source with compiledCount := engine.compiledCount + 1 }.fill source e =
      { engine with
        cache := (source, some e) :: engine.cache, compiledCount := engine.compiledCount + 1 } := by
  rw [reserve, lookup_eq_none_iff_not_mem.mpr h, fill]
  dsimp only
  rw [List.map_cons, if_pos rfl]
  have hrest : (engine.cache.map fun slot => if slot.1 = source then (source, some e) else slot) =
      engine.cache.map id := by
    refine List.map_congr_left fun slot hslot => if_neg fun heq => ?_
    exact h (heq ▸ List.mem_map_of_mem hslot)
  rw [hrest, List.map_id]

theorem release_reserve (h : source ∉ engine.cache.map Prod.fst) :
    (engine.reserve source).release source = engine := by
  rw [reserve, lookup_eq_none_iff_not_mem.mpr h, release]
  dsimp only
  have hrest : (engine.cache.filter fun slot => !(slot.1 = source && slot.2.isNone)) =
      engine.cache := by
    refine List.filter_eq_self.mpr fun slot hslot => ?_
    have hne : slot.1 ≠ source := fun heq => h (heq ▸ List.mem_map_of_mem hslot)
    simp [hne]
  rw [List.filter_cons_of_neg (by simp), hrest]

/-! ### What a text compiles to -/

/-- Engines with the same options and formatters compile a text alike. -/
theorem compileText_congr {other : Engine} (ho : other.options = engine.options)
    (hf : other.formatters = engine.formatters) (r : Registry) :
    other.compileText source r =
      (engine.compileText source r).map fun e => { e with serial := other.compiledCount } := by
  unfold compileText
  rw [ho, hf]
  -- the number is looked at in the last stage only
  refine (bind_congr fun expr => ?_).trans (except_map_bind _ _ _).symm
  refine (bind_congr fun a => ?_).trans (except_map_bind _ _ _).symm
  refine (bind_congr fun exact => ?_).trans (except_map_bind _ _ _).symm
  refine (bind_congr fun tolerant => ?_).trans (except_map_bind _ _ _).symm
  cases a.root.type? <;> rfl

/-- A compilation is numbered by those before it. -/
theorem serial_of_compileText {r : Registry} (h : engine.compileText source r = .ok e) :
    e.serial = engine.compiledCount := by
  have hsame : engine.compileText source r = _ := compileText_congr rfl rfl r
  rw [h] at hsame
  have hserial := congrArg Compiled.serial (Except.ok.inj hsame)
  exact hserial

/-- Counting adds one for a result, and changes nothing for a failure. -/
theorem count_cases (engine : Engine) (result : Except Failure Compiled) :
    (∃ e, result = .ok e ∧
      engine.count result = (.ok e, { engine with compiledCount := engine.compiledCount + 1 })) ∨
    ∃ f, result = .error f ∧ engine.count result = (.error f, engine) := by
  cases result with
  | ok e => exact .inl ⟨e, rfl, rfl⟩
  | error f => exact .inr ⟨f, rfl, rfl⟩

/-! ### Fetching -/

theorem fetch_of_cached (h : engine.cached? source = some e) :
    engine.fetch source = (.ok e, engine) := by
  rw [fetch, h]

theorem compileText_reserve (h : source ∉ engine.cache.map Prod.fst) (r : Registry) :
    (engine.reserve source).compileText source r = engine.compileText source r := by
  rw [reserve, lookup_eq_none_iff_not_mem.mpr h]
  rfl

theorem fetch_of_compileText_ok (hs : engine.Settled) (h : engine.cached? source = none)
    (he : engine.compileText source {} = .ok e) :
    engine.fetch source = (.ok e, { engine with
      cache := (source, some e) :: engine.cache, compiledCount := engine.compiledCount + 1 }) := by
  have hmem := hs.cached?_eq_none_iff.mp h
  have hcount : (engine.reserve source).compiledCount = engine.compiledCount := by
    rw [reserve, lookup_eq_none_iff_not_mem.mpr hmem]
  rw [fetch, h, compile, compileText_reserve hmem, he, count, hcount]
  dsimp only
  rw [fill_reserve hmem]

theorem fetch_of_compileText_error (hs : engine.Settled) (h : engine.cached? source = none)
    {f : Failure} (hf : engine.compileText source {} = .error f) :
    engine.fetch source = (.error f, engine) := by
  have hmem := hs.cached?_eq_none_iff.mp h
  rw [fetch, h, compile, compileText_reserve hmem, hf, count]
  dsimp only
  rw [release_reserve hmem]

/-- Fetching hands out what is remembered, or else compiles and remembers, or fails and changes
nothing. -/
theorem fetch_cases (hs : engine.Settled) (source : String) :
    (∃ e, engine.cached? source = some e ∧ engine.fetch source = (.ok e, engine)) ∨
    (∃ e, engine.cached? source = none ∧ engine.compileText source {} = .ok e ∧
      engine.fetch source = (.ok e, { engine with
        cache := (source, some e) :: engine.cache, compiledCount := engine.compiledCount + 1 })) ∨
    ∃ f, engine.compileText source {} = .error f ∧ engine.fetch source = (.error f, engine) := by
  cases hc : engine.cached? source with
  | some e => exact .inl ⟨e, rfl, fetch_of_cached hc⟩
  | none =>
    cases he : engine.compileText source {} with
    | ok e => exact .inr (.inl ⟨e, rfl, rfl, fetch_of_compileText_ok hs hc he⟩)
    | error f => exact .inr (.inr ⟨f, rfl, fetch_of_compileText_error hs hc he⟩)

end Engine
end TolerantExpr
