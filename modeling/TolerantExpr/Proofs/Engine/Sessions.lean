import TolerantExpr.Proofs.Engine.Cache
import Mathlib

/-!
# Sessions with an engine

A session is any finite sequence of requests to one engine. Its journal, which is all that a user
sees of it, tells what the engine remembers, how often it has compiled, and what every expression
that it hands out does: these are stated of the journal alone and hold of the engine after every
session.
-/

namespace TolerantExpr

/-! ### Expressions that cannot be told apart -/

/-- The same parameters, type and results, whatever the tolerance and the arguments are. -/
structure Compiled.Alike (d e : Compiled) : Prop where
  parameters : d.parameters = e.parameters
  type : d.type = e.type
  call : ∀ (t : Tolerance) (arguments : List Argument), d.call t arguments = e.call t arguments
  callByName : ∀ (t : Tolerance) (find : String → Option Argument),
    d.callByName t find = e.callByName t find
  callDefault : ∀ arguments : List Argument, d.callDefault arguments = e.callDefault arguments

/-- Nothing but identity depends on the number of a compilation. -/
theorem Compiled.alike_serial (e : Compiled) (n : Nat) : e.Alike { e with serial := n } :=
  ⟨rfl, rfl, fun _ _ => rfl, fun _ _ => rfl, fun _ => rfl⟩

/-! ### Requests and answers -/

/-- What a user asks of an engine. -/
inductive Request where
  | fetch (source : String)
  | compile (source : String)
  | compileWith (source : String) (table : ParameterTable)
  | contains (source : String)
  | size
  | clear
  | addFormatter (f : Formatter)

namespace Request

/-- Whether a request makes the engine forget its expressions. -/
def forgets : Request → Bool
  | clear | addFormatter _ => true
  | _ => false

/-- The text that a request asks to compile, and the parameters known beforehand. -/
def text? : Request → Option (String × Registry)
  | fetch source | compile source => some (source, {})
  | compileWith source table => some (source, .ofTable table)
  | _ => none

end Request

inductive Answer where
  | expression (result : Except Failure Compiled)
  | held (b : Bool)
  | size (n : Nat)
  | done

/-- A request with its answer. -/
structure Event where
  request : Request
  answer : Answer

namespace Engine

def perform (engine : Engine) : Request → Answer × Engine
  | .fetch source => (engine.fetch source).map .expression id
  | .compile source => (engine.compile source).map .expression id
  | .compileWith source table => (engine.compileWith source table).map .expression id
  | .contains source => (.held (engine.contains source), engine)
  | .size => (.size engine.size, engine)
  | .clear => (.done, engine.clear)
  | .addFormatter f => (.done, engine.addFormatter f)

/-- What an engine answers to requests, the latest first, and the engine that it becomes. -/
def session (engine : Engine) : List Request → List Event × Engine
  | [] => ([], engine)
  | request :: earlier =>
    match engine.session earlier with
    | (journal, before) =>
      match before.perform request with
      | (answer, after) => (⟨request, answer⟩ :: journal, after)

end Engine

/-! ### What a journal tells

Journals have the latest event first. -/

namespace Journal

/-- The events since the engine last forgot its expressions. -/
def sinceForgotten (journal : List Event) : List Event :=
  journal.takeWhile fun event => !event.request.forgets

/-- The text that an event fetched with success. -/
def fetched? : Event → Option String
  | ⟨.fetch source, .expression (.ok _)⟩ => some source
  | _ => none

/-- The texts fetched with success since the engine last forgot its expressions. -/
def remembered (journal : List Event) : List String :=
  ((sinceForgotten journal).filterMap fetched?).dedup

/-- Whether an event is a successful compilation: a fetch is one if its text was not remembered. -/
def compiles (earlier : List Event) : Event → Bool
  | ⟨.fetch source, .expression (.ok _)⟩ => source ∉ remembered earlier
  | ⟨.compile _, .expression (.ok _)⟩ => true
  | ⟨.compileWith _ _, .expression (.ok _)⟩ => true
  | _ => false

/-- How many events are successful compilations. -/
def compilations : List Event → Nat
  | [] => 0
  | event :: earlier => compilations earlier + (compiles earlier event).toNat

/-- The formatters that were added, in order. -/
def formatters : List Event → Formatters
  | [] => []
  | ⟨.addFormatter f, _⟩ :: earlier => formatters earlier ++ [f]
  | _ :: earlier => formatters earlier

variable {journal earlier : List Event} {event : Event} {source : String}

theorem sinceForgotten_cons (event : Event) (earlier : List Event) :
    sinceForgotten (event :: earlier) =
      if event.request.forgets then [] else event :: sinceForgotten earlier := by
  unfold sinceForgotten
  rw [List.takeWhile_cons]
  cases event.request.forgets <;> rfl

theorem fetched?_eq_some_iff :
    fetched? event = some source ↔ ∃ e, event = ⟨.fetch source, .expression (.ok e)⟩ := by
  constructor
  · intro h
    unfold fetched? at h
    split at h
    · cases h
      exact ⟨_, rfl⟩
    · cases h
  · rintro ⟨e, rfl⟩
    rfl

theorem mem_remembered_iff :
    source ∈ remembered journal ↔
      ∃ e, ⟨.fetch source, .expression (.ok e)⟩ ∈ sinceForgotten journal := by
  rw [remembered, List.mem_dedup, List.mem_filterMap]
  constructor
  · intro h
    obtain ⟨event, hmem, h⟩ := h
    obtain ⟨e, rfl⟩ := fetched?_eq_some_iff.mp h
    exact ⟨e, hmem⟩
  · intro h
    obtain ⟨e, hmem⟩ := h
    exact ⟨_, hmem, rfl⟩

theorem formatters_cons_of_not_forgets (h : event.request.forgets = false) :
    formatters (event :: earlier) = formatters earlier := by
  obtain ⟨request, answer⟩ := event
  cases request with
  | addFormatter f => cases h
  | _ => rfl

/-- Only what is handed out was compiled. -/
theorem compiles_of_ne (h : ∀ e, event.answer ≠ .expression (.ok e)) :
    compiles earlier event = false := by
  unfold compiles
  split
  · exact absurd rfl (h _)
  · exact absurd rfl (h _)
  · exact absurd rfl (h _)
  · rfl

end Journal

/-! ### Coherence -/

open Journal

/-- What is known of an engine from its options and the journal of its session. -/
structure Coherent (options : Options) (journal : List Event) (engine : Engine) : Prop where
  options_eq : engine.options = options
  formatters_eq : engine.formatters = formatters journal
  /-- The engine remembers the texts fetched with success since it last forgot, and no other
  ones. -/
  contains_iff : ∀ source, engine.contains source = true ↔
    ∃ e, ⟨.fetch source, .expression (.ok e)⟩ ∈ sinceForgotten journal
  size_eq : engine.size = (remembered journal).length
  /-- A remembered text leads to the expression that it led to before, and compiles nothing. -/
  fetch_again : ∀ source e, ⟨.fetch source, .expression (.ok e)⟩ ∈ sinceForgotten journal →
    engine.fetch source = (.ok e, engine)
  /-- The counter counts the successful compilations. -/
  count_eq : engine.compiledCount = compilations journal
  /-- A request that fails changes nothing. -/
  failure : ∀ request f, (engine.perform request).1 = .expression (.error f) →
    (engine.perform request).2 = engine
  /-- What is remembered is what the text compiles to now. -/
  current : ∀ source e, engine.cached? source = some e →
    ∃ d, (engine.compile source).1 = .ok d ∧ e.Alike d
  /-- An expression does what its text compiled to, with the options and the formatters of the
  engine, when it was handed out, whatever happened later. -/
  lasting : ∀ later request e earlier,
    journal = later ++ ⟨request, .expression (.ok e)⟩ :: earlier →
    ∃ source registry d, request.text? = some (source, registry) ∧
      ({ options := options, formatters := formatters earlier } : Engine).compileText source
        registry = .ok d ∧ e.Alike d
  /-- Each compilation has a number of its own. -/
  serial_eq : ∀ later request e earlier,
    journal = later ++ ⟨request, .expression (.ok e)⟩ :: earlier →
    compiles earlier ⟨request, .expression (.ok e)⟩ = true → e.serial = compilations earlier

/-- An expression is what its request compiles to after earlier events, and has a number of its own
if it is compiled then. -/
def Explained (options : Options) (earlier : List Event) (request : Request) (e : Compiled) : Prop :=
  (∃ source registry d, request.text? = some (source, registry) ∧
    ({ options := options, formatters := formatters earlier } : Engine).compileText source
      registry = .ok d ∧ e.Alike d) ∧
  (compiles earlier ⟨request, .expression (.ok e)⟩ = true → e.serial = compilations earlier)

/-- What one request preserves, from which coherence follows. -/
structure Tracks (options : Options) (journal : List Event) (engine : Engine) : Prop where
  settled : engine.Settled
  options_eq : engine.options = options
  formatters_eq : engine.formatters = formatters journal
  contents : ∀ source e, (source, some e) ∈ engine.cache ↔
    ⟨.fetch source, .expression (.ok e)⟩ ∈ sinceForgotten journal
  current : ∀ source e, (source, some e) ∈ engine.cache →
    engine.compileText source {} = .ok { e with serial := engine.compiledCount }
  count_eq : engine.compiledCount = compilations journal
  explained_of_split : ∀ later request e earlier,
    journal = later ++ ⟨request, .expression (.ok e)⟩ :: earlier →
    Explained options earlier request e

namespace Tracks

variable {options : Options} {journal : List Event} {engine : Engine} {source : String}

/-! #### What is remembered -/

theorem mem_remembered_iff (h : Tracks options journal engine) :
    source ∈ remembered journal ↔ source ∈ engine.cache.map Prod.fst := by
  rw [Journal.mem_remembered_iff, List.mem_map]
  simp only [← h.contents]
  constructor
  · intro hmem
    obtain ⟨e, hmem⟩ := hmem
    exact ⟨_, hmem, rfl⟩
  · rintro ⟨⟨key, slot⟩, hmem, rfl⟩
    obtain ⟨e, rfl⟩ := Option.isSome_iff_exists.mp (h.settled.filled _ hmem)
    exact ⟨e, hmem⟩

theorem cached?_eq_some_iff (h : Tracks options journal engine) {e : Compiled} :
    engine.cached? source = some e ↔
      ⟨.fetch source, .expression (.ok e)⟩ ∈ sinceForgotten journal :=
  h.settled.cached?_eq_some_iff.trans (h.contents source e)

theorem cached?_eq_none_iff (h : Tracks options journal engine) :
    engine.cached? source = none ↔ source ∉ remembered journal := by
  rw [h.settled.cached?_eq_none_iff, h.mem_remembered_iff]

/-! #### Compiling -/

/-- Whatever was compiled before, a text compiles to the same but for the number. -/
theorem compileText_eq (h : Tracks options journal engine) (registry : Registry) :
    ({ options := options, formatters := formatters journal } : Engine).compileText source registry =
      (engine.compileText source registry).map fun e => { e with serial := 0 } :=
  Engine.compileText_congr h.options_eq.symm h.formatters_eq.symm registry

/-- What a text compiles to now explains an expression that differs in its number at most. -/
theorem explained (h : Tracks options journal engine) {request : Request} {registry : Registry}
    {e : Compiled} (hrequest : request.text? = some (source, registry))
    (he : engine.compileText source registry = .ok { e with serial := engine.compiledCount })
    (hserial : compiles journal ⟨request, .expression (.ok e)⟩ = true →
      e.serial = engine.compiledCount) : Explained options journal request e := by
  refine ⟨⟨source, registry, { e with serial := 0 }, hrequest, ?_, e.alike_serial 0⟩, ?_⟩
  · rw [h.compileText_eq, he]
    rfl
  · rw [← h.count_eq]
    exact hserial

/-! #### Steps -/

theorem explained_cons (h : Tracks options journal engine) {event : Event}
    (hevent : ∀ e, event.answer = .expression (.ok e) → Explained options journal event.request e) :
    ∀ later request e earlier, event :: journal = later ++ ⟨request, .expression (.ok e)⟩ :: earlier →
      Explained options earlier request e := by
  intro later request e earlier hsplit
  rcases List.cons_eq_append_iff.mp hsplit with ⟨-, hsplit⟩ | ⟨later, -, hsplit⟩
  · obtain ⟨hrequest, rfl⟩ := List.cons.inj hsplit
    subst hrequest
    exact hevent e rfl
  · exact h.explained_of_split later request e earlier hsplit

/-- A step that forgets nothing, and remembers what it fetches. -/
theorem keep (h : Tracks options journal engine) {event : Event} {next : Engine}
    (hforgets : event.request.forgets = false) (hsettled : next.Settled)
    (ho : next.options = engine.options) (hf : next.formatters = engine.formatters)
    (hcontents : ∀ source e, (source, some e) ∈ next.cache ↔
      ⟨.fetch source, .expression (.ok e)⟩ = event ∨ (source, some e) ∈ engine.cache)
    (hcurrent : ∀ source e, ⟨.fetch source, .expression (.ok e)⟩ = event →
      engine.compileText source {} = .ok { e with serial := engine.compiledCount })
    (hcount : next.compiledCount = engine.compiledCount + (compiles journal event).toNat)
    (hevent : ∀ e, event.answer = .expression (.ok e) → Explained options journal event.request e) :
    Tracks options (event :: journal) next where
  settled := hsettled
  options_eq := ho.trans h.options_eq
  formatters_eq := by rw [hf, h.formatters_eq, formatters_cons_of_not_forgets hforgets]
  contents source e := by
    rw [hcontents, sinceForgotten_cons, hforgets, if_neg Bool.false_ne_true, List.mem_cons,
      h.contents]
  current source e hmem := by
    have he : engine.compileText source {} = .ok { e with serial := engine.compiledCount } := by
      rcases (hcontents source e).mp hmem with hmem | hmem
      · exact hcurrent source e hmem
      · exact h.current source e hmem
    rw [Engine.compileText_congr ho hf, he]
    rfl
  count_eq := by rw [hcount, h.count_eq, compilations]
  explained_of_split := h.explained_cons hevent

/-- A step that hands out nothing and forgets nothing. -/
theorem quiet (h : Tracks options journal engine) {event : Event}
    (hforgets : event.request.forgets = false) (hanswer : ∀ e, event.answer ≠ .expression (.ok e)) :
    Tracks options (event :: journal) engine := by
  have hfetch : ∀ source e, ⟨.fetch source, .expression (.ok e)⟩ ≠ event := by
    rintro source e rfl
    exact hanswer e rfl
  refine h.keep hforgets h.settled rfl rfl (fun source e => ?_) (fun source e he => ?_) ?_
    fun e he => ?_
  · rw [or_iff_right (hfetch source e)]
  · exact absurd he (hfetch source e)
  · rw [compiles_of_ne hanswer]
    rfl
  · exact absurd he (hanswer e)

/-- A step after which nothing is remembered. -/
theorem forget (h : Tracks options journal engine) {event : Event} {next : Engine}
    (hforgets : event.request.forgets = true) (hanswer : ∀ e, event.answer ≠ .expression (.ok e))
    (hcache : next.cache = []) (ho : next.options = engine.options)
    (hf : next.formatters = formatters (event :: journal))
    (hcount : next.compiledCount = engine.compiledCount) :
    Tracks options (event :: journal) next where
  settled := Engine.settled_of_cache_nil hcache
  options_eq := ho.trans h.options_eq
  formatters_eq := hf
  contents source e := by simp [hcache, sinceForgotten_cons, hforgets]
  current source e hmem := by simp [hcache] at hmem
  count_eq := by
    rw [hcount, h.count_eq, compilations, compiles_of_ne hanswer]
    rfl
  explained_of_split := h.explained_cons fun e he => absurd he (hanswer e)

/-- A remembered text. -/
theorem hit (h : Tracks options journal engine) {e : Compiled}
    (he : engine.cached? source = some e) :
    Tracks options (⟨.fetch source, .expression (.ok e)⟩ :: journal) engine := by
  have hmem := h.settled.cached?_eq_some_iff.mp he
  have hcompiles : compiles journal ⟨.fetch source, .expression (.ok e)⟩ = false := by
    have hremembered := h.mem_remembered_iff.mpr (List.mem_map_of_mem hmem)
    simpa [compiles] using hremembered
  refine h.keep rfl h.settled rfl rfl (fun key d => ⟨.inr, ?_⟩) ?_ ?_ ?_
  · rintro (heq | hd)
    · cases heq
      exact hmem
    · exact hd
  · rintro key d heq
    cases heq
    exact h.current source e hmem
  · rw [hcompiles]
    rfl
  · rintro d heq
    cases heq
    refine h.explained rfl (h.current source e hmem) fun htrue => ?_
    rw [hcompiles] at htrue
    cases htrue

/-- A text that is compiled and not remembered. -/
theorem compiled (h : Tracks options journal engine) {request : Request} {registry : Registry}
    {e : Compiled} (hrequest : request.text? = some (source, registry))
    (hcompiles : ∀ d, compiles journal ⟨request, .expression (.ok d)⟩ = true)
    (hfetch : ∀ text, request ≠ .fetch text)
    (he : engine.compileText source registry = .ok e) :
    Tracks options (⟨request, .expression (.ok e)⟩ :: journal)
      { engine with compiledCount := engine.compiledCount + 1 } := by
  have hserial := Engine.serial_of_compileText he
  have hforgets : request.forgets = false := by
    cases request <;> first | rfl | cases hrequest
  refine h.keep hforgets ⟨h.settled.filled, h.settled.distinct⟩ rfl rfl (fun key d => ?_) ?_ ?_ ?_
  · refine ⟨.inr, fun hd => hd.resolve_left ?_⟩
    rintro heq
    cases heq
    exact hfetch key rfl
  · rintro key d heq
    cases heq
    exact absurd rfl (hfetch key)
  · rw [hcompiles]
    rfl
  · rintro d heq
    cases heq
    refine h.explained hrequest ?_ fun _ => hserial
    rw [← hserial]
    exact he

/-- A text that is compiled and remembered. -/
theorem miss (h : Tracks options journal engine) {e : Compiled}
    (hnone : engine.cached? source = none) (he : engine.compileText source {} = .ok e) :
    Tracks options (⟨.fetch source, .expression (.ok e)⟩ :: journal) { engine with
      cache := (source, some e) :: engine.cache, compiledCount := engine.compiledCount + 1 } := by
  have hserial := Engine.serial_of_compileText he
  have hself : engine.compileText source {} = .ok { e with serial := engine.compiledCount } := by
    rw [← hserial]
    exact he
  have hcompiles : compiles journal ⟨.fetch source, .expression (.ok e)⟩ = true := by
    simpa [compiles] using h.cached?_eq_none_iff.mp hnone
  refine h.keep rfl ⟨?_, ?_⟩ rfl rfl (fun key d => ?_) ?_ ?_ ?_
  · exact List.forall_mem_cons.mpr ⟨rfl, h.settled.filled⟩
  · exact List.nodup_cons.mpr ⟨h.settled.cached?_eq_none_iff.mp hnone, h.settled.distinct⟩
  · rw [List.mem_cons]
    refine or_congr_left ?_
    simp
  · rintro key d heq
    cases heq
    exact hself
  · rw [hcompiles]
    rfl
  · rintro d heq
    cases heq
    exact h.explained rfl hself fun _ => hserial

/-- Every request is answered in step with the journal. -/
theorem perform (h : Tracks options journal engine) (request : Request) :
    Tracks options (⟨request, (engine.perform request).1⟩ :: journal)
      (engine.perform request).2 := by
  cases request with
  | fetch source =>
    rw [Engine.perform]
    rcases Engine.fetch_cases h.settled source with
      ⟨e, hc, heq⟩ | ⟨e, hc, he, heq⟩ | ⟨f, -, heq⟩ <;> rw [heq]
    · exact h.hit hc
    · exact h.miss hc he
    · exact h.quiet rfl (by simp)
  | compile source =>
    rw [Engine.perform, Engine.compile]
    rcases engine.count_cases (engine.compileText source {}) with
      ⟨e, he, heq⟩ | ⟨f, -, heq⟩ <;> rw [heq]
    · exact h.compiled rfl (fun _ => rfl) (by simp) he
    · exact h.quiet rfl (by simp)
  | compileWith source table =>
    rw [Engine.perform, Engine.compileWith]
    rcases engine.count_cases (engine.compileText source (.ofTable table)) with
      ⟨e, he, heq⟩ | ⟨f, -, heq⟩ <;> rw [heq]
    · exact h.compiled rfl (fun _ => rfl) (by simp) he
    · exact h.quiet rfl (by simp)
  | contains source => exact h.quiet rfl (by simp [Engine.perform])
  | size => exact h.quiet rfl (by simp [Engine.perform])
  | clear => exact h.forget rfl (by simp [Engine.perform]) rfl rfl h.formatters_eq rfl
  | addFormatter f =>
    refine h.forget rfl (by simp [Engine.perform]) rfl rfl ?_ rfl
    exact congrArg (· ++ [f]) h.formatters_eq

/-! #### What tracking gives -/

theorem failure_count {result : Except Failure Compiled} {f : Failure}
    (hf : ((engine.count result).map Answer.expression id).1 = .expression (.error f)) :
    ((engine.count result).map Answer.expression id).2 = engine := by
  rcases engine.count_cases result with ⟨e, -, heq⟩ | ⟨f, -, heq⟩ <;> rw [heq] at hf ⊢
  · cases hf
  · rfl

theorem failure (h : Tracks options journal engine) {request : Request} {f : Failure}
    (hf : (engine.perform request).1 = .expression (.error f)) :
    (engine.perform request).2 = engine := by
  cases request with
  | fetch source =>
    rw [Engine.perform] at hf ⊢
    rcases Engine.fetch_cases h.settled source with
      ⟨e, -, heq⟩ | ⟨e, -, -, heq⟩ | ⟨f, -, heq⟩ <;> rw [heq] at hf ⊢
    · rfl
    · cases hf
    · rfl
  | compile source => exact failure_count hf
  | compileWith source table => exact failure_count hf
  | contains source => rfl
  | size => rfl
  | clear => cases hf
  | addFormatter f => cases hf

theorem size_eq (h : Tracks options journal engine) :
    engine.size = (remembered journal).length := by
  rw [h.settled.size_eq]
  refine List.Perm.length_eq ((List.perm_ext_iff_of_nodup h.settled.distinct ?_).mpr fun text => ?_)
  · exact List.nodup_dedup _
  · exact h.mem_remembered_iff.symm

theorem coherent (h : Tracks options journal engine) : Coherent options journal engine where
  options_eq := h.options_eq
  formatters_eq := h.formatters_eq
  contains_iff source := by
    rw [Engine.contains, Option.isSome_iff_exists]
    exact exists_congr fun e => h.cached?_eq_some_iff
  size_eq := h.size_eq
  fetch_again source e he := Engine.fetch_of_cached (h.cached?_eq_some_iff.mpr he)
  count_eq := h.count_eq
  failure _ _ := h.failure
  current source e he := by
    refine ⟨{ e with serial := engine.compiledCount }, ?_, e.alike_serial _⟩
    rw [Engine.compile, h.current source e (h.settled.cached?_eq_some_iff.mp he)]
    rfl
  lasting later request e earlier hsplit := (h.explained_of_split later request e earlier hsplit).1
  serial_eq later request e earlier hsplit :=
    (h.explained_of_split later request e earlier hsplit).2

end Tracks

theorem tracks_new {options : Options} {engine : Engine} (h : Engine.new options = .ok engine) :
    Tracks options [] engine := by
  unfold Engine.new at h
  split at h
  · cases h
  · cases h
    refine ⟨Engine.settled_of_cache_nil rfl, rfl, rfl, ?_, ?_, rfl, ?_⟩
    · simp [sinceForgotten]
    · simp
    · simp

theorem tracks_session {options : Options} {engine : Engine} (h : Engine.new options = .ok engine)
    (requests : List Request) :
    Tracks options (engine.session requests).1 (engine.session requests).2 := by
  induction requests with
  | nil => exact tracks_new h
  | cons request requests ih => exact ih.perform request

/-- After every session an engine is as its journal tells. -/
theorem session_coherent {options : Options} {engine : Engine} (h : Engine.new options = .ok engine)
    (requests : List Request) :
    Coherent options (engine.session requests).1 (engine.session requests).2 :=
  (tracks_session h requests).coherent

/-- A text is fetched before and after a formatter is added, afterwards twice. -/
def refetching : List Request :=
  [.fetch "x + 1", .fetch "x + 1", .compile "y", .addFormatter fun _ => none, .fetch "x + 1"]

theorem session_coherent_refetching :
    Engine.new {} = .ok { options := {} } ∧
    Coherent {} (Engine.session { options := {} } refetching).1
      (Engine.session { options := {} } refetching).2 ∧
    (Engine.session { options := {} } refetching).2.size = 1 ∧
    (Engine.session { options := {} } refetching).2.compiledCount = 3 := by
  have h : Engine.new {} = .ok { options := {} } := by rfl
  exact ⟨h, session_coherent h refetching, by cbv, by cbv⟩

end TolerantExpr
