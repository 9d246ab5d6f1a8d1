import RegLisp.Proofs.AllocationMoments

/-!
# The function table

What the history of the function table comes to. At every moment of allocation the names of the
entries are distinct, the index of names is in step with the entries, and the entries of
definitions are those of the definitions so far. From one moment to a later one no entry moves, and
none loses a type that it has. At the end the table holds the names that the program uses, and
looking a function up gives the index that its definition and its calls have got.
-/

namespace RegLisp

/-- What holds of the function table at a moment. -/
structure Moment.Sound (s : Moment) : Prop where
  nodup : (s.tables.functions.toList.map FunctionEntry.name).Nodup
  /-- The index of names and the table are in step. -/
  lookup_iff : ∀ name i, s.tables.lookup name = some i ↔
    ∃ f, s.tables.functions[i]? = some f ∧ f.name = name
  size_eq : s.tables.indices.size = s.tables.functions.size
  /-- The entries that are no mere references are those whose names have been defined. -/
  internal_iff : ∀ f ∈ s.tables.functions, f.isExternal = false ↔
    ∃ d : Definition, .enter (.define d) ∈ s.events ∧ d.name = f.name

/-- Each entry is at its place later on, with its name, its arity and all types that are known. -/
def Moment.Keeps (s s' : Moment) : Prop :=
  ∀ (i : Nat) (f : FunctionEntry), s.tables.functions[i]? = some f →
    ∃ g, s'.tables.functions[i]? = some g ∧ g.name = f.name ∧ g.types.length = f.types.length ∧
      ∀ (k : Nat) (type : ValueType), f.types[k]? = some type → type.isKnown →
        g.types[k]? = some type

theorem TypesSettle.getElem? {xs ys : List ValueType} (h : TypesSettle xs ys) {k : Nat}
    {type : ValueType} (hk : xs[k]? = some type) (known : type.isKnown) :
    ys[k]? = some type := by
  induction h generalizing k with
  | nil => cases hk
  | cons first _ ih =>
    cases k with
    | zero =>
      cases hk
      exact congrArg some (first known)
    | succ k => exact ih hk

theorem mem_defined {es : List Event} {name : String} :
    name ∈ es.filterMap Event.defined? ↔
      ∃ d : Definition, .enter (.define d) ∈ es ∧ d.name = name := by
  rw [List.mem_filterMap]
  constructor
  · rintro ⟨e, mem, defined⟩
    cases e with
    | enter global =>
      cases global with
      | define d => exact ⟨d, mem, Option.some.inj defined⟩
      | declare d => cases defined
      | entry body => cases defined
    | call site => cases defined
    | finish index type => cases defined
  · rintro ⟨d, mem, rfl⟩
    exact ⟨_, mem, rfl⟩

section

variable {s s' : Moment}

theorem Moment.Leads.recorded (h : Moment.Leads {} s) :
    Recorded s.events s.tables.functions := by
  obtain ⟨es, events_eq, happens⟩ := h.happens
  rw [events_eq]
  exact Recorded.start.happens happens

/-- Whatever is reached from empty tables is sound. -/
theorem Moment.Leads.sound (h : Moment.Leads {} s) : s.Sound where
  nodup := h.recorded.distinct.nodup
  lookup_iff := (h.inStep Tables.inStep_start).lookup_iff
  size_eq := (h.inStep Tables.inStep_start).size_eq
  internal_iff := by
    intro f mem
    rw [h.recorded.internal f mem, mem_defined]

theorem Moment.Leads.keeps (recorded : Recorded s.events s.tables.functions)
    (h : s.Leads s') : s.Keeps s' := by
  intro i f hf
  obtain ⟨es, -, happens⟩ := h.happens
  obtain ⟨g, hg, matures⟩ := recorded.matures happens hf
  exact ⟨g, hg, matures.name_eq, matures.types.length_eq.symm, fun k type => matures.types.getElem?⟩

end

/-- The names that are defined are those of the definitions among the globals that are entered. -/
theorem defined_eq (es : List Event) : es.filterMap Event.defined? =
    (Program.mk (es.filterMap Event.global?)).definitions.map Definition.name := by
  unfold Program.definitions
  rw [List.map_filterMap, List.filterMap_filterMap]
  congr 1
  funext e
  cases e with
  | enter global => cases global <;> rfl
  | call site => rfl
  | finish index type => rfl

/-- The functions that a program names: those that it defines, declares or calls. -/
def Program.names (p : Program) : List String := p.globals.flatMap Global.names

/-- The invariant of the function table while a program is allocated, at the moments behind its
globals and the nodes of its expressions. -/
structure Program.TableInvariant (p : Program) : Prop where
  /-- Watching does not change what allocation gives. -/
  watched : p.watch.2.map (fun r => (r.1, r.2.tables)) = p.allocate
  sound : ∀ s ∈ p.watch.1, s.Sound
  kept : p.watch.1.Pairwise Moment.Keeps
  /-- If allocation succeeds, then no moment was left out, all the globals have been entered, and
  the table holds the names of the program. -/
  complete : ∀ items t, p.allocate = .ok (items, t) →
    p.watch.1.length = (p.globals.map Global.moments).sum ∧
    (∃ es, es.filterMap Event.global? = p.globals ∧ Moment.Sound ⟨t, es⟩ ∧
      ∀ s ∈ p.watch.1, s.Keeps ⟨t, es⟩) ∧
    ∀ name, (∃ f ∈ t.functions, f.name = name) ↔ name ∈ p.names
  /-- Looking a callee up in the end gives the index in its call, and looking a definition up gives
  the index of its body. -/
  resolved : ∀ items t, p.allocate = .ok (items, t) →
    (∀ c ∈ items.flatMap (·.term.callSites), t.lookup c.callee = some c.index) ∧
    List.Forall₂ (fun d body => t.lookup d.name = some body.1) p.definitions (bodies items)
  /-- No function is defined twice. -/
  rejected : ¬ (p.definitions.map Definition.name).Nodup → ∃ e, p.allocate = .error e

theorem Program.leads_of_mem (p : Program) : ∀ s ∈ p.watch.1, Moment.Leads {} s :=
  (List.pairwise_cons.1 p.watch_told.passed).1

/-- After allocation each function is found where its definition and its calls have it. -/
theorem Program.lookup_of_allocate {p : Program} {items : List Item} {t : Tables}
    (h : p.allocate = .ok (items, t)) :
    (∀ c ∈ items.flatMap (·.term.callSites), t.lookup c.callee = some c.index) ∧
      List.Forall₂ (fun d body => t.lookup d.name = some body.1) p.definitions (bodies items) := by
  have spec := Program.allocate_spec h
  have inStep := spec.grows.valid.inStep
  constructor
  · intro c mem
    obtain ⟨es, -, happens, narrated⟩ := Program.watch_of_allocate h
    simp only [← narrated.resolved, List.mem_filterMap, Event.site?_eq_some, exists_eq_right] at mem
    exact (inStep.lookup_iff _ _).2 ((Recorded.start.happens happens).called c mem)
  · refine spec.definitions.imp ?_
    intro d body placed
    obtain ⟨f, hf, named, -⟩ := placed.entered
    exact (inStep.lookup_iff _ _).2 ⟨f, hf, named⟩

/-- The invariant holds for every program, also for those that are rejected. -/
theorem Program.allocate_keeps_tableInvariant (p : Program) : p.TableInvariant where
  watched := p.watch_eq
  sound := fun s mem => (p.leads_of_mem s mem).sound
  kept := (List.pairwise_cons.1 p.watch_told.passed).2.imp_of_mem fun mem _ leads =>
    leads.keeps (p.leads_of_mem _ mem).recorded
  complete := by
    intro items t h
    obtain ⟨es, result, happens, narrated⟩ := Program.watch_of_allocate h
    have arrives := (p.watch_told.arrives _ _ result).1
    refine ⟨narrated.noted, ⟨es, narrated.entered, ?_, ?_⟩, ?_⟩
    · exact (arrives {} List.mem_cons_self).sound
    · intro s mem
      exact (arrives s (List.mem_cons_of_mem _ mem)).keeps (p.leads_of_mem s mem).recorded
    · intro name
      rw [(Recorded.start.happens happens).named, List.nil_append, narrated.named]
      rfl
  resolved := fun _ _ => Program.lookup_of_allocate
  rejected := by
    intro twice
    cases h : p.allocate with
    | error e => exact ⟨e, rfl⟩
    | ok r =>
      obtain ⟨es, -, happens, narrated⟩ := Program.watch_of_allocate h
      have nodup := (Recorded.start.happens happens).nodup
      rw [List.nil_append, defined_eq, narrated.entered] at nodup
      exact absurd nodup twice

end RegLisp
