import RegLisp.Proofs.CallSignatures
import RegLisp.Proofs.LinkedProgram
import RegLisp.Proofs.LinkResolution
import RegLisp.Proofs.Reloading

/-!
# Argument types of linked programs

In a text every parameter has a type that is known. So in texts that compile and link, each
argument of a call whose type is known has exactly the type that the one definition of the callee
gives to the parameter, in whichever module and at whatever place of it that definition is.
-/

namespace RegLisp

open RegLisp.Syntax

/-! ## Types in texts -/

/-- All parameters have a type that is known. -/
def Definition.Typed (d : Definition) : Prop := ∀ x ∈ d.paramTypes, x.isKnown = true

theorem Definition.ofItems_typed {items : List SExpr} {d : Definition}
    (h : Definition.ofItems items = .ok d) : d.Typed := by
  obtain ⟨_, _, _, _, _, _, -, read, -, rfl⟩ := Definition.ofItems_eq_ok h
  intro x mem
  obtain ⟨p, param, rfl⟩ := List.mem_map.1 mem
  obtain ⟨item, -, paramRead⟩ := exists_of_mem_mapM_ok read param
  exact (Param.ofSExpr_eq_ok paramRead).2

theorem Global.ofSExpr_typed {s : SExpr} {g : Global} (h : Global.ofSExpr s = .ok g) :
    ∀ d, g = .define d → d.Typed := by
  rintro d rfl
  cases Global.formOf_of_ofSExpr h with
  | define read => exact Definition.ofItems_typed read

theorem Program.typed_of_parse {text : String} {p : Program} (h : Program.parse text = .ok p) :
    ∀ d ∈ p.definitions, d.Typed := by
  intro d mem
  exact Program.forall_of_parse Global.ofSExpr_typed h _ (Program.mem_definitions.1 mem) d rfl

/-! ## Calls of one module -/

/-- Types that agree with known ones have become these. -/
theorem SignaturesAgree.settle {xs ys : List ValueType} (h : SignaturesAgree xs ys)
    (known : ∀ y ∈ ys, y.isKnown = true) : TypesSettle xs ys := by
  unfold SignaturesAgree at h
  induction h with
  | nil => exact .nil
  | cons agree _ ih =>
    rw [List.forall_mem_cons] at known
    refine .cons ?_ (ih known.2)
    intro first
    rcases agree with rfl | rfl | rfl
    · rfl
    · cases first
    · cases known.1

theorem SignaturesAgree.tail {xs ys : List ValueType} (h : SignaturesAgree xs ys) :
    SignaturesAgree xs.tail ys.tail := by
  cases h with
  | nil => exact .nil
  | cons _ others => exact others

/-- The entry of the callee has the types of the arguments, as far as these are known. -/
def CallSite.Accepted (c : CallSite) (fs : Array FunctionEntry) : Prop :=
  ∃ f, fs[c.index]? = some f ∧ f.name = c.callee ∧ TypesSettle c.argTypes f.params

/-- Where a definition leaves no type of a parameter open, an argument has the type of its
parameter. -/
theorem Passed.settles {es : List Event} {c : CallSite} {k : Nat} {arg param : ValueType}
    (typed : ∀ d, .enter (.define d) ∈ es → d.Typed) (h : Passed es c k arg param) :
    arg.Settles param := by
  have closed {d : Definition} {rest : List Event}
      (order : (.enter (.define d) :: rest).Sublist es)
      (leaves : d.paramTypes[k]? = some .unknown) : False := by
    have known := typed d (order.subset List.mem_cons_self) _ (List.mem_of_getElem? leaves)
    cases known
  cases h with
  | unknown => exact nofun
  | same => exact fun _ => rfl
  | untyped order defines leaves => exact (closed order leaves).elim
  | late order defines declares leaves gives known => exact (closed order leaves).elim

/-- What allocating a program whose parameters have known types gives: each call is accepted by the
table as it is in the end, and the entries of definitions have their parameter types. -/
theorem Program.allocate_typed {p : Program} {items : List Item} {t : Tables}
    (typed : ∀ d ∈ p.definitions, d.Typed) (h : p.allocate = .ok (items, t)) :
    (∀ c ∈ items.flatMap (·.term.callSites), c.Accepted t.functions) ∧
      List.Forall₂ (fun d body => ∃ f, t.functions[body.1]? = some f ∧ f.params = d.paramTypes)
        p.definitions (bodies items) := by
  obtain ⟨es, -, happens, narrated⟩ := Program.watch_of_allocate h
  have recorded : Recorded es t.functions := Recorded.start.happens happens
  have entered (d : Definition) : .enter (.define d) ∈ es ↔ d ∈ p.definitions := by
    rw [Program.mem_definitions, ← narrated.entered]
    simp [Event.global?_eq_some]
  constructor
  · intro c mem
    simp only [← narrated.resolved, List.mem_filterMap, Event.site?_eq_some, exists_eq_right] at mem
    obtain ⟨f, stands⟩ := happens.stands mem
    refine ⟨f, stands.entry_eq, stands.named, List.forall₂_iff_get.2 ⟨?_, ?_⟩⟩
    · rw [CallSite.argTypes, List.length_map, stands.arity]
    · intro k lt lt'
      refine (stands.passed k _ _ (List.getElem?_eq_getElem lt) ?_).settles fun d mem => ?_
      · exact List.getElem?_eq_getElem lt'
      · exact typed d ((entered d).1 mem)
  · have definitions := (Program.allocate_spec h).definitions
    rw [List.forall₂_iff_zip] at definitions ⊢
    refine ⟨definitions.1, ?_⟩
    intro d body paired
    have mem : d ∈ p.definitions := (List.of_mem_zip paired).1
    obtain ⟨f, hf, named, -⟩ := (definitions.2 paired).entered
    obtain ⟨f', mem', named', settles⟩ := happens.tabled ((entered d).2 mem) rfl
    -- the table has one entry of this name
    obtain ⟨i, hf'⟩ := Array.mem_iff_getElem?.1 mem'
    obtain rfl := recorded.distinct _ _ _ _ hf hf' (named.trans named'.symm)
    obtain rfl := Option.some.inj (hf.symm.trans hf')
    rw [FunctionEntry.types_eq (recorded.typed f mem')] at settles
    cases settles with
    | cons _ params => exact ⟨f, hf, TypesSettle.eq_of_known params (typed d mem)⟩

/-! ## Entries of modules -/

/-- A module has the entries of the tables that it is made of, and its definitions are the
bodies. -/
theorem AllocatedGlobals.entry_tableModule {p : Program} {items : List Item} {t : Tables}
    (h : AllocatedGlobals {} p.globals items t) (small : (tableCode items t).length < UInt64.size)
    (name : String) {i : Nat} {f : FunctionEntry} (hf : t.functions[i]? = some f) :
    ∃ g, (tableModule name items t).functions[i]? = some g ∧ g.name = f.name ∧
      g.types = f.types ∧ (g.isExternal = false ↔ i ∈ (bodies items).map Prod.fst) := by
  obtain ⟨g, hg, name_eq, types_eq, internal⟩ : ∃ g, (placedTable items t)[i]? = some g ∧
      g.name = f.name ∧ g.types = f.types ∧
        (g.isExternal = false ↔ i ∈ (bodies items).map Prod.fst) := by
    rw [← map_index_laidBodies]
    by_cases laid : i ∈ (laidBodies items).map Laid.index
    · obtain ⟨l, mem, rfl⟩ := List.mem_map.1 laid
      obtain ⟨f', hf', placed⟩ := h.entry_of_laid mem
      obtain rfl := Option.some.inj (hf.symm.trans hf')
      exact ⟨_, placed, rfl, rfl, iff_of_true rfl laid⟩
    · have inside : i < (placedTable items t).size := by
        rw [size_placedTable]
        exact (Array.getElem?_eq_some_iff.1 hf).1
      have placed := Array.getElem?_eq_getElem inside
      obtain ⟨same, reference⟩ := h.entry_of_not_laid laid placed
      obtain rfl := Option.some.inj (hf.symm.trans same)
      refine ⟨_, placed, rfl, rfl, iff_of_false ?_ laid⟩
      simp [FunctionEntry.isExternal, reference]
  have facts := congrArg (·[i]?) (h.facts_tableModule small name)
  simp only [Array.getElem?_map, hg, Option.map_some, Option.map_eq_some_iff] at facts
  obtain ⟨g', hg', same⟩ := facts
  simp only [FunctionEntry.facts, Prod.mk.injEq] at same
  obtain ⟨name_eq', -, external_eq, types_eq'⟩ := same
  rw [← external_eq] at internal
  exact ⟨g', hg', name_eq'.trans name_eq, types_eq'.trans types_eq, internal⟩

namespace Source

variable (s : Source)

theorem module_eq : ∃ items t, s.program.allocate = .ok (items, t) ∧
    (tableCode items t).length < UInt64.size ∧ s.module = tableModule s.name items t := by
  obtain ⟨unit, compiled, loaded⟩ := s.reload_eq
  rw [compileSource, s.parse_eq] at compiled
  exact Program.module_eq compiled loaded

/-- Definition number `n` of the source is entry number `k` of its module. -/
structure Enters (n : Nat) (d : Definition) (k : Nat) (e : FunctionEntry) : Prop where
  definition_eq : s.program.definitions[n]? = some d
  body_eq : ∃ items t term, s.program.allocate = .ok (items, t) ∧
    (bodies items)[n]? = some (k, term)
  entry_eq : s.module.functions[k]? = some e
  internal : e.isExternal = false
  name_eq : e.name = d.name
  params_eq : e.params = d.paramTypes

theorem exists_enters {n : Nat} {d : Definition} (hd : s.program.definitions[n]? = some d) :
    ∃ k e, s.Enters n d k e := by
  obtain ⟨items, t, allocated, small, module_eq⟩ := s.module_eq
  have spec := Program.allocate_spec allocated
  obtain ⟨⟨k, term⟩, hb, placed⟩ := spec.exists_body hd
  obtain ⟨f, hf, name_eq, -⟩ := placed.entered
  obtain ⟨e, he, name_eq', types_eq, internal⟩ := spec.entry_tableModule small s.name hf
  have bound : k ∈ (bodies items).map Prod.fst :=
    List.mem_map.2 ⟨_, List.mem_of_getElem? hb, rfl⟩
  obtain ⟨-, typed⟩ := Program.allocate_typed (Program.typed_of_parse s.parse_eq) allocated
  have paired : (d, (k, term)) ∈ s.program.definitions.zip (bodies items) :=
    List.mem_of_getElem? (List.getElem?_zip_eq_some.2 ⟨hd, hb⟩)
  obtain ⟨f', hf', params_eq⟩ := List.forall₂_zip typed paired
  obtain rfl := Option.some.inj (hf.symm.trans hf')
  refine ⟨k, e, hd, ⟨items, t, term, allocated, hb⟩, ?_, internal.2 bound,
    name_eq'.trans name_eq, ?_⟩
  · rw [module_eq]
    exact he
  · rw [← params_eq, FunctionEntry.params, types_eq]
    rfl

/-- An entry that is no reference is that of a definition. -/
theorem exists_enters_of_entry {k : Nat} {e : FunctionEntry}
    (he : s.module.functions[k]? = some e) (internal : e.isExternal = false) :
    ∃ n d, s.Enters n d k e := by
  obtain ⟨items, t, allocated, small, module_eq⟩ := s.module_eq
  have spec := Program.allocate_spec allocated
  have inside : k < t.functions.size := by
    rw [module_eq] at he
    have := (Array.getElem?_eq_some_iff.1 he).1
    simpa [tableModule, Module.ofParts_eq, size_placedTable] using this
  obtain ⟨e', he', -, -, bound⟩ :=
    spec.entry_tableModule small s.name (Array.getElem?_eq_getElem inside)
  rw [module_eq] at he
  obtain rfl := Option.some.inj (he.symm.trans he')
  obtain ⟨⟨_, term⟩, mem, rfl⟩ := List.mem_map.1 (bound.1 internal)
  obtain ⟨n, hb⟩ := List.mem_iff_getElem?.1 mem
  obtain ⟨d, hd⟩ := spec.exists_definition hb
  obtain ⟨k', e'', enters⟩ := s.exists_enters hd
  obtain ⟨items', t', term', allocated', hb'⟩ := enters.body_eq
  cases allocated.symm.trans allocated'
  cases hb.symm.trans hb'
  have entry_eq := enters.entry_eq
  rw [module_eq, he] at entry_eq
  cases entry_eq
  exact ⟨n, d, enters⟩

variable {s}

/-- No entry is that of two definitions. -/
theorem Enters.number_eq {n n' k : Nat} {d d' : Definition} {e e' : FunctionEntry}
    (h : s.Enters n d k e) (h' : s.Enters n' d' k e') : n' = n := by
  obtain ⟨items, t, term, allocated, hb⟩ := h.body_eq
  obtain ⟨items', t', term', allocated', hb'⟩ := h'.body_eq
  cases allocated.symm.trans allocated'
  have nodup := (Program.allocate_spec allocated).nodup
  obtain ⟨lt, -⟩ := List.getElem?_eq_some_iff.1 hb
  refine ((List.getElem?_inj (by simpa using lt) nodup).1 ?_).symm
  rw [List.getElem?_map, List.getElem?_map, hb, hb']
  rfl

end Source

/-! ## Calls of linked programs -/

/-- Definition number `n` of source number `j` has the given name. -/
structure DefinitionAt (sources : List Source) (name : String) (j n : Nat) (d : Definition) :
    Prop where
  exists_source : ∃ s, sources[j]? = some s ∧ s.program.definitions[n]? = some d
  name_eq : d.name = name

section

variable {sources : List Source} {j n : Nat} {s : Source} {d : Definition} {k : Nat}
  {e : FunctionEntry}

theorem Source.Enters.definedAt (h : s.Enters n d k e) (hs : sources[j]? = some s) :
    ∃ address, DefinedAt (sources.map Source.module) d.name j k s.module e address := by
  cases ha : e.address with
  | none =>
    have internal := h.internal
    simp [FunctionEntry.isExternal, ha] at internal
  | some address =>
    exact ⟨address, by rw [List.getElem?_map, hs]; rfl, h.entry_eq, h.name_eq, ha⟩

/-- Where names are unique, each is that of one definition. -/
theorem DefinitionAt.position_eq (unique : UniqueNames (sites (sources.map Source.module)))
    {name : String} {j' n' : Nat} {d' : Definition} (h : DefinitionAt sources name j n d)
    (h' : DefinitionAt sources name j' n' d') : j' = j ∧ n' = n := by
  obtain ⟨⟨s, hs, hd⟩, rfl⟩ := h
  obtain ⟨⟨s', hs', hd'⟩, name_eq⟩ := h'
  obtain ⟨k, e, enters⟩ := s.exists_enters hd
  obtain ⟨k', e', enters'⟩ := s'.exists_enters hd'
  obtain ⟨address, definedAt⟩ := enters.definedAt hs
  obtain ⟨address', definedAt'⟩ := enters'.definedAt hs'
  rw [name_eq] at definedAt'
  obtain ⟨rfl, rfl⟩ := unique.position_eq definedAt definedAt'
  obtain rfl := Option.some.inj (hs.symm.trans hs')
  exact ⟨rfl, enters.number_eq enters'⟩

theorem mem_sites {ms : List Module} {site : Site} :
    site ∈ sites ms ↔ ∃ m ∈ ms, ∃ e ∈ m.functions, site = ⟨m.name, e⟩ := by
  simp only [sites, List.mem_flatMap, List.mem_map, Array.mem_toList_iff]
  constructor
  · rintro ⟨m, mem, e, he, rfl⟩
    exact ⟨m, mem, e, he, rfl⟩
  · rintro ⟨m, mem, e, he, rfl⟩
    exact ⟨m, mem, e, he, rfl⟩

/-- What a module refers to or defines is defined in one of the modules, with the parameter types
that are known where it is referred to. -/
theorem Linkable.exists_definition (linkable : Linkable (sources.map Source.module))
    (mem : s ∈ sources) (he : s.module.functions[k]? = some e) :
    ∃ j n d, DefinitionAt sources e.name j n d ∧ TypesSettle e.params d.paramTypes := by
  cases internal : e.isExternal with
  | false =>
    obtain ⟨n, d, enters⟩ := s.exists_enters_of_entry he internal
    obtain ⟨j, hs⟩ := List.mem_iff_getElem?.1 mem
    refine ⟨j, n, d, ⟨⟨s, hs, enters.definition_eq⟩, enters.name_eq.symm⟩, ?_⟩
    rw [enters.params_eq]
    exact .refl _
  | true =>
    have site : ⟨s.module.name, e⟩ ∈ sites (sources.map Source.module) :=
      mem_sites.2 ⟨_, List.mem_map_of_mem mem, e, Array.mem_of_getElem? he, rfl⟩
    obtain ⟨target, found, defines⟩ := linkable.defined _ site internal
    have agree := linkable.agree _ site internal _ found defines
    obtain ⟨m, hm, g, hg, rfl⟩ := mem_sites.1 found
    obtain ⟨s', mem', rfl⟩ := List.mem_map.1 hm
    obtain ⟨k', hk⟩ := Array.mem_iff_getElem?.1 hg
    obtain ⟨n, d, enters⟩ := s'.exists_enters_of_entry hk defines.1
    obtain ⟨j, hs⟩ := List.mem_iff_getElem?.1 mem'
    refine ⟨j, n, d, ⟨⟨s', hs, enters.definition_eq⟩, enters.name_eq.symm.trans defines.2⟩, ?_⟩
    rw [← enters.params_eq]
    have typed := Program.typed_of_parse s'.parse_eq d (List.mem_of_getElem? enters.definition_eq)
    rw [Definition.Typed, ← enters.params_eq] at typed
    exact agree.tail.settle typed

/-- In source texts that compile and link, every call has the parameters of the one definition of
its callee, and each argument whose type is known has the type of its parameter. -/
theorem calls_have_parameter_types {img : Image}
    (linked : linkModules (sources.map Source.module) = .ok img) (mem : s ∈ sources)
    {items : List Item} {t : Tables} (allocated : s.program.allocate = .ok (items, t))
    {c : CallSite} (called : c ∈ items.flatMap (·.term.callSites)) :
    ∃ j n d, DefinitionAt sources c.callee j n d ∧
      (∀ j' n' d', DefinitionAt sources c.callee j' n' d' → j' = j ∧ n' = n) ∧
      List.Forall₂ (fun arg param => arg.type.isKnown = true → param.type = arg.type)
        c.args d.params := by
  have linkable : Linkable (sources.map Source.module) := by
    rw [linkModules_eq] at linked
    exact Image.exists_link_eq_ok_iff.1 ⟨img, linked⟩
  obtain ⟨items', t', allocated', small, module_eq⟩ := s.module_eq
  cases allocated.symm.trans allocated'
  obtain ⟨calls, -⟩ := Program.allocate_typed (Program.typed_of_parse s.parse_eq) allocated
  obtain ⟨f, hf, name_eq, accepted⟩ := calls c called
  obtain ⟨e, he, name_eq', types_eq, -⟩ :=
    (Program.allocate_spec allocated).entry_tableModule small s.name hf
  rw [← module_eq] at he
  obtain ⟨j, n, d, definition, settles⟩ := linkable.exists_definition mem he
  rw [name_eq', name_eq] at definition
  refine ⟨j, n, d, definition, fun j' n' d' => definition.position_eq linkable.unique, ?_⟩
  rw [FunctionEntry.params, types_eq] at settles
  have passed := accepted.trans settles
  exact List.forall₂_map_right_iff.1 (List.forall₂_map_left_iff.1 passed)

/-- Two source texts: the first calls functions before it declares and defines them, and the second
defines what the first declares. -/
def scatteredTexts : List (String × String) :=
  [("main", "(scale (half 9) 2) (def scale (x k) (* x k)) (weigh 1.5 3)
      (extern half (int) int) (extern weigh (double int) double)"),
    ("lib", "(def weigh ((w double) n) double w) (def half (n) int (/ n 2))")]

/-- The call passes a floating-point value and an integer. -/
def isWeighing (c : CallSite) : Bool := c.callee == "weigh" && c.argTypes == [.double, .int]

theorem calls_have_parameter_types_scattered :
    ∃ (sources : List Source) (img : Image) (s : Source) (items : List Item) (t : Tables)
      (c : CallSite), linkModules (sources.map Source.module) = .ok img ∧ s ∈ sources ∧
        s.program.allocate = .ok (items, t) ∧ c ∈ items.flatMap (·.term.callSites) ∧
        isWeighing c = true ∧
        ∃ j n d, DefinitionAt sources c.callee j n d ∧
          (∀ j' n' d', DefinitionAt sources c.callee j' n' d' → j' = j ∧ n' = n) ∧
          List.Forall₂ (fun arg param => arg.type.isKnown = true → param.type = arg.type)
            c.args d.params := by
  have evaluated : (linkTexts? scatteredTexts).any (fun linked =>
      linked.2.code.size ≤ UInt64.size ∧ linked.1.any fun s =>
        s.program.allocate.toOption.any fun allocated =>
          (allocated.1.flatMap (·.term.callSites)).any isWeighing) = true := by
    decide +kernel
  obtain ⟨⟨sources, img⟩, linked, facts⟩ := (Option.any_eq_true _ _).1 evaluated
  obtain ⟨words, found⟩ := of_decide_eq_true facts
  obtain ⟨s, mem, found⟩ := List.any_eq_true.1 found
  obtain ⟨⟨items, t⟩, allocated, found⟩ := (Option.any_eq_true _ _).1 found
  obtain ⟨c, called, weighing⟩ := List.any_eq_true.1 found
  have linked := (linked_of_linkTexts? linked words).link_eq
  cases result : s.program.allocate with
  | error e =>
    rw [result] at allocated
    cases allocated
  | ok value =>
    rw [result] at allocated
    cases allocated
    exact ⟨sources, img, s, items, t, c, linked, mem, result, called, weighing,
      calls_have_parameter_types linked mem result called⟩

end

end RegLisp
