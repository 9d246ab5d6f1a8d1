import RegLisp.Proofs.CodeStarts
import RegLisp.Proofs.LinkAcceptance

/-!
# What the indices of an image mean

An image joins the sections of its modules in their order. Inside a module, an index means the
module's own constant, or the one definition of the name that the module's own entry has. All
references are filled in.
-/

namespace RegLisp

/-- Where the sections of module number `j` start: behind those of the modules before it. -/
def startsOf (ms : List Module) (j : Nat) : Offsets :=
  { functions := ((ms.take j).map (·.functions.size)).sum
    constants := ((ms.take j).map (·.constants.size)).sum
    code := ((ms.take j).map (·.code.size)).sum }

/-- All definitions lie inside the code of their modules. -/
def DefinitionsInside (ms : List Module) : Prop :=
  ∀ m ∈ ms, ∀ e ∈ m.functions, ∀ address ∈ e.address, address.toNat < m.code.size

/-- Entry number `k` of module number `d` defines the name, at an address of its module. -/
structure DefinedAt (ms : List Module) (name : String) (d k : Nat) (m : Module)
    (e : FunctionEntry) (address : UInt64) : Prop where
  module_eq : ms[d]? = some m
  entry_eq : m.functions[k]? = some e
  name_eq : e.name = name
  address_eq : e.address = some address

/-- The slot stands for entry `f`. It has what the one definition of the name has, which is entry
number `k` of module number `d`. -/
structure StandsFor (ms : List Module) (img : Image) (f : FunctionEntry) (slot : LinkedFunction)
    (d k : Nat) (m : Module) (e : FunctionEntry) (address : UInt64) : Prop where
  definition : DefinedAt ms f.name d k m e address
  unique : ∀ d' k' m' e' address', DefinedAt ms f.name d' k' m' e' address' → d' = d ∧ k' = k
  name_eq : slot.name = f.name
  types_eq : slot.types = f.types
  address_eq : slot.address = (startsOf ms d).code + address.toNat
  module_eq : slot.module = d
  reservation_eq : slot.reservation = e.reservation
  instruction : ∃ i, m.code[address.toNat]? = some i ∧ img.code[slot.address]? = some i

/-- The image consists of the modules, one behind the other. -/
structure Image.Joins (img : Image) (ms : List Module) : Prop where
  code : img.code = (ms.flatMap (·.code.toList)).toArray
  constants : img.constants = (ms.flatMap (·.constants.toList)).toArray
  modules : img.modules = (ms.mapIdx fun j m => (m.withOffsets (startsOf ms j)).span).toArray
  constant : ∀ j i, img.constant j i = ms[j]?.bind (·.constants[i]?)
  function : ∀ j m i f, ms[j]? = some m → m.functions[i]? = some f →
    ∃ slot d k m' e address, img.function j i = some slot ∧
      StandsFor ms img f slot d k m' e address
  /-- The table of the image may go on behind the entries of a module, but not inside it. -/
  function_past : ∀ j i, (∀ m, ms[j]? = some m → m.functions.size ≤ i) → img.function j i = none
  /-- No slot is open, unless there is so much code that the open address lies inside it. -/
  filled : ∀ slot ∈ img.functions, slot.address < img.code.size ∧
    (img.code.size ≤ openAddress → slot.address ≠ openAddress)

/-! ## Positions -/

section

variable {ms : List Module} {name : String} {d d' k k' : Nat} {m m' : Module}
  {e e' : FunctionEntry} {address address' : UInt64}

theorem DefinedAt.defines (h : DefinedAt ms name d k m e address) :
    (Site.mk m.name e).Defines name :=
  ⟨by simp [FunctionEntry.isExternal, h.address_eq], h.name_eq⟩

theorem DefinedAt.getElem?_sites (h : DefinedAt ms name d k m e address) :
    (m.functions.toList.map (Site.mk m.name))[k]? = some ⟨m.name, e⟩ := by
  simp [h.entry_eq]

/-- With unique names, no module defines a name that one before it defines. -/
theorem UniqueNames.not_lt_module (h : UniqueNames (sites ms))
    (definition : DefinedAt ms name d k m e address)
    (other : DefinedAt ms name d' k' m' e' address') : ¬ d < d' := by
  intro lt
  obtain ⟨-, between⟩ := List.pairwise_flatMap.1 h
  exact pairwise_getElem? between definition.module_eq other.module_eq lt
    _ (List.mem_of_getElem? definition.getElem?_sites) _ (List.mem_of_getElem? other.getElem?_sites)
    name definition.defines other.defines

/-- With unique names, no entry of a module defines a name that one before it defines. -/
theorem UniqueNames.not_lt_entry (h : UniqueNames (sites ms))
    (definition : DefinedAt ms name d k m e address)
    (other : DefinedAt ms name d k' m e' address') : ¬ k < k' := by
  intro lt
  obtain ⟨within, -⟩ := List.pairwise_flatMap.1 h
  exact pairwise_getElem? (within m (List.mem_of_getElem? definition.module_eq))
    definition.getElem?_sites other.getElem?_sites lt name definition.defines other.defines

/-- With unique names, a name is defined at one position. -/
theorem UniqueNames.position_eq (h : UniqueNames (sites ms))
    (definition : DefinedAt ms name d k m e address)
    (other : DefinedAt ms name d' k' m' e' address') : d' = d ∧ k' = k := by
  have not_lt := h.not_lt_module definition other
  have not_gt := h.not_lt_module other definition
  obtain rfl : d' = d := by omega
  obtain rfl : m' = m := Option.some.inj (other.module_eq.symm.trans definition.module_eq)
  have not_lt' := h.not_lt_entry definition other
  have not_gt' := h.not_lt_entry other definition
  exact ⟨rfl, by omega⟩

end

theorem assignOffsets_getElem? (ms : List Module) (j : Nat) :
    (assignOffsets ms)[j]? = ms[j]?.map (·.withOffsets (startsOf ms j)) := by
  rw [assignOffsets, placeFrom_getElem?, Offsets.afterAll_eq]
  simp [startsOf]

/-- A section of an image does not depend on where the modules are placed. -/
theorem foldl_append_placeFrom {α : Type} {f : Module → Array α}
    (hf : ∀ m o, f (m.withOffsets o) = f m) (o : Offsets) (ms : List Module) (done : Array α) :
    (placeFrom o ms).foldl (fun ys m => ys ++ f m) done =
      done ++ (ms.flatMap fun m => (f m).toList).toArray := by
  induction ms generalizing o done with
  | nil => simp [placeFrom]
  | cons m ms ih =>
    rw [placeFrom, List.foldl_cons, ih, hf, List.flatMap_cons]
    apply Array.ext'
    simp

theorem mem_rowsFrom {index : Nat} {ms : List Module} {r : Row} (h : r ∈ rowsFrom index ms) :
    ∃ j m f, ms[j]? = some m ∧ f ∈ m.functions ∧ r = ⟨index + j, m, f⟩ := by
  induction ms generalizing index with
  | nil => simp [rowsFrom] at h
  | cons m ms ih =>
    rw [rowsFrom, List.mem_append] at h
    rcases h with h | h
    · simp only [Module.rows, List.mem_map, Array.mem_toList_iff] at h
      obtain ⟨f, hf, rfl⟩ := h
      exact ⟨0, m, f, rfl, hf, rfl⟩
    · obtain ⟨j, m', f, hm, hf, rfl⟩ := ih h
      exact ⟨j + 1, m', f, hm, hf, by rw [Nat.add_right_comm, Nat.add_assoc]⟩

/-! ## Images -/

section

variable {ms : List Module} {img : Image}

theorem exists_of_getElem?_assignOffsets {j : Nat} {m : Module}
    (hm : (assignOffsets ms)[j]? = some m) :
    ∃ m', ms[j]? = some m' ∧ m = m'.withOffsets (startsOf ms j) := by
  rw [assignOffsets_getElem?] at hm
  obtain ⟨m', hm', rfl⟩ := Option.map_eq_some_iff.1 hm
  exact ⟨m', hm', rfl⟩

/-- The span table has a module's own part at the place where its sections start. -/
theorem Links.modules_eq (h : Links (assignOffsets ms) img) :
    img.modules = (ms.mapIdx fun j m => (m.withOffsets (startsOf ms j)).span).toArray := by
  rw [h.modules]
  congr 1
  apply List.ext_getElem?
  intro j
  rw [List.getElem?_map, assignOffsets_getElem?, List.getElem?_mapIdx, Option.map_map]
  rfl

theorem Links.constant_of_index (h : Links (assignOffsets ms) img) (j i : Nat) :
    img.constant j i = ms[j]?.bind (·.constants[i]?) := by
  cases hm : ms[j]? with
  | none => simp [Image.constant, h.modules_eq, hm]
  | some m =>
    have placed : (assignOffsets ms)[j]? = some (m.withOffsets (startsOf ms j)) := by
      rw [assignOffsets_getElem?, hm, Option.map_some]
    exact h.constant_eq placed i

/-- The definition that an entry stands for lies in the code of the image. -/
theorem Links.exists_instruction (h : Links (assignOffsets ms) img)
    (inside : DefinitionsInside ms) {j d : Nat} {f e : FunctionEntry} {m : Module}
    {address : UInt64} (resolves : Resolves (assignOffsets ms) j f d m e address) :
    ∃ m' k i, DefinedAt ms f.name d k m' e address ∧ m = m'.withOffsets (startsOf ms d) ∧
      m'.code[address.toNat]? = some i ∧
        img.code[(startsOf ms d).code + address.toNat]? = some i := by
  obtain ⟨m', hm', rfl⟩ := exists_of_getElem?_assignOffsets resolves.module_eq
  obtain ⟨k, hk⟩ := Array.mem_iff_getElem?.1 resolves.mem
  have lt : address.toNat < m'.code.size :=
    inside m' (List.mem_of_getElem? hm') e resolves.mem address resolves.address_eq
  have code := h.getElem?_code resolves.module_eq (a := address.toNat) lt
  refine ⟨m', k, m'.code[address.toNat], ⟨hm', hk, resolves.name_eq, resolves.address_eq⟩, rfl,
    Array.getElem?_eq_getElem lt, ?_⟩
  rw [← Array.getElem?_eq_getElem lt]
  exact code

/-- The slots of an image are what the rows of the entries are resolved to. -/
theorem Links.mapM_rows (h : Links (assignOffsets ms) img) :
    (placedRows ms).mapM (Row.resolve (knownFrom 0 (assignOffsets ms)).reverse) =
      .ok img.functions.toList := by
  have functions := h.functions
  rw [resolveAll_eq_mapM, ← placedRows] at functions
  cases resolved : (placedRows ms).mapM
      (Row.resolve (knownFrom 0 (assignOffsets ms)).reverse) with
  | error e =>
    rw [resolved] at functions
    cases functions
  | ok slots =>
    rw [resolved] at functions
    have slots_eq : img.functions = slots.toArray := by simpa [Except.map] using functions.symm
    rw [slots_eq]

/-- Every slot of an image is that of an entry. -/
theorem Links.exists_resolves (h : Links (assignOffsets ms) img) {slot : LinkedFunction}
    (mem : slot ∈ img.functions) : ∃ j f d m e address,
      Resolves (assignOffsets ms) j f d m e address ∧ slot = resolved f e d m address := by
  obtain ⟨row, listed, ok⟩ := exists_of_mem_mapM_ok h.mapM_rows (Array.mem_toList_iff.2 mem)
  obtain ⟨j, m, f, hm, hf, rfl⟩ := mem_rowsFrom listed
  rw [Row.resolve, Nat.zero_add] at ok
  obtain ⟨d, m', e, address, resolves, rfl⟩ := resolve_spec hm hf ok
  exact ⟨j, f, d, m', e, address, resolves, rfl⟩

/-- Linking joins the modules and resolves all their references. -/
theorem linkModules_joins (h : linkModules ms = .ok img) (inside : DefinitionsInside ms) :
    img.Joins ms := by
  rw [linkModules_eq] at h
  have links := Image.links_of_link h
  have linkable : Linkable ms := Image.exists_link_eq_ok_iff.1 ⟨img, h⟩
  refine ⟨?_, ?_, links.modules_eq, links.constant_of_index, ?_, ?_, ?_⟩
  · simpa using links.code.trans (foldl_append_placeFrom (fun _ _ => rfl) {} ms #[])
  · simpa using links.constants.trans (foldl_append_placeFrom (fun _ _ => rfl) {} ms #[])
  · intro j m i f hm hf
    have placed : (assignOffsets ms)[j]? = some (m.withOffsets (startsOf ms j)) := by
      rw [assignOffsets_getElem?, hm, Option.map_some]
    obtain ⟨d, m', e, address, resolves, slot_eq⟩ := links.function_eq placed hf
    obtain ⟨m'', k, i', definition, rfl, here, there⟩ := links.exists_instruction inside resolves
    refine ⟨_, d, k, m'', e, address, slot_eq, definition, ?_, resolves.name_eq, rfl, rfl, rfl,
      rfl, i', here, there⟩
    intro d' k' m' e' address' other
    exact linkable.unique.position_eq definition other
  · intro j i past
    cases slot : img.function j i with
    | none => rfl
    | some r =>
      obtain ⟨m, f, hm, hf⟩ := links.entry_of_function slot
      obtain ⟨m', hm', rfl⟩ := exists_of_getElem?_assignOffsets hm
      have le : m'.functions.size ≤ i := past m' hm'
      have lt : i < m'.functions.size := (Array.getElem?_eq_some_iff.1 hf).1
      omega
  · intro slot mem
    obtain ⟨j, f, d, m, e, address, resolves, rfl⟩ := links.exists_resolves mem
    obtain ⟨m', k, i, -, rfl, -, there⟩ := links.exists_instruction inside resolves
    have lt : (resolved f e d (m'.withOffsets (startsOf ms d)) address).address < img.code.size :=
      (Array.getElem?_eq_some_iff.1 there).1
    exact ⟨lt, by omega⟩

end

/-- Two modules that refer to each other. The second one also refers to its own definition. -/
def pingPong : List Module :=
  [.ofParts "ping" #[⟨"pong", none, [.int], 0⟩, ⟨"ping", some 1, [.int], 0⟩] #[7]
      #[⟨15, 0, 0, 0⟩, ⟨2, 0, 0, 0⟩, ⟨5, 0, 0, 0⟩],
    .ofParts "pong"
      #[⟨"ping", none, [.unknown], 0⟩, ⟨"pong", none, [.int], 0⟩, ⟨"pong", some 1, [.int], 0⟩]
      #[8, 9] #[⟨15, 0, 0, 0⟩, ⟨11, 1, 1, 0⟩, ⟨5, 0, 0, 0⟩]]

theorem linkModules_joins_pingPong :
    ∃ img, linkModules pingPong = .ok img ∧ DefinitionsInside pingPong ∧ img.Joins pingPong ∧
      img.functions.map (fun slot => (slot.name, slot.address, slot.module)) =
        #[("pong", 4, 1), ("ping", 1, 0), ("ping", 1, 0), ("pong", 4, 1), ("pong", 4, 1)] := by
  have inside : DefinitionsInside pingPong := by
    simp [DefinitionsInside, pingPong, Module.ofParts_eq, FunctionEntry.measured]
  have slots : (linkModules pingPong).toOption.map (·.functions.map fun slot =>
      (slot.name, slot.address, slot.module)) =
        some #[("pong", 4, 1), ("ping", 1, 0), ("ping", 1, 0), ("pong", 4, 1), ("pong", 4, 1)] := by
    decide +kernel
  cases linked : linkModules pingPong with
  | error e =>
    rw [linked] at slots
    cases slots
  | ok img =>
    rw [linked] at slots
    exact ⟨img, rfl, inside, linkModules_joins linked inside, Option.some.inj slots⟩

end RegLisp
