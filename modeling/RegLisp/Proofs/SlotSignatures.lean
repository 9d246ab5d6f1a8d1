import RegLisp.Proofs.LinkResolution

/-!
# What a slot has of its definition

A slot of the function table of an image has its address, its module and its frame size from the one
definition of its name, also if the slot is that of a reference and comes before the definition. The
types it has from its own entry. They agree with those of the definition, but what the entry leaves
unknown stays unknown, and a look-up by name can find such a slot.
-/

namespace RegLisp

/-- The slot of entry `f` is filled from entry number `k` of module number `d`, which is the one
definition of its name. -/
structure FilledFrom (ms : List Module) (f : FunctionEntry) (slot : LinkedFunction) (d k : Nat)
    (m : Module) (e : FunctionEntry) (address : UInt64) : Prop where
  definition : DefinedAt ms f.name d k m e address
  unique : ∀ d' k' m' e' address', DefinedAt ms f.name d' k' m' e' address' → d' = d ∧ k' = k
  name_eq : slot.name = f.name
  address_eq : slot.address = (startsOf ms d).code + address.toNat
  module_eq : slot.module = d
  reservation_eq : slot.reservation = e.reservation
  types_eq : slot.types = f.types
  /-- The types differ from those of the definition only where one of the two is unknown. -/
  types_agree : SignaturesAgree slot.types e.types
  types_defined : f.isExternal = false → slot.types = e.types
  types_known : .unknown ∉ f.types → .unknown ∉ e.types → slot.types = e.types

/-- The slot of the entry is filled from a definition. -/
def FilledFor (ms : List Module) (s : Site) (slot : LinkedFunction) : Prop :=
  ∃ d k m e address, FilledFrom ms s.entry slot d k m e address

/-- The slots of the image are those of the entries, in their order. A look-up by name finds the
slot of the first entry of that name, be it a definition or a reference. -/
structure Image.Filled (img : Image) (ms : List Module) : Prop where
  slots : List.Forall₂ (FilledFor ms) (sites ms) img.functions.toList
  found : ∀ name, Option.Rel (FilledFor ms) ((sites ms).find? (·.entry.name == name))
    (img.findFunction name)

theorem SignaturesAgree.refl (xs : List ValueType) : SignaturesAgree xs xs :=
  List.forall₂_same.2 fun _ _ => .inl rfl

/-- Signatures that agree and are known are equal. -/
theorem SignaturesAgree.eq_of_known {xs ys : List ValueType} (h : SignaturesAgree xs ys)
    (hx : .unknown ∉ xs) (hy : .unknown ∉ ys) : xs = ys := by
  induction h with
  | nil => rfl
  | cons agree _ ih =>
    rw [List.mem_cons, not_or] at hx hy
    rcases agree with rfl | rfl | rfl
    · rw [ih hx.2 hy.2]
    · exact absurd rfl hx.1
    · exact absurd rfl hy.1

/-- In lists that correspond item by item, a search that tests alike finds items that correspond. -/
theorem rel_find?_of_forall₂ {α β : Type} {r : α → β → Prop} {p : α → Bool} {q : β → Bool}
    {xs : List α} {ys : List β} (h : List.Forall₂ r xs ys) (alike : ∀ x y, r x y → p x = q y) :
    Option.Rel r (xs.find? p) (ys.find? q) := by
  induction h with
  | nil => exact .none
  | @cons x y _ _ rel _ ih =>
    rw [List.find?_cons, List.find?_cons, ← alike x y rel]
    cases p x with
    | false => exact ih
    | true => exact .some rel

section

variable {ms : List Module} {img : Image}

/-- An entry that is resolved agrees with the one definition of its name. -/
theorem Linkable.signaturesAgree (h : Linkable ms) {j d k : Nat} {m m' : Module}
    {f e : FunctionEntry} {address : UInt64} (hm : ms[j]? = some m) (hf : f ∈ m.functions)
    (definition : DefinedAt ms f.name d k m' e address) (own : f.isExternal = false → e = f) :
    SignaturesAgree f.types e.types := by
  have mem_sites {i : Nat} {n : Module} {g : FunctionEntry} (hn : ms[i]? = some n)
      (hg : g ∈ n.functions) : Site.mk n.name g ∈ sites ms :=
    List.mem_flatMap.2 ⟨n, List.mem_of_getElem? hn, List.mem_map_of_mem (Array.mem_toList_iff.2 hg)⟩
  cases external : f.isExternal with
  | false =>
    rw [own external]
    exact .refl f.types
  | true =>
    exact h.agree _ (mem_sites hm hf) external _
      (mem_sites definition.module_eq (Array.mem_of_getElem? definition.entry_eq))
      definition.defines

/-- The slot of a row is filled from the definition of its name. -/
theorem Linkable.filledFor (h : Linkable ms) {r : Row} (mem : r ∈ placedRows ms)
    {slot : LinkedFunction}
    (ok : r.resolve (knownFrom 0 (assignOffsets ms)).reverse = .ok slot) :
    FilledFor ms r.site slot := by
  obtain ⟨j, m, f, hm, hf, rfl⟩ := mem_rowsFrom mem
  rw [Row.resolve, Nat.zero_add] at ok
  obtain ⟨d, m', e, address, resolves, rfl⟩ := resolve_spec hm hf ok
  obtain ⟨n, hn, rfl⟩ := exists_of_getElem?_assignOffsets hm
  obtain ⟨n', hn', rfl⟩ := exists_of_getElem?_assignOffsets resolves.module_eq
  obtain ⟨k, hk⟩ := Array.mem_iff_getElem?.1 resolves.mem
  have definition : DefinedAt ms f.name d k n' e address :=
    ⟨hn', hk, resolves.name_eq, resolves.address_eq⟩
  have own (defined : f.isExternal = false) : e = f := (resolves.own defined).2
  have agree : SignaturesAgree f.types e.types := h.signaturesAgree hn hf definition own
  exact ⟨d, k, n', e, address,
    { definition
      unique := fun _ _ _ _ _ other => h.unique.position_eq definition other
      name_eq := resolves.name_eq
      address_eq := rfl
      module_eq := rfl
      reservation_eq := rfl
      types_eq := rfl
      types_agree := agree
      types_defined := fun defined => by rw [own defined]; rfl
      types_known := agree.eq_of_known }⟩

/-- Linking fills every slot from the one definition of its name, the types apart. -/
theorem linkModules_fills (h : linkModules ms = .ok img) : img.Filled ms := by
  rw [linkModules_eq] at h
  have linkable : Linkable ms := Image.exists_link_eq_ok_iff.1 ⟨img, h⟩
  have slots : List.Forall₂ (FilledFor ms) (sites ms) img.functions.toList := by
    rw [← map_site_placedRows, List.forall₂_map_left_iff]
    have rows := (List.forall₂_and_left _ _).2
      ⟨fun r mem => mem, mapM_eq_ok_iff_forall₂.1 (Image.links_of_link h).mapM_rows⟩
    exact rows.imp fun r slot ⟨mem, ok⟩ => linkable.filledFor mem ok
  refine ⟨slots, ?_⟩
  intro name
  rw [Image.findFunction, ← Array.find?_toList]
  refine rel_find?_of_forall₂ slots ?_
  rintro s slot ⟨d, k, m, e, address, filled⟩
  rw [filled.name_eq]

end

/-- A module that defines a function with known types. -/
def typedDefinition : Module :=
  .ofParts "b" #[⟨"f", some 1, [.int, .int], 0⟩] #[] #[⟨15, 0, 0, 0⟩, ⟨14, 1, 0, 0⟩, ⟨5, 0, 0, 0⟩]

/-- A module that calls the function without knowing the type of its result, and the one that
defines it. -/
def partlyTyped : List Module :=
  [.ofParts "a" #[⟨"f", none, [.unknown, .int], 0⟩] #[1]
      #[⟨11, 1, 0, 0⟩, ⟨14, 1, 1, 1⟩, ⟨2, 0, 0, 0⟩, ⟨14, 0, 0, 2⟩, ⟨15, 0, 0, 0⟩],
    typedDefinition]

theorem linkModules_fills_partlyTyped :
    ∃ img, linkModules partlyTyped = .ok img ∧ img.Filled partlyTyped ∧
      img.functions = #[⟨"f", 6, 1, 2, [.unknown, .int]⟩, ⟨"f", 6, 1, 2, [.int, .int]⟩] := by
  have slots : (linkModules partlyTyped).toOption.map (·.functions) =
      some #[⟨"f", 6, 1, 2, [.unknown, .int]⟩, ⟨"f", 6, 1, 2, [.int, .int]⟩] := by
    decide +kernel
  cases linked : linkModules partlyTyped with
  | error e =>
    rw [linked] at slots
    cases slots
  | ok img =>
    rw [linked] at slots
    exact ⟨img, rfl, linkModules_fills linked, Option.some.inj slots⟩

/-- The slot has the types that its name is defined with. -/
def LinkedFunction.AsDefined (ms : List Module) (slot : LinkedFunction) : Prop :=
  ∀ d k m e address, DefinedAt ms slot.name d k m e address → slot.types = e.types

/-- A slot, also one that a look-up finds, need not have the types of the definition. -/
theorem partlyTyped_not_asDefined :
    ∃ img slot, linkModules partlyTyped = .ok img ∧ slot ∈ img.functions ∧
      img.findFunction "f" = some slot ∧ ¬ slot.AsDefined partlyTyped := by
  have found : (linkModules partlyTyped).toOption.map (·.findFunction "f") =
      some (some ⟨"f", 6, 1, 2, [.unknown, .int]⟩) := by
    decide +kernel
  have definition :
      DefinedAt partlyTyped "f" 1 0 typedDefinition ⟨"f", some 1, [.int, .int], 2⟩ 1 :=
    ⟨rfl, by decide +kernel, rfl, rfl⟩
  cases linked : linkModules partlyTyped with
  | error e =>
    rw [linked] at found
    cases found
  | ok img =>
    rw [linked] at found
    have found' : img.findFunction "f" = some ⟨"f", 6, 1, 2, [.unknown, .int]⟩ :=
      Option.some.inj found
    refine ⟨img, _, rfl, Array.mem_of_find?_eq_some found', found', ?_⟩
    intro asDefined
    have types := asDefined _ _ _ _ _ definition
    revert types
    decide

end RegLisp
