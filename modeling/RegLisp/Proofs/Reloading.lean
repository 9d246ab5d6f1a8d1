import RegLisp.Proofs.GenerationPasses
import RegLisp.Proofs.ModuleFormat

/-!
# Reading a compiled file back

The file of every program that compiles can be read back. It gives the tables of the unit, and the
instructions that the second pass of generation has written. The header counts just these, and
each function starts where the pass wrote the first instruction of its body.
-/

namespace RegLisp

/-! ## Opcodes -/

/-- All instructions start with the byte of an opcode. -/
def HasOpcodes (is : List Instruction) : Prop := ∀ i ∈ is, i.opcode < 16

theorem Opcode.toByte_lt (op : Opcode) : op.toByte < 16 := by
  cases op <;> decide

theorem HasOpcodes.append {is js : List Instruction} (h : HasOpcodes is) (h' : HasOpcodes js) :
    HasOpcodes (is ++ js) :=
  List.forall_mem_append.2 ⟨h, h'⟩

theorem HasOpcodes.cons {i : Instruction} {is : List Instruction} (h : i.opcode < 16)
    (h' : HasOpcodes is) : HasOpcodes (i :: is) :=
  List.forall_mem_cons.2 ⟨h, h'⟩

theorem hasOpcodes_nil : HasOpcodes [] := List.forall_mem_nil _

theorem hasOpcodes_moveCode (src dst : Nat) : HasOpcodes (moveCode src dst) := by
  unfold moveCode
  split
  · exact hasOpcodes_nil
  · exact .cons (Opcode.toByte_lt _) hasOpcodes_nil

theorem Term.hasOpcodes_settleCode (t : Term) (dst : Nat) : HasOpcodes (t.settleCode dst) := by
  unfold settleCode
  split
  · exact hasOpcodes_nil
  · exact hasOpcodes_moveCode _ _

theorem hasOpcodes_passCode (mode : MoveMode) (reg count : Nat) :
    HasOpcodes (passCode mode reg count) := by
  intro i mem
  obtain ⟨k, -, rfl⟩ := List.mem_map.1 mem
  exact Opcode.toByte_lt _

theorem hasOpcodes_callCode (external tail : Bool) (reg index count : Nat) :
    HasOpcodes (callCode external tail reg index count) := by
  unfold callCode
  split
  · exact (hasOpcodes_passCode _ _ _).append (.cons (Opcode.toByte_lt _) hasOpcodes_nil)
  · exact (hasOpcodes_passCode _ _ _).append
      (.cons (Opcode.toByte_lt _) (.cons (Opcode.toByte_lt _) hasOpcodes_nil))

mutual

theorem Term.hasOpcodes_code (external : Nat → Bool) : ∀ t : Term, HasOpcodes (t.code external)
  | .const _ _ _ => .cons (Opcode.toByte_lt _) hasOpcodes_nil
  | .var _ _ _ => hasOpcodes_nil
  | .binary _ _ _ lhs rhs =>
    ((lhs.hasOpcodes_code external).append (rhs.hasOpcodes_code external)).append
      (.cons (Opcode.toByte_lt _) hasOpcodes_nil)
  | .cond _ _ _ _ test onTrue onFalse => by
    refine ((test.hasOpcodes_code external).append (.cons (Opcode.toByte_lt _) ?_)).append
      (.cons (Opcode.toByte_lt _) ?_)
    · exact (onTrue.hasOpcodes_code external).append (onTrue.hasOpcodes_settleCode _)
    · exact (onFalse.hasOpcodes_code external).append (onFalse.hasOpcodes_settleCode _)
  | .call _ _ _ _ _ args =>
    (Term.hasOpcodes_argsCode external args).append (hasOpcodes_callCode _ _ _ _ _)

theorem Term.hasOpcodes_argsCode (external : Nat → Bool) :
    ∀ (args : List Term) {slot : Nat}, HasOpcodes (Term.argsCode external slot args)
  | [], _ => hasOpcodes_nil
  | arg :: args, _ =>
    ((arg.hasOpcodes_code external).append (hasOpcodes_moveCode _ _)).append
      (Term.hasOpcodes_argsCode external args)

end

theorem hasOpcodes_programCode (external : Nat → Bool) (items : List Item) :
    HasOpcodes (programCode external items) := by
  refine HasOpcodes.append ?_ (.cons (Opcode.toByte_lt _) ?_)
  · intro i mem
    obtain ⟨t, -, mem⟩ := List.mem_flatMap.1 mem
    exact (t.hasOpcodes_code external).append (hasOpcodes_moveCode _ _) i mem
  · intro i mem
    obtain ⟨⟨_, t⟩, -, mem⟩ := List.mem_flatMap.1 mem
    exact ((t.hasOpcodes_code external).append (t.hasOpcodes_settleCode 0)).append
      (.cons (Opcode.toByte_lt _) hasOpcodes_nil) i mem

/-! ## Files -/

theorem FunctionEntry.encode_bare (f : FunctionEntry) : f.bare.encode = f.encode := by
  have stored : f.bare.storedAddress = f.storedAddress := by
    by_cases external : f.storedAddress = externalAddress
    · simp only [bare, if_pos external]
      exact external.symm
    · simp only [bare, if_neg external]
      rfl
  simp only [encode, stored]
  rfl

theorem encodeParts_bare (functions : Array FunctionEntry) (constants : List UInt64)
    (code : List Instruction) :
    encodeParts (functions.map FunctionEntry.bare).toList constants code =
      encodeParts functions.toList constants code := by
  simp [encodeParts, encodeFunctions, List.flatMap_map, FunctionEntry.encode_bare]

/-- The bytes of the header that count instructions. -/
theorem count_encodeParts (functions : List FunctionEntry) (constants : List UInt64)
    (code : List Instruction) :
    ((encodeParts functions constants code).drop 8).take 8 = littleEndian 8 code.length := by
  simp [encodeParts, encodeHeader, magic, List.drop_append, List.take_append]

theorem length_code_le (functions : List FunctionEntry) (constants : List UInt64)
    (code : List Instruction) :
    code.length ≤ (encodeParts functions constants code).length := by
  simp only [encodeParts, List.length_append, length_encodeCode]
  omega

namespace AllocatedGlobals

variable {globals : List Global} {items : List Item} {t : Tables}

/-- What is generated is within the limits of a module file. -/
theorem fileParts (h : AllocatedGlobals {} globals items t)
    (small : (tableCode items t).length < UInt64.size) :
    FileParts ((placedTable items t).map FunctionEntry.bare) (patchedPool items t)
      (tableCode items t).toArray := by
  have laidOut := h.laidOut small
  refine ⟨?_, ?_, by simpa using small, ?_, ?_, ?_, ?_⟩
  · rw [size_patchedPool]
    exact h.grows.valid.constants_le
  · rw [Array.size_map, size_placedTable]
    exact h.grows.valid.functions_le
  · intro f mem
    obtain ⟨g, -, rfl⟩ := Array.mem_map.1 mem
    rfl
  · intro f mem
    obtain ⟨g, hg, rfl⟩ := Array.mem_map.1 mem
    obtain ⟨name_le, types_le⟩ := h.storable.short g (Array.mem_toList_iff.2 hg)
    exact ⟨name_le, types_le⟩
  · intro i mem
    exact hasOpcodes_programCode _ _ i (List.mem_toArray.1 mem)
  · intro f mem a ha
    obtain ⟨i, hi⟩ := Array.mem_iff_getElem?.1 mem
    obtain ⟨l, laid, -, start⟩ := laidOut.laid_of_address i f a hi ha
    have := laidOut.stop_le laid
    have := l.start_lt_stop
    rw [List.size_toArray]
    omega

/-- The file that is generated can be read. -/
theorem decode_eq (h : AllocatedGlobals {} globals items t)
    (small : (tableCode items t).length < UInt64.size) (name : String) :
    Module.decode name (encodeParts (placedTable items t).toList (patchedPool items t).toList
      (tableCode items t)) = .ok (tableModule name items t) := by
  have read := (h.fileParts small).decode_eq name
  rwa [encodeParts_bare] at read

end AllocatedGlobals

/-- The file of a program that compiles is that of what allocation gives. -/
theorem Program.toModule_of_compile {p : Program} {name : String} {unit : CompiledUnit}
    (h : p.compile name = .ok unit) (fits : unit.bytes.length < UInt64.size) :
    ∃ items t, p.allocate = .ok (items, t) ∧ (tableCode items t).length < UInt64.size ∧
      unit = .generate name items t ∧ unit.toModule = .ok (tableModule name items t) := by
  unfold Program.compile at h
  split at h
  · cases h
  rename_i items t allocated
  cases h
  have spec := Program.allocate_spec allocated
  have small : (tableCode items t).length < UInt64.size := by
    rw [spec.generate_eq] at fits
    exact Nat.lt_of_le_of_lt (length_code_le _ _ _) fits
  refine ⟨items, t, allocated, small, rfl, ?_⟩
  rw [CompiledUnit.toModule, spec.generate_eq]
  exact spec.decode_eq small name

/-! ## Places of bodies -/

/-- The pass when it comes to body number `n`. -/
def Pass.before (p : Pass) (items : List Item) (n : Nat) : Pass :=
  ((bodies items).take n).foldl body (p.entrySection items)

theorem Pass.before_succ (p : Pass) {items : List Item} {n : Nat} {b : Nat × Term}
    (hb : (bodies items)[n]? = some b) : p.before items (n + 1) = (p.before items n).body b := by
  rw [before, List.take_add_one, hb, List.foldl_append]
  rfl

/-- The code of a program before body number `n`. -/
def codeBefore (external : Nat → Bool) (items : List Item) (n : Nat) : List Instruction :=
  entrySection external (entryTerms items) ++
    ((bodies items).take n).flatMap fun b => b.2.bodyCode external

theorem codeBefore_succ (external : Nat → Bool) {items : List Item} {n : Nat} {b : Nat × Term}
    (hb : (bodies items)[n]? = some b) :
    codeBefore external items (n + 1) = codeBefore external items n ++ b.2.bodyCode external := by
  simp [codeBefore, List.take_add_one, hb]

theorem programCode_split (external : Nat → Bool) (items : List Item) (n : Nat) :
    programCode external items = codeBefore external items n ++
      ((bodies items).drop n).flatMap fun b => b.2.bodyCode external := by
  rw [programCode_eq, codeBefore, List.append_assoc, ← List.flatMap_append, List.take_append_drop]

theorem length_codeBefore (external : Nat → Bool) (items : List Item) (n : Nat) :
    (codeBefore external items n).length =
      entriesSize (entryTerms items) + 1 + bodiesSize ((bodies items).take n) := by
  simp [codeBefore, length_entrySection, List.length_flatMap, bodiesSize, Term.length_bodyCode]

theorem layBodies_getElem? (address : Nat) {bs : List (Nat × Term)} {n : Nat} {b : Nat × Term}
    (hb : bs[n]? = some b) :
    (layBodies address bs)[n]? = some ⟨b.1, address + bodiesSize (bs.take n), b.2⟩ := by
  induction bs generalizing address n with
  | nil => simp at hb
  | cons b' bs ih =>
    cases n with
    | zero =>
      cases hb
      simp [layBodies, bodiesSize]
    | succ n =>
      rw [layBodies, List.getElem?_cons_succ, ih _ hb]
      simp [bodiesSize, Nat.add_assoc]

namespace AllocatedGlobals

variable {globals : List Global} {items : List Item} {t : Tables}

/-- The second pass has written the code before a body when it comes to the body. -/
theorem written_before (h : AllocatedGlobals {} globals items t) (n : Nat) :
    ((t.forwardPass items).rewind.before items n).written =
      (codeBefore (isExternalAt (placedTable items t)) items n).toArray := by
  have functions : ((t.forwardPass items).rewind.entrySection items).functions =
      placedTable items t := by
    rw [Pass.entrySection_eq, Pass.advance_functions, h.forwardPass_eq]
    rfl
  have defined : ∀ b ∈ (bodies items).take n,
      isExternalAt ((t.forwardPass items).rewind.entrySection items).functions b.1 = false := by
    rw [functions]
    exact fun b mem => h.isExternalAt_placed_body b (List.mem_of_mem_take mem)
  rw [Pass.before, Pass.foldl_body _ _ defined, functions, Pass.entrySection_eq, h.forwardPass_eq]
  simp [Pass.withFunctions, Pass.advance, Pass.rewind, codeBefore]

end AllocatedGlobals

/-! ## Reading back -/

/-- Definition number `n` of a program is the function at an index. It starts at the first of the
instructions that the pass writes for its body. -/
structure StartsAtBody (unit : CompiledUnit) (items : List Item) (pass : Pass) (n : Nat)
    (d : Definition) (index : Nat) (term : Term) (f : FunctionEntry) : Prop where
  body_eq : (bodies items)[n]? = some (index, term)
  entry_eq : unit.functions[index]? = some f
  name_eq : f.name = d.name
  address_eq : f.address.map UInt64.toNat = some (pass.before items n).written.size
  written_eq : ∃ first code rest,
    ((pass.before items n).body (index, term)).written =
      (pass.before items n).written ++ (first :: code).toArray ∧
    (pass.run items).written =
      (pass.before items n).written ++ (first :: code).toArray ++ rest

/-- What an entry of a function table tells of a function. -/
def FunctionEntry.facts (f : FunctionEntry) : String × Option UInt64 × Bool × List ValueType :=
  (f.name, f.address, f.isExternal, f.types)

/-- The module that is read back from a unit has what generation has put into the unit. -/
structure Reloads (p : Program) (unit : CompiledUnit) (m : Module) (items : List Item)
    (forward emitting : Pass) : Prop where
  constants_eq : m.constants = unit.constants
  functions_eq : m.functions.map FunctionEntry.facts = unit.functions.map FunctionEntry.facts
  code_eq : m.code = (emitting.run items).written
  /-- The header counts the instructions that are written. -/
  count_eq : ofLittleEndian ((unit.bytes.drop 8).take 8) = (emitting.run items).written.size
  /-- The tables that are written after the first pass are those that the second one leaves. -/
  forward_functions : forward.functions = (emitting.run items).functions
  forward_constants : forward.constants = (emitting.run items).constants
  forward_counter : forward.counter = (emitting.run items).counter
  unit_functions : unit.functions = (emitting.run items).functions
  unit_constants : unit.constants = (emitting.run items).constants
  definition_starts : ∀ n d, p.definitions[n]? = some d →
    ∃ index term f, StartsAtBody unit items emitting n d index term f
  defined_starts : ∀ index f, unit.functions[index]? = some f → f.isExternal = false →
    ∃ n d term, p.definitions[n]? = some d ∧ StartsAtBody unit items emitting n d index term f

namespace AllocatedGlobals

variable {p : Program} {items : List Item} {t : Tables}

theorem exists_body (h : AllocatedGlobals {} p.globals items t) {n : Nat} {d : Definition}
    (hd : p.definitions[n]? = some d) :
    ∃ b, (bodies items)[n]? = some b ∧ PlacedBody t d b := by
  obtain ⟨length, placed⟩ := List.forall₂_iff_get.1 h.definitions
  obtain ⟨lt, rfl⟩ := List.getElem?_eq_some_iff.1 hd
  exact ⟨_, List.getElem?_eq_getElem (length ▸ lt), placed n lt (length ▸ lt)⟩

theorem exists_definition (h : AllocatedGlobals {} p.globals items t) {n : Nat} {b : Nat × Term}
    (hb : (bodies items)[n]? = some b) : ∃ d, p.definitions[n]? = some d := by
  have lt := (List.getElem?_eq_some_iff.1 hb).1
  rw [← h.definitions.length_eq] at lt
  exact ⟨_, List.getElem?_eq_getElem lt⟩

/-- An entry that has an address is that of a body. -/
theorem exists_body_of_defined (h : AllocatedGlobals {} p.globals items t) {i : Nat}
    {f : FunctionEntry} (hf : (placedTable items t)[i]? = some f)
    (defined : f.isExternal = false) :
    ∃ (n : Nat) (d : Definition) (b : Nat × Term), p.definitions[n]? = some d ∧
      (bodies items)[n]? = some b ∧ b.1 = i := by
  have laid : i ∈ (laidBodies items).map Laid.index := by
    by_contra other
    have reference := (h.entry_of_not_laid other hf).2
    simp [FunctionEntry.isExternal, reference] at defined
  rw [map_index_laidBodies] at laid
  obtain ⟨b, mem, index_eq⟩ := List.mem_map.1 laid
  obtain ⟨n, hb⟩ := List.mem_iff_getElem?.1 mem
  obtain ⟨d, hd⟩ := h.exists_definition hb
  exact ⟨n, d, b, hd, hb, index_eq⟩

/-- Each definition starts at the first instruction of its body. -/
theorem startsAtBody (h : AllocatedGlobals {} p.globals items t) (name : String)
    (small : (tableCode items t).length < UInt64.size) {n : Nat} {d : Definition}
    (hd : p.definitions[n]? = some d) : ∃ index term f,
      StartsAtBody (CompiledUnit.generate name items t) items (t.forwardPass items).rewind n d
        index term f := by
  obtain ⟨⟨index, term⟩, hb, placed⟩ := h.exists_body hd
  let external := isExternalAt (placedTable items t)
  let l : Laid := ⟨index, (codeBefore external items n).length, term⟩
  have laid : l ∈ laidBodies items := by
    apply List.mem_of_getElem?
    rw [laidBodies, layBodies_getElem? _ hb, ← length_codeBefore external]
  obtain ⟨f, hf, entry⟩ := h.entry_of_laid laid
  obtain ⟨f', hf', named, -⟩ := placed.entered
  obtain rfl : f = f' := Option.some.inj (hf.symm.trans hf')
  have start := start_lt small laid
  obtain ⟨first, code, code_eq⟩ : ∃ first code, term.bodyCode external = first :: code := by
    apply List.exists_cons_of_length_pos
    rw [Term.length_bodyCode]
    exact term.bodySize_pos
  refine ⟨index, term, { f with address := some (.ofNat l.start) }, hb, ?_, named, ?_, first, code,
    (((bodies items).drop (n + 1)).flatMap fun b => b.2.bodyCode external).toArray, ?_, ?_⟩
  · rw [h.generate_eq]
    exact entry
  · rw [h.written_before, Option.map_some, UInt64.toNat_ofNat_of_lt' (by omega)]
    rfl
  · rw [← Pass.before_succ _ hb, h.written_before, h.written_before, codeBefore_succ _ hb,
      ← code_eq]
    simp [external]
  · rw [h.emittingPass_eq, h.written_before, ← code_eq, tableCode,
      programCode_split _ items (n + 1), codeBefore_succ _ hb]
    simp [external]

/-- The file tells all of an entry but its frame size. -/
theorem facts_bare (h : AllocatedGlobals {} p.globals items t)
    (small : (tableCode items t).length < UInt64.size) {f : FunctionEntry}
    (mem : f ∈ placedTable items t) : f.bare.facts = f.facts := by
  obtain ⟨i, hi⟩ := Array.mem_iff_getElem?.1 mem
  by_cases laid : i ∈ (laidBodies items).map Laid.index
  · obtain ⟨l, hl, rfl⟩ := List.mem_map.1 laid
    obtain ⟨f', -, placed⟩ := h.entry_of_laid hl
    obtain rfl := Option.some.inj (hi.symm.trans placed)
    rw [bare_placed small hl]
    rfl
  · rw [FunctionEntry.bare_reference (h.entry_of_not_laid laid hi).2]
    rfl

theorem facts_tableModule (h : AllocatedGlobals {} p.globals items t)
    (small : (tableCode items t).length < UInt64.size) (name : String) :
    (tableModule name items t).functions.map FunctionEntry.facts =
      (placedTable items t).map FunctionEntry.facts := by
  have kept : (tableModule name items t).functions.map FunctionEntry.facts =
      ((placedTable items t).map FunctionEntry.bare).map FunctionEntry.facts := by
    simp only [tableModule, Module.ofParts_eq, Array.map_map]
    congr 1
    funext f
    simp only [Function.comp_apply, FunctionEntry.measured]
    split <;> rfl
  rw [kept, Array.map_map]
  exact Array.map_congr_left fun f mem => h.facts_bare small mem

/-- An entry that is no reference is that of a definition. -/
theorem exists_startsAtBody (h : AllocatedGlobals {} p.globals items t) (name : String)
    (small : (tableCode items t).length < UInt64.size) {i : Nat} {f : FunctionEntry}
    (hf : (CompiledUnit.generate name items t).functions[i]? = some f)
    (defined : f.isExternal = false) : ∃ n d term, p.definitions[n]? = some d ∧
      StartsAtBody (CompiledUnit.generate name items t) items (t.forwardPass items).rewind n d i
        term f := by
  have entered : (placedTable items t)[i]? = some f := by rwa [h.generate_eq] at hf
  obtain ⟨n, d, ⟨index, term⟩, hd, hb, rfl⟩ := h.exists_body_of_defined entered defined
  obtain ⟨index', term', f', starts⟩ := h.startsAtBody name small hd
  obtain ⟨rfl, rfl⟩ := Prod.mk.inj (Option.some.inj (hb.symm.trans starts.body_eq))
  obtain rfl := Option.some.inj (hf.symm.trans starts.entry_eq)
  exact ⟨n, d, term, hd, starts⟩

end AllocatedGlobals

/-- The file of a program that compiles can be read back, and both passes of generation agree on
what is in it. The header counts instructions with a machine word, and lists have no bound of their
own, so the file is taken to have a length that such a word can hold. -/
theorem Program.compile_reloads {p : Program} {name : String} {unit : CompiledUnit}
    (h : p.compile name = .ok unit) (fits : unit.bytes.length < UInt64.size) :
    ∃ items tables m, p.allocate = .ok (items, tables) ∧ unit.toModule = .ok m ∧
      Reloads p unit m items (tables.forwardPass items) (tables.forwardPass items).rewind := by
  unfold Program.compile at h
  split at h
  · cases h
  rename_i items t allocated
  cases h
  have spec := Program.allocate_spec allocated
  have generated := spec.generate_eq name
  have small : (tableCode items t).length < UInt64.size := by
    rw [generated] at fits
    exact Nat.lt_of_le_of_lt (length_code_le _ _ _) fits
  refine ⟨items, t, tableModule name items t, allocated, ?_, ?_⟩
  · rw [CompiledUnit.toModule, generated]
    exact spec.decode_eq small name
  · refine {
      constants_eq := by rw [generated, constants_tableModule]
      functions_eq := by rw [spec.facts_tableModule small, generated]
      code_eq := by rw [spec.emittingPass_eq, code_tableModule]
      count_eq := ?_
      forward_functions := by rw [spec.emittingPass_eq, spec.forwardPass_eq]
      forward_constants := by rw [spec.emittingPass_eq, spec.forwardPass_eq]
      forward_counter := by rw [spec.emittingPass_eq, spec.forwardPass_eq]
      unit_functions := rfl
      unit_constants := rfl
      definition_starts := fun n d hd => spec.startsAtBody name small hd
      defined_starts := fun i f hf defined => spec.exists_startsAtBody name small hf defined }
    rw [generated, spec.emittingPass_eq, count_encodeParts, ofLittleEndian_littleEndian,
      List.size_toArray]
    exact Nat.mod_eq_of_lt small

/-- A program that calls a function before it is defined, one that is nowhere defined, and an entry
expression that should reuse a frame. -/
def crossed : Program :=
  ⟨[.define ⟨"first", [⟨"n", .unknown⟩], .unknown,
      .cond false (.var false .unknown "n") (.call true "second" [.var false .unknown "n"])
        (.call false "elsewhere" [])⟩,
    .entry (.call true "first" [.const false (.int 3)]),
    .define ⟨"second", [⟨"n", .int⟩], .int,
      .binary true .add (.var false .unknown "n") (.const false (.int 1))⟩]⟩

theorem Program.compile_reloads_crossed :
    ∃ unit, crossed.compile "crossed" = .ok unit ∧ unit.bytes.length < UInt64.size ∧
      unit.functions.map FunctionEntry.address = #[some 4, some 13, none] ∧
      ∃ items tables m, crossed.allocate = .ok (items, tables) ∧ unit.toModule = .ok m ∧
        Reloads crossed unit m items (tables.forwardPass items)
          (tables.forwardPass items).rewind := by
  have compiles : (crossed.compile "crossed").toOption.map (fun unit =>
      (unit.bytes.length, unit.functions.map FunctionEntry.address)) =
        some (171, #[some 4, some 13, none]) := by
    decide +kernel
  cases compiled : crossed.compile "crossed" with
  | error e =>
    rw [compiled] at compiles
    cases compiles
  | ok unit =>
    rw [compiled] at compiles
    obtain ⟨length, addresses⟩ := Prod.mk.inj (Option.some.inj compiles)
    have fits : unit.bytes.length < UInt64.size := by
      rw [length]
      decide
    exact ⟨unit, rfl, fits, addresses, Program.compile_reloads compiled fits⟩

end RegLisp
