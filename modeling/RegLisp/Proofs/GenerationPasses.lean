import RegLisp.Proofs.CompiledModule

/-!
# The passes of generation

What a pass does depends on the terms alone. It goes on by the code of each term, and fills each
slot and each entry with the address that the layout of the program has for it. So the second pass
finds the tables as the first one has left them, and leaves them so.
-/

namespace RegLisp

/-! ## What a pass adds -/

namespace Pass

/-- The pass after the given instructions, with addresses put into the given slots. -/
def advance (p : Pass) (code : List Instruction) (targets : List (Nat × Nat)) : Pass :=
  { p with
    constants := patchConstants p.constants targets.toArray
    counter := p.counter + code.length
    written := if p.muted then p.written else p.written ++ code.toArray }

@[simp] theorem advance_functions (p : Pass) (code : List Instruction)
    (targets : List (Nat × Nat)) : (p.advance code targets).functions = p.functions := rfl

@[simp] theorem advance_counter (p : Pass) (code : List Instruction)
    (targets : List (Nat × Nat)) : (p.advance code targets).counter = p.counter + code.length :=
  rfl

theorem advance_nil (p : Pass) : p.advance [] [] = p := by
  simp [advance, patchConstants]

theorem advance_advance (p : Pass) (code code' : List Instruction)
    (targets targets' : List (Nat × Nat)) :
    (p.advance code targets).advance code' targets' =
      p.advance (code ++ code') (targets ++ targets') := by
  have patched : patchConstants (patchConstants p.constants targets.toArray) targets'.toArray =
      patchConstants p.constants (targets ++ targets').toArray := by
    simp [patchConstants]
  cases h : p.muted <;> simp [advance, h, patched, Nat.add_assoc]

/-- The pass with another function table. -/
def withFunctions (p : Pass) (functions : Array FunctionEntry) : Pass := { p with functions }

theorem advance_withFunctions (p : Pass) (fs : Array FunctionEntry) (code : List Instruction)
    (targets : List (Nat × Nat)) :
    (p.withFunctions fs).advance code targets = (p.advance code targets).withFunctions fs := rfl

theorem emit_eq (p : Pass) (i : Instruction) : p.emit i = p.advance [i] [] := by
  cases h : p.muted <;> simp [emit, advance, h, patchConstants]

theorem emitAll_eq (p : Pass) (is : List Instruction) : p.emitAll is = p.advance is [] := by
  induction is generalizing p with
  | nil => exact p.advance_nil.symm
  | cons i is ih =>
    rw [emitAll, List.foldl_cons, ← emitAll, ih, emit_eq, advance_advance]
    rfl

theorem patch_eq (p : Pass) (slot : Nat) : p.patch slot = p.advance [] [(slot, p.counter)] := by
  simp [patch, advance, patchConstants]

end Pass

mutual

/-- A pass goes on by the code of a term, and the slots of the term get the addresses of the
layout. -/
theorem Term.generate_eq : ∀ (t : Term) (p : Pass),
    t.generate p = p.advance (t.code (isExternalAt p.functions)) (t.targets p.counter)
  | .const _ _ _, p => p.emit_eq _
  | .var _ _ _, p => p.advance_nil.symm
  | .binary _ _ _ lhs rhs, p => by
    simp only [Term.generate, Term.code, Term.targets, Pass.emit_eq, rhs.generate_eq,
      lhs.generate_eq, Pass.advance_advance, Pass.advance_functions, Pass.advance_counter,
      Term.length_code, List.append_nil]
  | .cond _ _ _ _ test onTrue onFalse, p => by
    simp only [Term.generate, Term.code, Term.targets, Pass.emit_eq, Pass.emitAll_eq,
      Pass.patch_eq, test.generate_eq, onTrue.generate_eq, onFalse.generate_eq,
      Pass.advance_advance, Pass.advance_functions, Pass.advance_counter, List.length_append,
      List.length_cons, List.length_nil, Term.length_code, Term.length_settleCode]
    simp [Nat.add_assoc]
  | .call _ _ _ _ _ args, p => by
    simp only [Term.generate, Term.code, Term.targets, Pass.emitAll_eq, Term.generateArgs_eq args,
      Pass.advance_advance, List.append_nil]

theorem Term.generateArgs_eq : ∀ (args : List Term) (p : Pass) (slot : Nat),
    Term.generateArgs p slot args =
      p.advance (Term.argsCode (isExternalAt p.functions) slot args)
        (Term.argsTargets p.counter slot args)
  | [], p, _ => p.advance_nil.symm
  | arg :: args, p, slot => by
    simp only [Term.generateArgs, Term.argsCode, Term.argsTargets, Pass.emitAll_eq,
      arg.generate_eq, Term.generateArgs_eq args, Pass.advance_advance, Pass.advance_functions,
      Pass.advance_counter, List.length_append, Term.length_code, length_moveCode, List.append_nil]

end

/-! ## Whole passes -/

namespace Pass

variable {items : List Item}

theorem entry_eq (p : Pass) (t : Term) :
    p.entry t = p.advance (t.entryCode (isExternalAt p.functions)) (t.targets p.counter) := by
  rw [entry, t.generate_eq, emitAll_eq, advance_advance, List.append_nil, Term.entryCode]

theorem foldl_entry (ts : List Term) (p : Pass) :
    ts.foldl entry p = p.advance (ts.flatMap (Term.entryCode (isExternalAt p.functions)))
      (entryTargets p.counter ts) := by
  induction ts generalizing p with
  | nil => exact p.advance_nil.symm
  | cons t ts ih =>
    rw [List.foldl_cons, ih, entry_eq, advance_advance, advance_functions, advance_counter,
      Term.length_entryCode, List.flatMap_cons, entryTargets]

theorem entrySection_eq (p : Pass) (items : List Item) :
    p.entrySection items =
      p.advance (RegLisp.entrySection (isExternalAt p.functions) (entryTerms items))
        (entryTargets p.counter (entryTerms items)) := by
  rw [entrySection, foldl_entry, emit_eq, advance_advance, List.append_nil, RegLisp.entrySection]

/-- Placing functions does not change which of them are defined. -/
theorem isExternalAt_place (p : Pass) (index : Nat) :
    isExternalAt (p.place index).functions = isExternalAt p.functions := by
  funext i
  simp only [isExternalAt, place, Array.getElem?_modify]
  split
  · cases p.functions[i]? with
    | none => rfl
    | some f => cases h : f.address <;> simp [FunctionEntry.isExternal, h]
  · rfl

/-- A function that is defined gets the address of the next instruction. -/
theorem place_eq (p : Pass) {index : Nat} (defined : isExternalAt p.functions index = false) :
    p.place index = p.withFunctions (placeFunctions p.functions #[(index, p.counter)]) := by
  have same : p.functions.modify index (fun f =>
        { f with address := f.address.map fun _ => .ofNat p.counter }) =
      p.functions.modify index fun f => { f with address := some (.ofNat p.counter) } := by
    apply Array.ext_getElem?
    intro i
    simp only [Array.getElem?_modify]
    split
    · rename_i here
      subst here
      cases hf : p.functions[index]? with
      | none => rfl
      | some f =>
        cases ha : f.address with
        | none => simp [isExternalAt, hf, FunctionEntry.isExternal, ha] at defined
        | some a => simp [ha]
    · rfl
  simp [place, withFunctions, placeFunctions, same]

theorem body_functions (p : Pass) (b : Nat × Term) :
    (p.body b).functions = (p.place b.1).functions := by
  rw [body, b.2.generate_eq, emitAll_eq, emit_eq, advance_advance, advance_advance,
    advance_functions]

/-- The pass over a body, from where it starts. -/
theorem body_eq (p : Pass) {b : Nat × Term} (defined : isExternalAt p.functions b.1 = false) :
    p.body b =
      (p.advance (b.2.bodyCode (isExternalAt p.functions)) (b.2.targets p.counter)).withFunctions
        (placeFunctions p.functions #[(b.1, p.counter)]) := by
  have counter : (p.place b.1).counter = p.counter := rfl
  rw [body, b.2.generate_eq, isExternalAt_place, counter, emitAll_eq, emit_eq, advance_advance,
    advance_advance, p.place_eq defined, advance_withFunctions, Term.bodyCode]
  simp

/-- The pass over bodies, from where the first of them starts. -/
theorem foldl_body (bs : List (Nat × Term)) (p : Pass)
    (defined : ∀ b ∈ bs, isExternalAt p.functions b.1 = false) :
    bs.foldl body p =
      (p.advance (bs.flatMap fun b => b.2.bodyCode (isExternalAt p.functions))
        ((layBodies p.counter bs).flatMap fun l => l.term.targets l.start)).withFunctions
          (placeFunctions p.functions
            ((layBodies p.counter bs).map fun l => (l.index, l.start)).toArray) := by
  induction bs generalizing p with
  | nil => exact p.advance_nil.symm
  | cons b bs ih =>
    have external : isExternalAt (p.body b).functions = isExternalAt p.functions := by
      rw [body_functions, isExternalAt_place]
    have here := p.body_eq (defined b List.mem_cons_self)
    have counter : (p.body b).counter = p.counter + b.2.bodySize := by
      rw [here, ← Term.length_bodyCode (isExternalAt p.functions)]
      rfl
    have functions : (p.body b).functions = placeFunctions p.functions #[(b.1, p.counter)] := by
      rw [here]
      rfl
    have placed : placeFunctions (placeFunctions p.functions #[(b.1, p.counter)])
        ((layBodies (p.counter + b.2.bodySize) bs).map fun l => (l.index, l.start)).toArray =
          placeFunctions p.functions
            ((layBodies p.counter (b :: bs)).map fun l => (l.index, l.start)).toArray := by
      simp [placeFunctions, layBodies]
    have rest := ih (p.body b) fun b' mem => by
      rw [external]
      exact defined b' (List.mem_cons_of_mem _ mem)
    rw [List.foldl_cons, rest, external, counter, functions, placed, here, advance_withFunctions,
      advance_advance]
    rfl

/-- The pass over a program, from its first instruction on. -/
theorem run_eq (p : Pass) (items : List Item) (start : p.counter = 0)
    (defined : ∀ b ∈ bodies items, isExternalAt p.functions b.1 = false) :
    p.run items =
      { functions := placeFunctions p.functions (Layout.ofItems items).starts
        constants := patchConstants p.constants (Layout.ofItems items).targets
        counter := (Layout.ofItems items).size
        muted := p.muted
        written :=
          if p.muted then p.written
          else p.written ++ (programCode (isExternalAt p.functions) items).toArray } := by
  have counter : (p.entrySection items).counter = entriesSize (entryTerms items) + 1 := by
    rw [entrySection_eq, advance_counter, length_entrySection, start, Nat.zero_add]
  have functions : (p.entrySection items).functions = p.functions := by
    rw [entrySection_eq, advance_functions]
  have size : (RegLisp.entrySection (isExternalAt p.functions) (entryTerms items) ++
      (bodies items).flatMap fun b => b.2.bodyCode (isExternalAt p.functions)).length =
        (Layout.ofItems items).size := by
    rw [← length_programCode (isExternalAt p.functions), programCode_eq]
  rw [run, foldl_body _ _ (by rwa [functions]), functions, counter, ← laidBodies, entrySection_eq,
    advance_advance, programCode_eq, start]
  rw [advance, size]
  rw [layout_ofItems, start, Nat.zero_add]
  rfl

end Pass

/-! ## Both passes -/

/-- Pools that differ at most in the given slots are the same once these are filled in. -/
theorem patchConstants_congr {pool pool' : Array UInt64} {targets : List (Nat × Nat)}
    (size : pool.size = pool'.size)
    (agree : ∀ slot ∉ targets.map Prod.fst, pool[slot]? = pool'[slot]?) :
    patchConstants pool targets.toArray = patchConstants pool' targets.toArray := by
  unfold patchConstants
  rw [List.foldl_toArray, List.foldl_toArray]
  induction targets generalizing pool pool' with
  | nil => exact Array.ext_getElem? fun slot => agree slot (by simp)
  | cons x targets ih =>
    rw [List.foldl_cons, List.foldl_cons]
    apply ih
    · simpa using size
    · intro slot other
      simp only [Array.getElem?_setIfInBounds, size]
      split
      · rfl
      · rename_i ne
        exact agree slot (by simpa [Ne.symm ne] using other)

/-- Filling in slots once more changes nothing. -/
theorem patchConstants_again (pool : Array UInt64) (targets : List (Nat × Nat)) :
    patchConstants (patchConstants pool targets.toArray) targets.toArray =
      patchConstants pool targets.toArray := by
  apply patchConstants_congr (patchConstants_size pool targets)
  intro slot other
  by_cases inside : slot < pool.size
  · obtain ⟨x, mem, rfl, -⟩ | ⟨-, same⟩ := getElem?_patchConstants pool targets inside
    · exact absurd (List.mem_map_of_mem mem) other
    · exact same
  · rw [Array.getElem?_eq_none (by rw [patchConstants_size]; omega),
      Array.getElem?_eq_none (by omega)]

/-- Giving functions their addresses once more changes nothing. -/
theorem placeFunctions_again (fs : Array FunctionEntry) {starts : List (Nat × Nat)}
    (nodup : (starts.map Prod.fst).Nodup) :
    placeFunctions (placeFunctions fs starts.toArray) starts.toArray =
      placeFunctions fs starts.toArray := by
  apply Array.ext_getElem?
  intro i
  by_cases given : i ∈ starts.map Prod.fst
  · obtain ⟨⟨index, start⟩, mem, rfl⟩ := List.mem_map.1 given
    simp only [getElem?_placeFunctions nodup mem, Option.map_map]
    rfl
  · rw [getElem?_placeFunctions_other given]

namespace AllocatedGlobals

variable {globals : List Global} {items : List Item} {t : Tables}

/-- Allocation has settled that the functions with bodies are defined here. -/
theorem isExternalAt_body (h : AllocatedGlobals {} globals items t) :
    ∀ b ∈ bodies items, isExternalAt t.functions b.1 = false := by
  intro b mem
  obtain ⟨f, hf, defined⟩ := (h.grows.defined b.1).2 (.inr (List.mem_map_of_mem mem))
  rw [isExternalAt, hf]
  exact defined

theorem isExternalAt_placed_body (h : AllocatedGlobals {} globals items t) :
    ∀ b ∈ bodies items, isExternalAt (placedTable items t) b.1 = false := by
  intro b mem
  have laid : b.1 ∈ (laidBodies items).map Laid.index := by
    rw [map_index_laidBodies]
    exact List.mem_map_of_mem mem
  obtain ⟨l, hl, index⟩ := List.mem_map.1 laid
  obtain ⟨f, -, placed⟩ := h.entry_of_laid hl
  rw [← index, isExternalAt, placed]
  rfl

/-- The first pass finds the addresses of the layout. -/
theorem forwardPass_eq (h : AllocatedGlobals {} globals items t) :
    t.forwardPass items =
      { functions := placedTable items t
        constants := patchedPool items t
        counter := (Layout.ofItems items).size
        muted := true
        written := #[] } := by
  rw [Tables.forwardPass, Pass.run_eq _ _ rfl h.isExternalAt_body]
  rfl

/-- The second pass writes the code, and leaves the tables as they are. -/
theorem emittingPass_eq (h : AllocatedGlobals {} globals items t) :
    (t.forwardPass items).rewind.run items =
      { functions := placedTable items t
        constants := patchedPool items t
        counter := (Layout.ofItems items).size
        muted := false
        written := (tableCode items t).toArray } := by
  have nodup := h.nodup
  rw [← map_fst_starts] at nodup
  have functions : placeFunctions (placedTable items t) (Layout.ofItems items).starts =
      placedTable items t := by
    rw [placedTable, layout_ofItems, placeFunctions_again _ nodup]
  have constants : patchConstants (patchedPool items t) (Layout.ofItems items).targets =
      patchedPool items t := by
    rw [patchedPool, layout_ofItems, patchConstants_again]
  have defined : ∀ b ∈ bodies items,
      isExternalAt (t.forwardPass items).rewind.functions b.1 = false := by
    rw [h.forwardPass_eq]
    exact h.isExternalAt_placed_body
  rw [Pass.run_eq _ _ rfl defined, h.forwardPass_eq]
  simp [Pass.rewind, functions, constants, tableCode]

/-- What is generated is the file of the tables and the code that goes with them. -/
theorem generate_eq (h : AllocatedGlobals {} globals items t) (name : String) :
    CompiledUnit.generate name items t =
      { name
        bytes := encodeParts (placedTable items t).toList (patchedPool items t).toList
          (tableCode items t)
        functions := placedTable items t
        constants := patchedPool items t
        entryReservation := t.entryReservation } := by
  have size : (tableCode items t).length = (Layout.ofItems items).size := length_programCode _ _
  simp only [CompiledUnit.generate, h.emittingPass_eq]
  simp [h.forwardPass_eq, encodeParts, size]

end AllocatedGlobals

/-! ## Compiled programs -/

/-- The module that the file of a program holds is made of what allocation gives. -/
theorem Program.module_eq {p : Program} {name : String} {unit : CompiledUnit} {m : Module}
    (h : p.compile name = .ok unit) (hm : unit.toModule = .ok m) :
    ∃ items t, p.allocate = .ok (items, t) ∧ (tableCode items t).length < UInt64.size ∧
      m = tableModule name items t := by
  unfold Program.compile at h
  split at h
  · cases h
  rename_i items t allocated
  cases h
  have spec := Program.allocate_spec allocated
  rw [spec.generate_eq, CompiledUnit.toModule] at hm
  obtain ⟨small, rfl⟩ := decode_encodeParts spec.storable hm
  have table : ((placedTable items t).toList.map FunctionEntry.bare).toArray =
      (placedTable items t).map FunctionEntry.bare := by
    rw [← Array.toList_map, Array.toArray_toList]
  refine ⟨items, t, allocated, small, ?_⟩
  rw [table, Array.toArray_toList, tableModule]

/-- A program that compiles to a file that can be read has a compiled module. -/
theorem Program.compiled {p : Program} {name : String} {unit : CompiledUnit} {m : Module}
    (h : p.compile name = .ok unit) (hm : unit.toModule = .ok m) : Nonempty (Compiled p m) := by
  obtain ⟨items, t, allocated, small, rfl⟩ := Program.module_eq h hm
  exact (Program.allocate_spec allocated).compiled name small

end RegLisp
