import RegLisp.Proofs.CodeLayout
import RegLisp.Proofs.CodeStarts
import RegLisp.Proofs.ModuleFile

/-!
# Compiled modules

What a module that was compiled, written and read back has of its program: a section of code for
the entry expressions and one for each definition, slots that hold what the code of the terms asks
for, and a function table whose definitions are the bodies that were laid out.
-/

namespace RegLisp

/-! ## Tables with addresses -/

/-- Give functions their addresses, by index. -/
def placeFunctions (functions : Array FunctionEntry) (starts : Array (Nat × Nat)) :
    Array FunctionEntry :=
  starts.foldl
    (fun functions (index, start) =>
      functions.modify index fun f => { f with address := some (.ofNat start) })
    functions

/-- Put addresses into their slots of the constant pool. -/
def patchConstants (constants : Array UInt64) (targets : Array (Nat × Nat)) : Array UInt64 :=
  targets.foldl (fun constants (slot, address) => constants.setIfInBounds slot (.ofNat address))
    constants

theorem patchConstants_size (pool : Array UInt64) (targets : List (Nat × Nat)) :
    (patchConstants pool targets.toArray).size = pool.size := by
  unfold patchConstants
  rw [List.foldl_toArray]
  induction targets generalizing pool with
  | nil => rfl
  | cons x targets ih => rw [List.foldl_cons, ih, Array.size_setIfInBounds]

/-- A slot of the pool holds the last address that was put there, or else its old word. -/
theorem getElem?_patchConstants (pool : Array UInt64) (targets : List (Nat × Nat)) {slot : Nat}
    (inside : slot < pool.size) :
    (∃ x ∈ targets, x.1 = slot ∧
      (patchConstants pool targets.toArray)[slot]? = some (.ofNat x.2)) ∨
    (∀ x ∈ targets, x.1 ≠ slot) ∧ (patchConstants pool targets.toArray)[slot]? = pool[slot]? := by
  unfold patchConstants
  rw [List.foldl_toArray]
  induction targets generalizing pool with
  | nil => exact .inr ⟨by simp, rfl⟩
  | cons x targets ih =>
    rw [List.foldl_cons]
    obtain ⟨y, mem, rfl, get⟩ | ⟨other, get⟩ := ih (pool.setIfInBounds x.1 (.ofNat x.2))
      (by simpa using inside)
    · exact .inl ⟨y, .tail _ mem, rfl, get⟩
    · rw [get]
      by_cases same : x.1 = slot
      · subst same
        exact .inl ⟨x, .head _, rfl, by simp [inside]⟩
      · right
        refine ⟨?_, Array.getElem?_setIfInBounds_ne same⟩
        simpa [same] using other

/-- If no two fills have one slot, the patched pool has all of them. -/
theorem patchConstants_fill {t : Tables} {targets : List (Nat × Nat)}
    {fills : List (Nat × UInt64)} (nodup : (fills.map Prod.fst).Nodup)
    (subset : ∀ x ∈ targets, targetWord x ∈ fills) {fill : Nat × UInt64} (mem : fill ∈ fills)
    (filled : Filled t targets fill) (inside : fill.1 < t.constants.size) :
    (patchConstants t.constants targets.toArray)[fill.1]? = some fill.2 := by
  obtain ⟨x, hx, slot, get⟩ | ⟨other, get⟩ := getElem?_patchConstants t.constants targets inside
  · have same := List.inj_on_of_nodup_map nodup mem (subset x hx) slot.symm
    rw [get, same]
    rfl
  · rw [get]
    obtain pooled | ⟨x, hx, rfl⟩ := filled
    · exact pooled
    · exact absurd rfl (other x hx)

theorem placeFunctions_size (fs : Array FunctionEntry) (starts : List (Nat × Nat)) :
    (placeFunctions fs starts.toArray).size = fs.size := by
  unfold placeFunctions
  rw [List.foldl_toArray]
  induction starts generalizing fs with
  | nil => rfl
  | cons x starts ih => rw [List.foldl_cons, ih, Array.size_modify]

/-- An entry that gets no address stays as it is. -/
theorem getElem?_placeFunctions_other {fs : Array FunctionEntry} {starts : List (Nat × Nat)}
    {index : Nat} (other : index ∉ starts.map Prod.fst) :
    (placeFunctions fs starts.toArray)[index]? = fs[index]? := by
  unfold placeFunctions
  rw [List.foldl_toArray]
  exact getElem?_foldl_modify_other other

/-- Each function gets its own address. -/
theorem getElem?_placeFunctions {fs : Array FunctionEntry} {starts : List (Nat × Nat)}
    (nodup : (starts.map Prod.fst).Nodup) {index start : Nat} (mem : (index, start) ∈ starts) :
    (placeFunctions fs starts.toArray)[index]? =
      fs[index]?.map fun f => { f with address := some (.ofNat start) } := by
  unfold placeFunctions
  rw [List.foldl_toArray]
  exact getElem?_foldl_modify nodup mem

/-! ## Sections -/

theorem lt_frameSize (before after : List Instruction) {is : List Instruction} {i : Instruction}
    (mem : i ∈ is) {r : Nat} (hr : i.maxLocalRegister = some r) :
    r < frameSize (before ++ is ++ after).toArray before.length (before.length + is.length) := by
  obtain ⟨k, found⟩ := List.mem_iff_getElem?.1 mem
  have lt := (List.getElem?_eq_some_iff.1 found).1
  refine lt_frameSize_of_fetch (a := before.length + k) (by omega) (by omega) ?_ hr
  rw [List.getElem?_toArray, List.append_assoc, List.getElem?_append_right (by omega),
    Nat.add_sub_cancel_left, List.getElem?_append_left lt, found]

/-- The code of a section, which is one of the ranges of the module and runs in a frame of the
given size. -/
structure Module.Owns (m : Module) (owner : Option Nat) (start : Nat) (code : List Instruction)
    (reservation : Nat) : Prop where
  range : ⟨owner, start, start + code.length⟩ ∈ m.codeRanges
  fetch : ∀ (k : Nat) (i : Instruction), code[k]? = some i → m.code[start + k]? = some i
  locals : ∀ i ∈ code, ∀ r, i.maxLocalRegister = some r → r < reservation

/-- The function table and the code of a module, when the definitions of the table are bodies laid
out behind an entry section. -/
structure LaidOut (fs : Array FunctionEntry) (code : List Instruction) (external : Nat → Bool)
    (front : List Instruction) (bs : List (Nat × Term)) : Prop where
  code_eq : code = front ++ bs.flatMap fun (_, t) => t.bodyCode external
  small : code.length < UInt64.size
  address_eq : ∀ l ∈ layBodies front.length bs, ∃ f, fs[l.index]? = some f ∧
    f.address = some (.ofNat l.start)
  laid_of_address : ∀ (i : Nat) (f : FunctionEntry) (a : UInt64), fs[i]? = some f →
    f.address = some a → ∃ l ∈ layBodies front.length bs, l.index = i ∧ a.toNat = l.start

namespace LaidOut

variable {name : String} {fs : Array FunctionEntry} {constants : Array UInt64}
  {code : List Instruction} {external : Nat → Bool} {front : List Instruction}
  {bs : List (Nat × Term)} {l : Laid}

theorem length_code (h : LaidOut fs code external front bs) :
    code.length = front.length + bodiesSize bs := by
  rw [h.code_eq, List.length_append, List.length_flatMap]
  simp [bodiesSize, Term.length_bodyCode]

theorem stop_le (h : LaidOut fs code external front bs) (mem : l ∈ layBodies front.length bs) :
    l.stop ≤ code.length := by
  rw [h.length_code]
  exact (bounds_of_mem_layBodies mem).2

theorem toNat_start (h : LaidOut fs code external front bs)
    (mem : l ∈ layBodies front.length bs) : (UInt64.ofNat l.start).toNat = l.start := by
  have := h.stop_le mem
  have := l.start_lt_stop
  have := h.small
  exact UInt64.toNat_ofNat_of_lt' (by omega)

/-- The addresses that the table defines are the starts of the bodies. -/
theorem mem_definedAddresses (h : LaidOut fs code external front bs) {s : Nat} :
    s ∈ definedAddresses fs ↔ ∃ l ∈ layBodies front.length bs, l.start = s := by
  simp only [definedAddresses, List.mem_filterMap, Array.mem_toList_iff, Option.map_eq_some_iff]
  constructor
  · rintro ⟨f, mem, a, ha, rfl⟩
    obtain ⟨i, hi⟩ := Array.mem_iff_getElem?.1 mem
    obtain ⟨l, hl, -, start⟩ := h.laid_of_address i f a hi ha
    exact ⟨l, hl, start.symm⟩
  · rintro ⟨l, hl, rfl⟩
    obtain ⟨f, hf, ha⟩ := h.address_eq l hl
    exact ⟨f, Array.mem_of_getElem? hf, _, ha, h.toNat_start hl⟩

theorem firstStart_eq (h : LaidOut fs code external front bs) :
    firstStart code.length (definedAddresses fs) = front.length := by
  apply RegLisp.firstStart_eq
  · rw [h.length_code]
    omega
  · intro s hs
    obtain ⟨l, mem, rfl⟩ := h.mem_definedAddresses.1 hs
    exact (bounds_of_mem_layBodies mem).1
  · rw [h.mem_definedAddresses, h.length_code]
    cases bs with
    | nil => exact .inl rfl
    | cons b bs => exact .inr ⟨_, .head _, rfl⟩

theorem nextStart_eq (h : LaidOut fs code external front bs)
    (mem : l ∈ layBodies front.length bs) :
    nextStart code.length (definedAddresses fs) l.start = l.stop := by
  apply RegLisp.nextStart_eq (h.stop_le mem) l.start_lt_stop
  · intro s hs behind
    obtain ⟨l', mem', rfl⟩ := h.mem_definedAddresses.1 hs
    have := l'.start_lt_stop
    obtain rfl | apart | apart := layBodies_apart mem mem'
    · omega
    · exact apart
    · omega
  · rw [h.mem_definedAddresses, h.length_code]
    exact layBodies_next mem

theorem getElem?_ofParts (h : LaidOut fs code external front bs) (name : String)
    (constants : Array UInt64) {f : FunctionEntry} (mem : l ∈ layBodies front.length bs)
    (hf : fs[l.index]? = some f) (ha : f.address = some (.ofNat l.start)) :
    (Module.ofParts name fs constants code.toArray).functions[l.index]? =
      some { f with reservation := frameSize code.toArray l.start l.stop } := by
  have := l.start_lt_stop
  have := h.stop_le mem
  simp [Module.ofParts_eq, hf, FunctionEntry.measured_of_address ha, h.toNat_start mem,
    h.nextStart_eq mem, Nat.min_eq_left (show l.start ≤ code.length by omega)]

/-- The entry section comes first. -/
theorem front_owned (h : LaidOut fs code external front bs) :
    (Module.ofParts name fs constants code.toArray).Owns none 0 front
      (Module.ofParts name fs constants code.toArray).entryReservation where
  range := by
    rw [Module.codeRanges_eq, Module.entryRange, Module.definedAddresses_ofParts]
    simp [Module.ofParts_eq, h.firstStart_eq]
  fetch k i hk := by
    have lt := (List.getElem?_eq_some_iff.1 hk).1
    simp only [Module.ofParts_eq, h.code_eq, Nat.zero_add, List.getElem?_toArray]
    rw [List.getElem?_append_left lt, hk]
  locals i mem r hr := by
    have := lt_frameSize [] (bs.flatMap fun (_, t) => t.bodyCode external) mem hr
    simp only [Module.ofParts_eq, List.size_toArray, h.firstStart_eq]
    simpa [h.code_eq] using this

/-- Each body has its own section. -/
theorem body_owned (h : LaidOut fs code external front bs)
    (mem : l ∈ layBodies front.length bs) :
    ∃ g, (Module.ofParts name fs constants code.toArray).functions[l.index]? = some g ∧
      g.address = some (.ofNat l.start) ∧
        (Module.ofParts name fs constants code.toArray).Owns (some l.index) l.start
          (l.term.bodyCode external) g.reservation := by
  obtain ⟨f, hf, ha⟩ := h.address_eq l mem
  have hg := h.getElem?_ofParts name constants mem hf ha
  obtain ⟨before, after, split, length⟩ := layBodies_code external front mem
  rw [← h.code_eq] at split
  have stop : l.stop = l.start + (l.term.bodyCode external).length := by
    rw [Term.length_bodyCode]
    rfl
  refine ⟨_, hg, ha, ?_, ?_, ?_⟩
  · rw [Module.codeRanges_eq, List.mem_cons, List.mem_map]
    refine .inr ⟨(l.index, l.start), ?_, ?_⟩
    · exact Module.mem_starts.2 ⟨_, _, hg, ha, h.toNat_start mem⟩
    · have := l.start_lt_stop
      have := h.stop_le mem
      rw [Module.rangeAt, Module.definedAddresses_ofParts]
      simp only [Module.ofParts_eq, List.size_toArray, h.nextStart_eq mem, ← stop]
      rw [Nat.min_eq_left (by omega)]
  · intro k i hk
    have lt := (List.getElem?_eq_some_iff.1 hk).1
    simp only [Module.ofParts_eq, List.getElem?_toArray]
    rw [split, ← length, List.append_assoc, List.getElem?_append_right (by omega),
      Nat.add_sub_cancel_left, List.getElem?_append_left lt, hk]
  · intro i mem r hr
    have := lt_frameSize before after mem hr
    rwa [← split, length, ← stop] at this

end LaidOut

/-! ## The pool of a program -/

theorem map_fst_entryFills (ts : List Term) (address : Nat) :
    (entryFills address ts).map Prod.fst = ts.flatMap Term.slots := by
  induction ts generalizing address with
  | nil => rfl
  | cons t ts ih => simp [entryFills, ih, Term.map_fst_fills]

theorem map_fst_bodyFills (bs : List (Nat × Term)) (address : Nat) :
    ((layBodies address bs).flatMap fun l => l.term.fills l.start).map Prod.fst =
      bs.flatMap (·.2.slots) := by
  induction bs generalizing address with
  | nil => rfl
  | cons b bs ih => simp [layBodies, ih, Term.map_fst_fills]

/-- The code has all entry expressions before all bodies, and the program has them mixed. -/
theorem slots_perm (items : List Item) :
    ((entryTerms items).flatMap Term.slots ++ (bodies items).flatMap (·.2.slots)).Perm
      (items.flatMap (·.term.slots)) := by
  induction items with
  | nil => exact .nil
  | cons item items ih =>
    cases item with
    | entry value =>
      simp only [entryTerms, bodies, List.filterMap_cons, List.flatMap_cons, List.append_assoc]
      exact ih.append_left _
    | body index value =>
      simp only [entryTerms, bodies, List.filterMap_cons, List.flatMap_cons]
      refine (List.perm_append_comm_assoc _ _ _).trans ?_
      exact ih.append_left _

theorem entryFills_filled {t : Tables} {es : List Expr} {ts : List Term}
    (placed : List.Forall₂ (Placed {} t 0) es ts) {address : Nat} {fill : Nat × UInt64}
    (mem : fill ∈ entryFills address ts) : Filled t (entryTargets address ts) fill := by
  induction placed generalizing address with
  | nil => simp [entryFills] at mem
  | cons first _ ih =>
    simp only [entryFills, entryTargets, List.mem_append] at mem ⊢
    obtain mem | mem := mem
    · exact (first.filled mem).mono (by simp)
    · exact (ih mem).mono (by simp)

theorem entryFills_of_entryTargets {ts : List Term} {address : Nat} {x : Nat × Nat}
    (mem : x ∈ entryTargets address ts) : targetWord x ∈ entryFills address ts := by
  induction ts generalizing address with
  | nil => simp [entryTargets] at mem
  | cons t ts ih =>
    simp only [entryFills, entryTargets, List.mem_append] at mem ⊢
    exact mem.imp t.mem_fills_of_mem_targets ih

theorem exists_mem_zip_right {α β : Type} {xs : List α} {ys : List β}
    (h : xs.length = ys.length) {y : β} (hy : y ∈ ys) : ∃ x, (x, y) ∈ xs.zip ys := by
  rw [← List.map_snd_zip (Nat.le_of_eq h.symm)] at hy
  obtain ⟨⟨x, y⟩, mem, rfl⟩ := List.mem_map.1 hy
  exact ⟨x, mem⟩

/-- Each body is that of a definition. -/
theorem AllocatedGlobals.placedBody_of_laid {globals : List Global} {items : List Item}
    {t : Tables} (h : AllocatedGlobals {} globals items t) {address : Nat} {l : Laid}
    (mem : l ∈ layBodies address (bodies items)) : ∃ d, PlacedBody t d (l.index, l.term) := by
  have body : (l.index, l.term) ∈ bodies items := by
    rw [← map_layBodies address (bodies items)]
    exact List.mem_map_of_mem mem
  obtain ⟨d, paired⟩ := exists_mem_zip_right h.definitions.length_eq body
  exact ⟨d, List.forall₂_zip h.definitions paired⟩

/-- All slots of a program hold what its code asks for. -/
theorem AllocatedGlobals.pool_filled {globals : List Global} {items : List Item} {t : Tables}
    (h : AllocatedGlobals {} globals items t) (address : Nat) {fill : Nat × UInt64}
    (mem : fill ∈ entryFills 0 (entryTerms items) ++
      (layBodies address (bodies items)).flatMap fun l => l.term.fills l.start) :
    (patchConstants t.constants (entryTargets 0 (entryTerms items) ++
      (layBodies address (bodies items)).flatMap fun l =>
        l.term.targets l.start).toArray)[fill.1]? = some fill.2 := by
  have keys : ((entryFills 0 (entryTerms items) ++ (layBodies address (bodies items)).flatMap
      fun l => l.term.fills l.start).map Prod.fst).Perm (List.range t.constants.size) := by
    rw [List.map_append, map_fst_entryFills, map_fst_bodyFills]
    refine (slots_perm items).trans ?_
    rw [h.grows.slots_eq, h.grows.size_eq, List.range_eq_range']
    simp
  have inside := List.mem_range.1 (keys.subset (List.mem_map_of_mem mem))
  refine patchConstants_fill (keys.nodup_iff.2 List.nodup_range) ?_ mem ?_ inside
  · intro x hx
    rw [List.mem_append, List.mem_flatMap] at hx ⊢
    refine hx.imp entryFills_of_entryTargets ?_
    rintro ⟨l, hl, hx⟩
    exact ⟨l, hl, l.term.mem_fills_of_mem_targets hx⟩
  · rw [List.mem_append, List.mem_flatMap] at mem
    obtain mem | ⟨l, hl, mem⟩ := mem
    · exact (entryFills_filled h.entries mem).mono (by simp)
    · obtain ⟨d, body⟩ := h.placedBody_of_laid hl
      obtain ⟨scope, -, placed⟩ := body.placed
      refine (placed.filled mem).mono fun x hx => ?_
      rw [List.mem_append, List.mem_flatMap]
      exact .inr ⟨l, hl, hx⟩

/-! ## The module of a program -/

/-- Where bodies are laid out: behind the entry section and the instruction that ends it. -/
def laidBodies (items : List Item) : List Laid :=
  layBodies (entriesSize (entryTerms items) + 1) (bodies items)

theorem layout_ofItems (items : List Item) :
    Layout.ofItems items =
      { starts := ((laidBodies items).map fun l => (l.index, l.start)).toArray
        targets := (entryTargets 0 (entryTerms items) ++ (laidBodies items).flatMap fun l =>
          l.term.targets l.start).toArray
        size := entriesSize (entryTerms items) + 1 + bodiesSize (bodies items) } := by
  simp [Layout.ofItems, foldl_addEntry, foldl_addBody, Layout.addHalt, laidBodies]

/-- The entry section: the entry expressions, and an instruction that stops the machine. -/
def entrySection (external : Nat → Bool) (ts : List Term) : List Instruction :=
  ts.flatMap (Term.entryCode external) ++ [.nullary .halt]

theorem entrySection_cons (external : Nat → Bool) (t : Term) (ts : List Term) :
    entrySection external (t :: ts) =
      t.code external ++ moveCode t.reg 0 ++ entrySection external ts := by
  simp [entrySection, Term.entryCode]

theorem length_entrySection (external : Nat → Bool) (ts : List Term) :
    (entrySection external ts).length = entriesSize ts + 1 := by
  simp [entrySection, entriesSize, List.length_flatMap, Term.length_entryCode]

theorem programCode_eq (external : Nat → Bool) (items : List Item) :
    programCode external items = entrySection external (entryTerms items) ++
      (bodies items).flatMap fun (_, t) => t.bodyCode external := by
  simp [programCode, entrySection]

theorem length_programCode (external : Nat → Bool) (items : List Item) :
    (programCode external items).length = (Layout.ofItems items).size := by
  rw [programCode_eq, layout_ofItems, List.length_append, length_entrySection, List.length_flatMap]
  simp [bodiesSize, Term.length_bodyCode]

/-- The function table with the addresses of the layout. -/
def placedTable (items : List Item) (t : Tables) : Array FunctionEntry :=
  placeFunctions t.functions (Layout.ofItems items).starts

/-- Placing functions changes nothing but their addresses. -/
theorem getElem?_placedTable (items : List Item) {t : Tables} {i : Nat} {f : FunctionEntry}
    (hf : t.functions[i]? = some f) :
    ∃ address, (placedTable items t)[i]? = some { f with address } := by
  unfold placedTable placeFunctions
  rw [← Array.foldl_toList]
  generalize (Layout.ofItems items).starts.toList = starts
  generalize t.functions = fs at hf
  induction starts generalizing fs f with
  | nil => exact ⟨f.address, hf⟩
  | cons x starts ih =>
    rw [List.foldl_cons]
    by_cases same : x.1 = i
    · refine ih (f := { f with address := some (.ofNat x.2) }) _ ?_
      rw [Array.getElem?_modify, if_pos same, hf, Option.map_some]
    · refine ih _ ?_
      rw [Array.getElem?_modify, if_neg same, hf]

/-- The constant pool with the addresses of the layout. -/
def patchedPool (items : List Item) (t : Tables) : Array UInt64 :=
  patchConstants t.constants (Layout.ofItems items).targets

/-- The code that goes with the tables. -/
def tableCode (items : List Item) (t : Tables) : List Instruction :=
  programCode (isExternalAt (placedTable items t)) items

/-- The module that is read back from the file of a unit. -/
def tableModule (name : String) (items : List Item) (t : Tables) : Module :=
  .ofParts name ((placedTable items t).map FunctionEntry.bare) (patchedPool items t)
    (tableCode items t).toArray

theorem constants_tableModule (name : String) (items : List Item) (t : Tables) :
    (tableModule name items t).constants = patchedPool items t :=
  Module.constants_ofParts ..

theorem code_tableModule (name : String) (items : List Item) (t : Tables) :
    (tableModule name items t).code = (tableCode items t).toArray :=
  Module.code_ofParts ..

theorem FunctionEntry.bare_reference {f : FunctionEntry} (h : f.address = none) :
    f.bare = { f with reservation := 0 } := by
  cases f
  cases h
  rfl

theorem size_placedTable (items : List Item) (t : Tables) :
    (placedTable items t).size = t.functions.size := by
  rw [placedTable, layout_ofItems, placeFunctions_size]

theorem size_patchedPool (items : List Item) (t : Tables) :
    (patchedPool items t).size = t.constants.size := by
  rw [patchedPool, layout_ofItems, patchConstants_size]

namespace AllocatedGlobals

variable {globals : List Global} {items : List Item} {t : Tables}

theorem map_index_laidBodies (items : List Item) :
    (laidBodies items).map Laid.index = (bodies items).map Prod.fst := by
  conv_rhs => rw [← map_layBodies (entriesSize (entryTerms items) + 1) (bodies items)]
  rw [List.map_map]
  rfl

theorem map_fst_starts (items : List Item) :
    ((laidBodies items).map fun l => (l.index, l.start)).map Prod.fst =
      (bodies items).map Prod.fst := by
  rw [← map_index_laidBodies, List.map_map]
  rfl

/-- The entry of a body gets its address. -/
theorem entry_of_laid (h : AllocatedGlobals {} globals items t) {l : Laid}
    (mem : l ∈ laidBodies items) :
    ∃ f, t.functions[l.index]? = some f ∧
      (placedTable items t)[l.index]? =
        some { f with address := some (.ofNat l.start) } := by
  obtain ⟨d, placed⟩ := h.placedBody_of_laid mem
  obtain ⟨f, hf, -⟩ := placed.entered
  refine ⟨f, hf, ?_⟩
  have nodup := h.nodup
  rw [← map_fst_starts] at nodup
  rw [placedTable, layout_ofItems, getElem?_placeFunctions nodup (List.mem_map_of_mem mem), hf]
  rfl

/-- An entry without a body is a reference, and stays one. -/
theorem entry_of_not_laid (h : AllocatedGlobals {} globals items t) {i : Nat}
    (other : i ∉ (laidBodies items).map Laid.index) {f : FunctionEntry}
    (hf : (placedTable items t)[i]? = some f) :
    t.functions[i]? = some f ∧ f.address = none := by
  rw [map_index_laidBodies] at other
  rw [placedTable, layout_ofItems, getElem?_placeFunctions_other (by rwa [map_fst_starts])] at hf
  refine ⟨hf, ?_⟩
  cases ha : f.address with
  | none => rfl
  | some a =>
    have defined : t.DefinesAt i := ⟨f, hf, by simp [FunctionEntry.isExternal, ha]⟩
    obtain ⟨_, absent, -⟩ | mem := (h.grows.defined i).1 defined
    · simp at absent
    · exact absurd mem other

theorem storable (h : AllocatedGlobals {} globals items t) :
    Storable (placedTable items t).toList
      (patchedPool items t).toList := by
  have valid := h.grows.valid
  refine ⟨?_, ?_, ?_⟩
  · have := valid.functions_le
    rw [Array.length_toList, size_placedTable]
    unfold maxFunctions at this
    unfold UInt32.size
    omega
  · have := valid.constants_le
    rw [Array.length_toList, size_patchedPool]
    unfold UInt16.size
    omega
  · intro f hf
    obtain ⟨i, hi⟩ := Array.mem_iff_getElem?.1 (Array.mem_toList_iff.1 hf)
    by_cases laid : i ∈ (laidBodies items).map Laid.index
    · obtain ⟨l, mem, rfl⟩ := List.mem_map.1 laid
      obtain ⟨f', hf', placed⟩ := h.entry_of_laid mem
      rw [hi, Option.some.injEq] at placed
      obtain ⟨name_le, types_le⟩ := valid.short f' (Array.mem_of_getElem? hf')
      rw [placed]
      exact ⟨name_le, types_le⟩
    · exact valid.short f (Array.mem_of_getElem? (h.entry_of_not_laid laid hi).1)

/-- The starts of bodies are words, and none of them is the word for a reference. -/
theorem start_lt (small : (tableCode items t).length < UInt64.size)
    {l : Laid} (mem : l ∈ laidBodies items) : l.start + 1 < UInt64.size := by
  have := (bounds_of_mem_layBodies mem).2
  have := l.start_lt_stop
  rw [tableCode, length_programCode, layout_ofItems] at small
  simp only at small
  omega

theorem bare_placed (small : (tableCode items t).length < UInt64.size) {l : Laid}
    (mem : l ∈ laidBodies items) (f : FunctionEntry) :
    ({ f with address := some (.ofNat l.start) } : FunctionEntry).bare =
      { f with address := some (.ofNat l.start), reservation := 0 } := by
  have := start_lt small mem
  have word : UInt64.ofNat l.start ≠ externalAddress := by
    intro same
    have := congrArg UInt64.toNat same
    rw [UInt64.toNat_ofNat_of_lt' (by omega)] at this
    simp only [externalAddress, UInt64.reduceToNat] at this
    unfold UInt64.size at *
    omega
  simp [FunctionEntry.bare, FunctionEntry.storedAddress, word]

/-- The table that is read back has the bodies as its definitions, at their places. -/
theorem laidOut (h : AllocatedGlobals {} globals items t)
    (small : (tableCode items t).length < UInt64.size) :
    LaidOut ((placedTable items t).map FunctionEntry.bare) (tableCode items t)
      (isExternalAt (placedTable items t))
      (entrySection (isExternalAt (placedTable items t)) (entryTerms items)) (bodies items) := by
  refine ⟨programCode_eq _ items, small, ?_, ?_⟩
  all_goals rw [length_entrySection]
  · intro l mem
    obtain ⟨f, -, placed⟩ := h.entry_of_laid mem
    refine ⟨{ f with address := some (.ofNat l.start), reservation := 0 }, ?_, rfl⟩
    rw [Array.getElem?_map, placed, Option.map_some, bare_placed small mem]
  · intro i g a hg ha
    rw [Array.getElem?_map, Option.map_eq_some_iff] at hg
    obtain ⟨f, hf, rfl⟩ := hg
    by_cases laid : i ∈ (laidBodies items).map Laid.index
    · obtain ⟨l, mem, rfl⟩ := List.mem_map.1 laid
      obtain ⟨f', -, placed⟩ := h.entry_of_laid mem
      rw [hf, Option.some.injEq] at placed
      rw [placed, bare_placed small mem] at ha
      cases ha
      have := start_lt small mem
      exact ⟨l, mem, rfl, UInt64.toNat_ofNat_of_lt' (by omega)⟩
    · rw [FunctionEntry.bare_reference (h.entry_of_not_laid laid hf).2] at ha
      rw [(h.entry_of_not_laid laid hf).2] at ha
      cases ha

/-- A placed entry keeps its name and arity, and the file tells references from definitions. -/
theorem entry_kept (h : AllocatedGlobals {} globals items t)
    (small : (tableCode items t).length < UInt64.size) {i : Nat} {f : FunctionEntry}
    (hf : t.functions[i]? = some f) :
    ∃ g, (placedTable items t)[i]? = some g ∧ f.Kept g ∧
      g.bare.isExternal = g.isExternal := by
  by_cases laid : i ∈ (laidBodies items).map Laid.index
  · obtain ⟨l, mem, rfl⟩ := List.mem_map.1 laid
    obtain ⟨f', hf', placed⟩ := h.entry_of_laid mem
    rw [hf, Option.some.injEq] at hf'
    subst hf'
    refine ⟨_, placed, ⟨rfl, rfl⟩, ?_⟩
    rw [bare_placed small mem]
    rfl
  · have inside : i < (placedTable items t).size := by
      rw [size_placedTable]
      exact (Array.getElem?_eq_some_iff.1 hf).1
    obtain ⟨same, reference⟩ := h.entry_of_not_laid laid (Array.getElem?_eq_getElem inside)
    rw [hf, Option.some.injEq] at same
    rw [← same] at reference
    refine ⟨f, by rw [Array.getElem?_eq_getElem inside, same], ⟨rfl, rfl⟩, ?_⟩
    rw [FunctionEntry.bare_reference reference]
    rfl

end AllocatedGlobals

theorem Module.getElem?_ofParts {name : String} {fs : Array FunctionEntry}
    {constants : Array UInt64} {code : Array Instruction} {i : Nat} {f : FunctionEntry}
    (hf : fs[i]? = some f) :
    ∃ g, (Module.ofParts name fs constants code).functions[i]? = some g ∧ f.Kept g ∧
      g.address = f.address := by
  refine ⟨f.measured code (definedAddresses fs), ?_, ?_, f.address_measured _ _⟩
  · rw [ofParts_eq, Array.getElem?_map, hf, Option.map_some]
  · unfold FunctionEntry.measured
    split <;> exact ⟨rfl, rfl⟩

/-- What a module has of the program it was compiled from. -/
structure Compiled (p : Program) (m : Module) where
  tables : Tables
  /-- The terms of the entry expressions. -/
  entries : List Term
  /-- The bodies of the definitions and their places. -/
  laid : List Laid
  valid : tables.Valid
  entries_placed : List.Forall₂ (Placed {} tables 0) p.entries entries
  laid_placed : List.Forall₂ (fun d l => PlacedBody tables d (l.index, l.term)) p.definitions laid
  /-- The module has the entries of the tables. -/
  function_kept : ∀ (i : Nat) (f : FunctionEntry), tables.functions[i]? = some f →
    ∃ g, m.functions[i]? = some g ∧ f.Kept g
  /-- The definitions of the module are the bodies. -/
  laid_of_address : ∀ (i : Nat) (g : FunctionEntry) (a : UInt64), m.functions[i]? = some g →
    g.address = some a → ∃ l ∈ laid, l.index = i ∧ a.toNat = l.start
  start_injective : ∀ l ∈ laid, ∀ l' ∈ laid, l.start = l'.start → l = l'
  indices_nodup : (laid.map Laid.index).Nodup
  entry_owned : m.Owns none 0 (entrySection (isExternalAt m.functions) entries) m.entryReservation
  entry_filled : ∀ x ∈ entryFills 0 entries, m.constants[x.1]? = some x.2
  body_owned : ∀ l ∈ laid, ∃ g, m.functions[l.index]? = some g ∧
    g.address = some (.ofNat l.start) ∧
      m.Owns (some l.index) l.start (l.term.bodyCode (isExternalAt m.functions)) g.reservation
  body_filled : ∀ l ∈ laid, ∀ x ∈ l.term.fills l.start, m.constants[x.1]? = some x.2
  constants_le : m.constants.size ≤ 65535

namespace AllocatedGlobals

variable {p : Program} {items : List Item} {t : Tables}

/-- An entry of the tables is in the module with its name and arity. -/
theorem tableModule_kept (h : AllocatedGlobals {} p.globals items t) (name : String)
    (small : (tableCode items t).length < UInt64.size) {i : Nat} {f : FunctionEntry}
    (hf : t.functions[i]? = some f) :
    ∃ g, (tableModule name items t).functions[i]? = some g ∧ f.Kept g ∧
      isExternalAt (placedTable items t) i = g.isExternal := by
  obtain ⟨f₁, hf₁, kept₁, same⟩ := h.entry_kept small hf
  have hf₂ : ((placedTable items t).map FunctionEntry.bare)[i]? = some f₁.bare := by
    rw [Array.getElem?_map, hf₁, Option.map_some]
  obtain ⟨g, hg, kept₂, address⟩ := Module.getElem?_ofParts hf₂
  refine ⟨g, hg, ⟨kept₂.name_eq.trans kept₁.name_eq, kept₂.arity_eq.trans kept₁.arity_eq⟩, ?_⟩
  rw [isExternalAt, hf₁, Option.map_some, Option.getD_some, ← same, FunctionEntry.isExternal,
    FunctionEntry.isExternal, address]

/-- The code calls a function of another module exactly where the table has a reference. -/
theorem isExternalAt_tableModule (h : AllocatedGlobals {} p.globals items t) (name : String)
    (small : (tableCode items t).length < UInt64.size) :
    isExternalAt (tableModule name items t).functions = isExternalAt (placedTable items t) := by
  funext i
  cases hf : t.functions[i]? with
  | none =>
    have absent : (placedTable items t)[i]? = none := by
      rw [Array.getElem?_eq_none_iff, size_placedTable]
      exact Array.getElem?_eq_none_iff.1 hf
    simp [isExternalAt, tableModule, Module.ofParts_eq, absent]
  | some f =>
    obtain ⟨g, hg, -, same⟩ := h.tableModule_kept name small hf
    rw [same, isExternalAt, hg]
    rfl

theorem patchedPool_filled (h : AllocatedGlobals {} p.globals items t) {fill : Nat × UInt64}
    (mem : fill ∈ entryFills 0 (entryTerms items) ++
      (laidBodies items).flatMap fun l => l.term.fills l.start) :
    (patchedPool items t)[fill.1]? = some fill.2 := by
  rw [patchedPool, layout_ofItems]
  exact h.pool_filled _ mem

theorem compiled (h : AllocatedGlobals {} p.globals items t) (name : String)
    (small : (tableCode items t).length < UInt64.size) :
    Nonempty (Compiled p (tableModule name items t)) := by
  have laidOut := h.laidOut small
  have external := h.isExternalAt_tableModule name small
  have places : layBodies (entrySection (isExternalAt (placedTable items t))
      (entryTerms items)).length (bodies items) = laidBodies items := by
    rw [length_entrySection]
    rfl
  refine ⟨{
    tables := t
    entries := entryTerms items
    laid := laidBodies items
    valid := h.grows.valid
    entries_placed := h.entries
    laid_placed := ?_
    function_kept := ?_
    laid_of_address := ?_
    start_injective := ?_
    indices_nodup := ?_
    entry_owned := ?_
    entry_filled := ?_
    body_owned := ?_
    body_filled := ?_
    constants_le := ?_ }⟩
  · have placed := h.definitions
    rw [← map_layBodies (entriesSize (entryTerms items) + 1) (bodies items)] at placed
    exact List.forall₂_map_right_iff.1 placed
  · intro i f hf
    obtain ⟨g, hg, kept, -⟩ := h.tableModule_kept name small hf
    exact ⟨g, hg, kept⟩
  · intro i g a hg ha
    have inside : i < ((placedTable items t).map FunctionEntry.bare).size := by
      have := (Array.getElem?_eq_some_iff.1 hg).1
      simpa [tableModule, Module.ofParts_eq] using this
    have hf := Array.getElem?_eq_getElem inside
    obtain ⟨g', hg', -, address⟩ := Module.getElem?_ofParts hf
    obtain rfl : g = g' := Option.some.inj (hg.symm.trans hg')
    rw [← places]
    exact laidOut.laid_of_address i _ a hf (address.symm.trans ha)
  · intro l mem l' mem' same
    have := l.start_lt_stop
    have := l'.start_lt_stop
    obtain rfl | apart | apart := layBodies_apart mem mem'
    · rfl
    · omega
    · omega
  · rw [map_index_laidBodies]
    exact h.nodup
  · rw [external]
    exact laidOut.front_owned
  · intro x mem
    rw [constants_tableModule]
    exact h.patchedPool_filled (List.mem_append_left _ mem)
  · intro l mem
    rw [external]
    rw [← places] at mem
    exact laidOut.body_owned mem
  · intro l mem x hx
    rw [constants_tableModule]
    exact h.patchedPool_filled (List.mem_append_right _ (List.mem_flatMap.2 ⟨l, mem, hx⟩))
  · have := h.grows.valid.constants_le
    rwa [constants_tableModule, size_patchedPool]

end AllocatedGlobals

end RegLisp
