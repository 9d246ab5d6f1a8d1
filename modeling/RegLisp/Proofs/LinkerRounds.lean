import RegLisp.Image.Linker
import RegLisp.Proofs.Linking

/-!
# Rounds of linking

The two passes of a linker give the image that linking is defined by, whatever rounds came before.
The first pass finds the definitions that are collected. The second one writes into the table that
it reads the definitions from, but only into the slots of references, so that every reference gets
what its definition had in the first place.
-/

namespace RegLisp

/-! ## Rows -/

/-- An entry of a function table, with its module and the number of that. -/
structure Row where
  index : Nat
  module : Module
  entry : FunctionEntry

namespace Row

/-- The slot of the entry before references are filled in. -/
def slot (r : Row) : LinkedFunction := r.entry.slot r.index r.module.offsets.code

/-- What the entry stands for. -/
def resolve (known : List Known) (r : Row) : Except LinkError LinkedFunction :=
  RegLisp.resolve known r.index r.module r.entry

/-- The definition that the entry is, if it is one. -/
def known? (r : Row) : Option Known :=
  r.entry.address.map fun address =>
    ⟨r.entry.linked r.index r.module.offsets.code address, r.module.name⟩

/-- The slot of a definition has all of it. -/
theorem slot_eq_of_known? {r : Row} {d : Known} (h : r.known? = some d) :
    r.slot = d.function ∧ d.function.name = r.entry.name ∧ d.moduleName = r.module.name := by
  obtain ⟨address, ha, rfl⟩ := Option.map_eq_some_iff.1 h
  refine ⟨?_, rfl, rfl⟩
  simp [slot, FunctionEntry.slot, FunctionEntry.linked, ha]

theorem resolve_of_known? {known : List Known} {r : Row} {d : Known} (h : r.known? = some d) :
    r.resolve known = .ok r.slot := by
  rw [(slot_eq_of_known? h).1]
  obtain ⟨address, ha, rfl⟩ := Option.map_eq_some_iff.1 h
  simp [resolve, RegLisp.resolve, ha]

end Row

/-- The entries of module number `index`. -/
def Module.rows (index : Nat) (m : Module) : List Row :=
  m.functions.toList.map (⟨index, m, ·⟩)

/-- The entries of modules in the order of their slots. The first module has number `index`. -/
def rowsFrom (index : Nat) : List Module → List Row
  | [] => []
  | m :: ms => m.rows index ++ rowsFrom (index + 1) ms

/-- Resolving modules one after the other resolves all their entries. -/
theorem resolveAll_eq_mapM (known : List Known) (index : Nat) (done : Array LinkedFunction)
    (ms : List Module) :
    resolveAll known index done ms =
      ((rowsFrom index ms).mapM (Row.resolve known)).map fun fs => done ++ fs.toArray := by
  induction ms generalizing index done with
  | nil => simp [resolveAll, rowsFrom, pure, Except.pure, Except.map]
  | cons m ms ih =>
    have same : m.functions.toList.mapM (resolve known index m) =
        (m.rows index).mapM (Row.resolve known) := by
      rw [Module.rows, List.mapM_map]
      rfl
    rw [resolveAll, same, rowsFrom, List.mapM_append]
    cases (m.rows index).mapM (Row.resolve known) with
    | error e => rfl
    | ok fs =>
      simp only [ih, append_list_eq]
      cases (rowsFrom (index + 1) ms).mapM (Row.resolve known) with
      | error e => rfl
      | ok fs' => simp [Except.map, bind, Except.bind, pure, Except.pure]

/-! ## The first pass -/

namespace Linker

/-- The linker has noted the slots of the known definitions, which are among the given rows. -/
structure Tracks (all : List Module) (rows : List Row) (l : Linker) (known : List Known) :
    Prop where
  absent : ∀ name, findKnown known name = none → l.slots.lookup name = none
  found : ∀ name d, findKnown known name = some d → ∃ k r, l.slots.lookup name = some k ∧
    rows[k]? = some r ∧ r.known? = some d ∧ all[r.index]? = some r.module

variable {all : List Module} {rows : List Row} {l : Linker} {known : List Known}

/-- A reference is not noted. -/
theorem Tracks.skip (h : Tracks all rows l known) (r : Row) : Tracks all (rows ++ [r]) l known := by
  refine ⟨h.absent, ?_⟩
  intro name d hd
  obtain ⟨k, r', lookup, row, rest⟩ := h.found name d hd
  have inside := (List.getElem?_eq_some_iff.1 row).1
  exact ⟨k, r', lookup, by rw [List.getElem?_append_left inside, row], rest⟩

/-- A new definition is noted with the next slot. -/
theorem Tracks.add (h : Tracks all rows l known) {r : Row} {d : Known} (hd : r.known? = some d)
    (hr : all[r.index]? = some r.module) :
    Tracks all (rows ++ [r]) ⟨(r.entry.name, rows.length) :: l.slots⟩ (d :: known) := by
  obtain ⟨-, name_eq, -⟩ := Row.slot_eq_of_known? hd
  have skipped := h.skip r
  refine ⟨?_, ?_⟩
  all_goals intro name
  · intro hnone
    by_cases same : r.entry.name = name
    · simp [findKnown, name_eq, same] at hnone
    · have other : (name == r.entry.name) = false := by simpa using Ne.symm same
      rw [List.lookup_cons, other]
      apply h.absent
      simpa [findKnown, name_eq, same] using hnone
  · intro d' hd'
    by_cases same : r.entry.name = name
    · have first : d = d' := by simpa [findKnown, name_eq, same] using hd'
      subst first same
      exact ⟨rows.length, r, by simp, by simp, hd, hr⟩
    · have other : (name == r.entry.name) = false := by simpa using Ne.symm same
      rw [List.lookup_cons, other]
      apply skipped.found
      simpa [findKnown, name_eq, same] using hd'

/-- The module that a noted slot belongs to is that of the definition. -/
theorem Tracks.definer_eq (h : Tracks all rows l known) {name : String} {d : Known}
    (hd : findKnown known name = some d) :
    ∃ k, l.slots.lookup name = some k ∧
      definer all (rows.map Row.slot).toArray k = d.moduleName := by
  obtain ⟨k, r, lookup, row, hr, module_eq⟩ := h.found name d hd
  obtain ⟨-, -, moduleName⟩ := Row.slot_eq_of_known? hr
  refine ⟨k, lookup, ?_⟩
  have number : r.slot.module = r.index := rfl
  simp [definer, row, number, module_eq, moduleName]

/-- Collecting and a pass end in the same way: with the same error, or with definitions whose slots
are noted and the value that the pass should have. -/
inductive Passes {α : Type} (all : List Module) (rows : List Row) (value : α) :
    Except LinkError (List Known) → Except LinkError α × Linker → Prop
  | error (e : LinkError) (l : Linker) : Passes all rows value (.error e) (.error e, l)
  | ok {l : Linker} {known : List Known} (h : Tracks all rows l known) :
    Passes all rows value (.ok known) (.ok value, l)

/-- Entries get slots as long as their definitions can be collected. -/
theorem enter_spec {index : Nat} {m : Module} (hm : all[index]? = some m)
    (h : Tracks all rows l known) (fs : List FunctionEntry) :
    Passes all (rows ++ fs.map (Row.mk index m))
      ((rows ++ fs.map (Row.mk index m)).map Row.slot).toArray (collectEntries index m known fs)
      (enter all index m l (rows.map Row.slot).toArray fs) := by
  induction fs generalizing rows l known with
  | nil =>
    rw [List.map_nil, List.append_nil]
    exact .ok h
  | cons f fs ih =>
    have push : (rows.map Row.slot).toArray.push (f.slot index m.offsets.code) =
        ((rows ++ [Row.mk index m f]).map Row.slot).toArray := by
      simp [Row.slot]
    have shift : rows ++ (f :: fs).map (Row.mk index m) =
        rows ++ [Row.mk index m f] ++ fs.map (Row.mk index m) := by simp
    rw [shift]
    unfold collectEntries enter
    cases ha : f.address with
    | none =>
      have external : f.isExternal = true := by simp [FunctionEntry.isExternal, ha]
      simp only [external, ↓reduceIte, push]
      exact ih (h.skip ⟨index, m, f⟩)
    | some address =>
      have defined : f.isExternal = false := by simp [FunctionEntry.isExternal, ha]
      simp only [defined, Bool.false_eq_true, ↓reduceIte]
      cases hf : findKnown known f.name with
      | some first =>
        obtain ⟨k, lookup, definer_eq⟩ := h.definer_eq hf
        simp only [lookup, definer_eq]
        exact .error _ _
      | none =>
        have row : (Row.mk index m f).known? =
            some ⟨f.linked index m.offsets.code address, m.name⟩ := by
          simp [Row.known?, ha]
        simp only [h.absent f.name hf, push, List.size_toArray, List.length_map]
        exact ih (h.add row hm)

/-- An image with modules set behind those that it has, whose slots are those of the rows. -/
def merged (img : Image) (ms : List Module) (rows : List Row) : Image :=
  { functions := (rows.map Row.slot).toArray
    constants := ms.foldl (fun words m => words ++ m.constants) img.constants
    code := ms.foldl (fun code m => code ++ m.code) img.code
    modules := img.modules ++ (ms.map Module.span).toArray }

/-- The first pass succeeds where the definitions can be collected. -/
theorem merge_spec {index : Nat} {ms : List Module}
    (hms : ∀ j m, ms[j]? = some m → all[index + j]? = some m) {img : Image}
    (hfs : img.functions = (rows.map Row.slot).toArray) (h : Tracks all rows l known) :
    Passes all (rows ++ rowsFrom index ms) (merged img ms (rows ++ rowsFrom index ms))
      (collect index img.ends known ms) (merge all index l img ms) := by
  induction ms generalizing index img rows l known with
  | nil =>
    have same : merged img [] (rows ++ rowsFrom index []) = img := by
      simp [merged, rowsFrom, ← hfs]
    rw [same, rowsFrom, List.append_nil]
    exact .ok h
  | cons m ms ih =>
    have shift : rows ++ rowsFrom index (m :: ms) =
        rows ++ m.rows index ++ rowsFrom (index + 1) ms := by
      rw [rowsFrom, List.append_assoc]
    have entered := enter_spec (hms 0 m rfl) h m.functions.toList
    rw [Nat.add_zero, ← hfs, ← Module.rows] at entered
    unfold collect merge
    split
    · generalize collectEntries index m known m.functions.toList = collected,
        enter all index m l img.functions m.functions.toList = result at entered ⊢
      cases entered with
      | error e l => exact .error e l
      | ok tracks =>
        let next : Image :=
          { functions := ((rows ++ m.rows index).map Row.slot).toArray
            constants := img.constants ++ m.constants
            code := img.code ++ m.code
            modules := img.modules.push m.span }
        -- the next module is checked against the ends of what is merged by then
        have ends : img.ends.after m = next.ends := by
          simp [next, Image.ends, Offsets.after, hfs, Module.rows]
        have all' : ∀ j m', ms[j]? = some m' → all[index + 1 + j]? = some m' := by
          intro j m' hm'
          have := hms (j + 1) m' hm'
          rwa [Nat.add_right_comm, Nat.add_assoc]
        have functions : next.functions = ((rows ++ m.rows index).map Row.slot).toArray := rfl
        have rest := ih all' functions tracks
        rw [shift]
        simp only [ends]
        convert rest using 1
        simp [merged, next]
    · exact .error _ _

/-! ## The second pass -/

/-- In a table that is filled in up to some row, the slot that is noted for a definition has all of
it. -/
theorem Tracks.slot_eq {before rest : List Row} (h : Tracks all (before ++ rest) l known)
    {done : List LinkedFunction} (hdone : before.mapM (Row.resolve known) = .ok done)
    {name : String} {d : Known} (hd : findKnown known name = some d) :
    ∃ k, l.slots.lookup name = some k ∧
      (done ++ rest.map Row.slot)[k]? = some d.function := by
  obtain ⟨k, r, lookup, row, hr, -⟩ := h.found name d hd
  obtain ⟨length, get⟩ := getElem?_of_mapM_ok hdone
  obtain ⟨slot_eq, -, -⟩ := Row.slot_eq_of_known? hr
  refine ⟨k, lookup, ?_⟩
  -- a definition stands for itself, so its slot is the same before and after the pass comes by
  by_cases inside : k < before.length
  · rw [List.getElem?_append_left inside] at row
    obtain ⟨s, hs, hk⟩ := get k r row
    rw [Row.resolve_of_known? hr, Except.ok.injEq] at hs
    rw [List.getElem?_append_left (by omega), hk, ← hs, slot_eq]
  · rw [List.getElem?_append_right (by omega)] at row
    rw [List.getElem?_append_right (by omega), length, List.getElem?_map, row, Option.map_some,
      slot_eq]

theorem modify_length_append {α : Type} (f : α → α) (xs : List α) (y : α) (ys : List α) :
    (xs ++ y :: ys).modify xs.length f = xs ++ f y :: ys := by
  induction xs with
  | nil => rfl
  | cons x xs ih => simp [ih]

/-- Filling in the slot of a reference puts there what the reference stands for. -/
theorem fill_eq {before rest : List Row} {index : Nat} {m : Module} {f : FunctionEntry}
    (h : Tracks all (before ++ ⟨index, m, f⟩ :: rest) l known) {done : List LinkedFunction}
    (hdone : before.mapM (Row.resolve known) = .ok done) (hf : f.isExternal = true) {i : Nat}
    (hi : m.offsets.functions + i = before.length) :
    l.fill m (done ++ (⟨index, m, f⟩ :: rest).map Row.slot).toArray (i, f) =
      (resolve known index m f).map fun s => (done ++ s :: rest.map Row.slot).toArray := by
  have external : f.address = none := by simpa [FunctionEntry.isExternal] using hf
  unfold fill resolve
  simp only [external]
  cases hd : findKnown known f.name with
  | none =>
    simp only [h.absent f.name hd, Option.bind_none]
    rfl
  | some d =>
    obtain ⟨k, lookup, slot⟩ := h.slot_eq hdone hd
    obtain ⟨-, name_eq⟩ := findKnown_eq_some hd
    simp only [lookup, Option.bind_some, List.getElem?_toArray, slot]
    split
    · obtain ⟨length, -⟩ := getElem?_of_mapM_ok hdone
      simp only [Except.map, hi, ← length, List.map_cons]
      rw [List.modify_toArray, modify_length_append, name_eq]
      rfl
    · simp only [Except.map, name_eq]

/-- Filling in the references among entries that follow each other puts what each of them stands
for into its slot. -/
theorem foldlM_fill_eq {index : Nat} {m : Module} {fs : List FunctionEntry}
    {before rest : List Row} (h : Tracks all (before ++ fs.map (Row.mk index m) ++ rest) l known)
    {done : List LinkedFunction} (hdone : before.mapM (Row.resolve known) = .ok done) {i : Nat}
    (hi : m.offsets.functions + i = before.length) :
    (((fs.zipIdx i).map fun (f, i) => (i, f)).filter (·.2.isExternal)).foldlM (l.fill m)
        (done ++ (fs.map (Row.mk index m) ++ rest).map Row.slot).toArray =
      ((fs.map (Row.mk index m)).mapM (Row.resolve known)).map fun fs =>
        (done ++ fs ++ rest.map Row.slot).toArray := by
  induction fs generalizing i before done with
  | nil => simp [pure, Except.pure, Except.map]
  | cons f fs ih =>
    let r := Row.mk index m f
    have tracks : Tracks all (before ++ [r] ++ fs.map (Row.mk index m) ++ rest) l known := by
      simpa [r] using h
    have length : m.offsets.functions + (i + 1) = (before ++ [r]).length := by
      rw [List.length_append, List.length_singleton]
      omega
    -- Once the slot of the first entry holds what it stands for, the rest is filled in after it.
    have continued : ∀ s, r.resolve known = .ok s →
        (((fs.zipIdx (i + 1)).map fun (f, i) => (i, f)).filter (·.2.isExternal)).foldlM (l.fill m)
          (done ++ s :: (fs.map (Row.mk index m) ++ rest).map Row.slot).toArray =
        (((f :: fs).map (Row.mk index m)).mapM (Row.resolve known)).map fun fs =>
          (done ++ fs ++ rest.map Row.slot).toArray := by
      intro s hs
      have hdone' : (before ++ [r]).mapM (Row.resolve known) = .ok (done ++ [s]) := by
        rw [List.mapM_append, hdone, List.mapM_cons, hs]
        rfl
      have := ih tracks hdone' length
      rw [List.append_assoc, List.singleton_append] at this
      rw [this, List.map_cons, List.mapM_cons, hs]
      cases (fs.map (Row.mk index m)).mapM (Row.resolve known) with
      | error e => rfl
      | ok gs => simp [Except.map, bind, Except.bind, pure, Except.pure]
    cases hf : f.isExternal with
    | false =>
      obtain ⟨address, ha⟩ : ∃ address, f.address = some address := by
        simpa [FunctionEntry.isExternal, Option.isSome_iff_exists] using hf
      have known_eq : r.known? = some ⟨f.linked index m.offsets.code address, m.name⟩ := by
        simp [r, Row.known?, ha]
      have := continued r.slot (Row.resolve_of_known? known_eq)
      simpa [hf] using this
    | true =>
      have tracks' : Tracks all (before ++ r :: (fs.map (Row.mk index m) ++ rest)) l known := by
        simpa using tracks
      have filled := fill_eq tracks' hdone hf hi
      simp only [List.zipIdx_cons, List.map_cons, List.filter_cons, hf, ↓reduceIte,
        List.foldlM_cons, List.cons_append] at filled ⊢
      rw [filled]
      cases hs : resolve known index m f with
      | error e =>
        rw [List.mapM_cons, Row.resolve, hs]
        rfl
      | ok s => exact continued s hs

/-- The second pass gives what all entries stand for. -/
theorem fillAll_eq {index : Nat} {ms : List Module} {before : List Row}
    (h : Tracks all (before ++ rowsFrom index ms) l known) {done : List LinkedFunction}
    (hdone : before.mapM (Row.resolve known) = .ok done) {o : Offsets}
    (hms : placeFrom o ms = ms) (ho : o.functions = before.length) :
    l.fillAll (done ++ (rowsFrom index ms).map Row.slot).toArray ms =
      ((rowsFrom index ms).mapM (Row.resolve known)).map fun fs => (done ++ fs).toArray := by
  induction ms generalizing index before done o with
  | nil => simp [fillAll, rowsFrom, pure, Except.pure, Except.map]
  | cons m ms ih =>
    rw [placeFrom, List.cons.injEq] at hms
    obtain ⟨head, tail⟩ := hms
    have offsets : m.offsets = o := by rw [← head]; rfl
    rw [rowsFrom, ← List.append_assoc] at h
    have first := foldlM_fill_eq h hdone (show m.offsets.functions + 0 = before.length by
      rw [offsets, ho, Nat.add_zero])
    have shift : l.fillAll (done ++ (rowsFrom index (m :: ms)).map Row.slot).toArray (m :: ms) =
        (m.references.foldlM (l.fill m)
          (done ++ (m.rows index ++ rowsFrom (index + 1) ms).map Row.slot).toArray) >>=
          fun table => l.fillAll table ms := by
      rw [fillAll, List.foldlM_cons, rowsFrom]
      rfl
    rw [shift, Module.references, Module.entriesWhere, Module.rows, first, rowsFrom,
      List.mapM_append, ← Module.rows]
    cases hfs : (m.rows index).mapM (Row.resolve known) with
    | error e => rfl
    | ok fs =>
      have hdone' : (before ++ m.rows index).mapM (Row.resolve known) = .ok (done ++ fs) := by
        rw [List.mapM_append, hdone, hfs]
        rfl
      have length : (o.after m).functions = (before ++ m.rows index).length := by
        simp [Offsets.after, ho, Module.rows]
      have rest := ih h hdone' tail length
      simp only [Except.map, bind, Except.bind] at rest ⊢
      rw [rest]
      cases (rowsFrom (index + 1) ms).mapM (Row.resolve known) with
      | error e => rfl
      | ok gs => simp [pure, Except.pure]

/-- A round of linking gives the image of the modules, whatever the linker has noted before. -/
theorem link_fst_eq (l : Linker) (ms : List Module) : (l.link ms).1 = Image.link ms := by
  have start : Tracks ms [] {} [] := ⟨by simp [findKnown], by simp [findKnown]⟩
  have passes : Passes ms (rowsFrom 0 ms) (merged ⟨#[], #[], #[], #[]⟩ ms (rowsFrom 0 ms))
      (collect 0 {} [] ms) (merge ms 0 {} ⟨#[], #[], #[], #[]⟩ ms) :=
    merge_spec (by simp) rfl start
  have placed : ∀ known, collect 0 {} [] ms = .ok known → placeFrom {} ms = ms :=
    fun known hk => (collect_spec hk).2.2
  unfold link Image.link
  split
  · rfl
  · generalize collect 0 {} [] ms = collected, merge ms 0 {} ⟨#[], #[], #[], #[]⟩ ms = result
      at passes placed ⊢
    cases passes with
    | error e l => rfl
    | ok tracks =>
      rename_i l known
      have filled : l.fillAll ((rowsFrom 0 ms).map Row.slot).toArray ms =
          ((rowsFrom 0 ms).mapM (Row.resolve known)).map List.toArray :=
        fillAll_eq (show Tracks ms ([] ++ rowsFrom 0 ms) l known from tracks) rfl
          (placed known rfl) rfl
      simp only [merged, filled, resolveAll_eq_mapM]
      cases (rowsFrom 0 ms).mapM (Row.resolve known) with
      | error e => rfl
      | ok fs => simp [Except.map]

end Linker

/-- Modules are linked at the places that they are given. -/
theorem linkModules_eq (ms : List Module) : linkModules ms = Image.link (assignOffsets ms) :=
  Linker.link_fst_eq {} (assignOffsets ms)

end RegLisp
