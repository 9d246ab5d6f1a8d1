import Mathlib
import RegLisp.Image.Link
import RegLisp.Proofs.Traversal

/-!
# What an image holds

The sections of a linked image are those of its modules one behind the other, so that a look-up
inside a module finds the module's own constants and instructions. Each entry of a function table
stands for the one definition of its name, wherever that is.
-/

namespace RegLisp

theorem pairwise_getElem? {α : Type} {R : α → α → Prop} {xs : List α} (h : xs.Pairwise R)
    {i j : Nat} {x y : α} (hi : xs[i]? = some x) (hj : xs[j]? = some y) (lt : i < j) : R x y := by
  obtain ⟨_, rfl⟩ := List.getElem?_eq_some_iff.1 hi
  obtain ⟨_, rfl⟩ := List.getElem?_eq_some_iff.1 hj
  exact List.pairwise_iff_getElem.1 h i j _ _ lt

/-! ## Places -/

/-- The offsets of what comes behind modules. -/
def Offsets.afterAll (o : Offsets) (ms : List Module) : Offsets := ms.foldl Offsets.after o

theorem Offsets.afterAll_eq (o : Offsets) (ms : List Module) :
    o.afterAll ms =
      { functions := o.functions + (ms.map (·.functions.size)).sum
        constants := o.constants + (ms.map (·.constants.size)).sum
        code := o.code + (ms.map (·.code.size)).sum } := by
  induction ms generalizing o with
  | nil => rfl
  | cons m ms ih =>
    rw [afterAll, List.foldl_cons, ← afterAll, ih]
    simp [after, Nat.add_assoc]

/-- A placed module is the module at the offsets behind those before it. -/
theorem placeFrom_getElem? (o : Offsets) (ms : List Module) (j : Nat) :
    (placeFrom o ms)[j]? = ms[j]?.map (·.withOffsets (o.afterAll (ms.take j))) := by
  induction ms generalizing o j with
  | nil => simp [placeFrom]
  | cons m ms ih =>
    cases j with
    | zero => simp [placeFrom, Offsets.afterAll]
    | succ j => simp [placeFrom, ih, Offsets.afterAll]

/-! ## Definitions -/

/-- The definitions of module number `index`, in the order of its table. -/
def Module.known (index : Nat) (m : Module) : List Known :=
  m.functions.toList.filterMap fun f =>
    f.address.map fun address => ⟨f.linked index m.offsets.code address, m.name⟩

/-- The definitions of modules, the first of which has number `index`. -/
def knownFrom (index : Nat) : List Module → List Known
  | [] => []
  | m :: ms => m.known index ++ knownFrom (index + 1) ms

theorem findKnown_eq_none {known : List Known} {name : String} :
    findKnown known name = none ↔ name ∉ known.map (·.function.name) := by
  simp [findKnown]

theorem findKnown_eq_some {known : List Known} {name : String} {d : Known}
    (h : findKnown known name = some d) : d ∈ known ∧ d.function.name = name :=
  ⟨List.mem_of_find?_eq_some h, by simpa using List.find?_some h⟩

/-- Collecting the entries of a module adds its definitions, and no name twice. -/
theorem collectEntries_spec {index : Nat} {m : Module} {fs : List FunctionEntry}
    {known known' : List Known} (h : collectEntries index m known fs = .ok known') :
    known' = (fs.filterMap fun f => f.address.map fun address =>
        (⟨f.linked index m.offsets.code address, m.name⟩ : Known)).reverse ++ known ∧
      ((known.map (·.function.name)).Nodup → (known'.map (·.function.name)).Nodup) := by
  induction fs generalizing known with
  | nil => cases h; simp
  | cons f fs ih =>
    unfold collectEntries at h
    cases ha : f.address with
    | none =>
      simp only [ha] at h
      simpa [ha] using ih h
    | some address =>
      simp only [ha] at h
      cases hf : findKnown known f.name with
      | some first => simp [hf] at h
      | none =>
        simp only [hf] at h
        obtain ⟨heq, hnodup⟩ := ih h
        refine ⟨by simp [heq, ha], fun hk => hnodup ?_⟩
        rw [findKnown_eq_none] at hf
        exact List.nodup_cons.2 ⟨hf, hk⟩

/-- Collecting modules adds all their definitions and no name twice, and finds every module at its
place. -/
theorem collect_spec {index : Nat} {expected : Offsets} {ms : List Module}
    {known known' : List Known} (h : collect index expected known ms = .ok known') :
    known' = (knownFrom index ms).reverse ++ known ∧
      ((known.map (·.function.name)).Nodup → (known'.map (·.function.name)).Nodup) ∧
      placeFrom expected ms = ms := by
  induction ms generalizing index expected known with
  | nil => cases h; exact ⟨rfl, id, rfl⟩
  | cons m ms ih =>
    unfold collect at h
    split at h
    · rename_i offsets
      split at h
      · cases h
      · rename_i middle hm
        obtain ⟨heq, hnodup⟩ := collectEntries_spec hm
        obtain ⟨heq', hnodup', placed⟩ := ih h
        refine ⟨?_, hnodup' ∘ hnodup, ?_⟩
        · rw [heq', heq, knownFrom, List.reverse_append, List.append_assoc, Module.known]
        · rw [placeFrom, placed, ← offsets]
          rfl
    · cases h

/-- A definition is that of an entry with an address. -/
theorem mem_knownFrom (index : Nat) {ms : List Module} {d : Known} :
    d ∈ knownFrom index ms ↔ ∃ (j : Nat) (m : Module) (f : FunctionEntry) (address : UInt64),
      ms[j]? = some m ∧ f ∈ m.functions ∧ f.address = some address ∧
        d = ⟨f.linked (index + j) m.offsets.code address, m.name⟩ := by
  induction ms generalizing index with
  | nil => simp [knownFrom]
  | cons m ms ih =>
    rw [knownFrom, List.mem_append, ih]
    constructor
    · rintro (h | ⟨j, m', f, address, hm, hf, ha, rfl⟩)
      · simp only [Module.known, List.mem_filterMap, Array.mem_toList_iff,
          Option.map_eq_some_iff] at h
        obtain ⟨f, hf, address, ha, rfl⟩ := h
        exact ⟨0, m, f, address, rfl, hf, ha, rfl⟩
      · exact ⟨j + 1, m', f, address, hm, hf, ha, by rw [Nat.add_right_comm, ← Nat.add_assoc]⟩
    · rintro ⟨j, m', f, address, hm, hf, ha, rfl⟩
      cases j with
      | zero =>
        cases hm
        left
        simp only [Module.known, List.mem_filterMap, Array.mem_toList_iff, Option.map_eq_some_iff]
        exact ⟨f, hf, address, ha, rfl⟩
      | succ j =>
        right
        exact ⟨j, m', f, address, hm, hf, ha, by rw [Nat.add_right_comm, ← Nat.add_assoc]⟩

/-- Entry `g` of module number `d` is the definition that entry `f` of module number `j` stands
for. -/
structure Resolves (ms : List Module) (j : Nat) (f : FunctionEntry) (d : Nat) (m : Module)
    (g : FunctionEntry) (address : UInt64) : Prop where
  module_eq : ms[d]? = some m
  mem : g ∈ m.functions
  address_eq : g.address = some address
  name_eq : g.name = f.name
  arity_eq : g.types.length = f.types.length
  own : f.isExternal = false → d = j ∧ g = f

/-- The function in an image that stands for entry `f`, which `g` of module number `d` defines. -/
def resolved (f g : FunctionEntry) (d : Nat) (m : Module) (address : UInt64) : LinkedFunction :=
  { g.linked d m.offsets.code address with types := f.types }

theorem typesAgree_length {xs ys : List ValueType} (h : typesAgree xs ys = true) :
    xs.length = ys.length := by
  simp only [typesAgree, Bool.and_eq_true, beq_iff_eq] at h
  exact h.1

/-- An entry is resolved to the definition of its name. -/
theorem resolve_spec {ms : List Module} {j : Nat} {m : Module} {f : FunctionEntry}
    {r : LinkedFunction} (hm : ms[j]? = some m) (hf : f ∈ m.functions)
    (h : resolve (knownFrom 0 ms).reverse j m f = .ok r) :
    ∃ d m' g address, Resolves ms j f d m' g address ∧ r = resolved f g d m' address := by
  unfold resolve at h
  cases ha : f.address with
  | some address =>
    simp only [ha, Except.ok.injEq] at h
    exact ⟨j, m, f, address, ⟨hm, hf, ha, rfl, rfl, fun _ => ⟨rfl, rfl⟩⟩, h.symm⟩
  | none =>
    simp only [ha] at h
    cases hd : findKnown (knownFrom 0 ms).reverse f.name with
    | none => simp [hd] at h
    | some known =>
      simp only [hd] at h
      split at h
      · rename_i agree
        obtain ⟨mem, name⟩ := findKnown_eq_some hd
        rw [List.mem_reverse, mem_knownFrom 0] at mem
        obtain ⟨d, m', g, address, hm', hg, hga, rfl⟩ := mem
        cases h
        rw [Nat.zero_add]
        refine ⟨d, m', g, address, ⟨hm', hg, hga, name, ?_, ?_⟩, rfl⟩
        · exact (typesAgree_length agree).symm
        · simp [FunctionEntry.isExternal, ha]
      · cases h

theorem append_list_eq {α : Type} (xs : Array α) (ys : List α) : xs ++ ys = xs ++ ys.toArray :=
  Array.ext' (by simp)

/-- Resolving further modules keeps what is resolved already. -/
theorem resolveAll_done {known : List Known} {index : Nat} {done fs : Array LinkedFunction}
    {ms : List Module} (h : resolveAll known index done ms = .ok fs) {k : Nat}
    (hk : k < done.size) : fs[k]? = done[k]? := by
  induction ms generalizing index done with
  | nil => cases h; rfl
  | cons m ms ih =>
    unfold resolveAll at h
    split at h
    · cases h
    · rename_i functions hfs
      rw [append_list_eq] at h
      have below : k < (done ++ functions.toArray).size := by
        rw [Array.size_append]
        omega
      rw [ih h below, Array.getElem?_append_left hk]

/-- Each entry of a module is resolved, at its own place behind the modules before. -/
theorem resolveAll_getElem? {known : List Known} {index : Nat} {done fs : Array LinkedFunction}
    {ms : List Module} (h : resolveAll known index done ms = .ok fs) {j : Nat} {m : Module}
    (hm : ms[j]? = some m) {i : Nat} {f : FunctionEntry} (hf : m.functions[i]? = some f) :
    ∃ r, resolve known (index + j) m f = .ok r ∧
      fs[done.size + ((ms.take j).map (·.functions.size)).sum + i]? = some r := by
  induction ms generalizing index done j with
  | nil => simp at hm
  | cons m₀ ms ih =>
    unfold resolveAll at h
    split at h
    · cases h
    · rename_i functions hfs
      obtain ⟨length, get⟩ := getElem?_of_mapM_ok hfs
      rw [append_list_eq] at h
      cases j with
      | zero =>
        cases hm
        obtain ⟨r, hr, hri⟩ := get i f (by simpa using hf)
        refine ⟨r, hr, ?_⟩
        have hi : i < functions.length := (List.getElem?_eq_some_iff.1 hri).1
        rw [resolveAll_done h (by simpa using hi)]
        simpa [Array.getElem?_append_right] using hri
      | succ j =>
        obtain ⟨r, hr, hri⟩ := ih h hm
        refine ⟨r, by rwa [Nat.add_right_comm] at hr, ?_⟩
        simpa [length, Nat.add_assoc] using hri

/-! ## Images -/

/-- The image is what linking the modules gives. -/
structure Links (ms : List Module) (img : Image) : Prop where
  placed : placeFrom {} ms = ms
  names : ((knownFrom 0 ms).map (·.function.name)).Nodup
  functions : resolveAll (knownFrom 0 ms).reverse 0 #[] ms = .ok img.functions
  constants : img.constants = ms.foldl (fun words m => words ++ m.constants) #[]
  code : img.code = ms.foldl (fun code m => code ++ m.code) #[]
  modules : img.modules = (ms.map Module.span).toArray

theorem Image.links_of_link {ms : List Module} {img : Image} (h : Image.link ms = .ok img) :
    Links ms img := by
  unfold Image.link at h
  split at h
  · cases h
  · split at h
    · cases h
    · rename_i known hk
      obtain ⟨rfl, nodup, placed⟩ := collect_spec hk
      rw [List.append_nil] at h nodup
      split at h
      · cases h
      · rename_i functions hfs
        cases h
        refine ⟨placed, ?_, hfs, rfl, rfl, rfl⟩
        rw [List.map_reverse, List.nodup_reverse] at nodup
        exact nodup List.nodup_nil

theorem getElem?_foldl_append_done {α β : Type} (f : α → Array β) (xs : List α) (done : Array β)
    {k : Nat} (hk : k < done.size) : (xs.foldl (fun ys x => ys ++ f x) done)[k]? = done[k]? := by
  induction xs generalizing done with
  | nil => rfl
  | cons x xs ih =>
    rw [List.foldl_cons, ih _ (by rw [Array.size_append]; omega), Array.getElem?_append_left hk]

/-- In sections that stand one behind the other, the items of a section follow those of the
sections before. -/
theorem getElem?_foldl_append {α β : Type} (f : α → Array β) (done : Array β) {xs : List α}
    {j : Nat} {x : α} (hx : xs[j]? = some x) {i : Nat} (hi : i < (f x).size) :
    (xs.foldl (fun ys x => ys ++ f x) done)[done.size +
      ((xs.take j).map fun x => (f x).size).sum + i]? = (f x)[i]? := by
  induction xs generalizing done j with
  | nil => simp at hx
  | cons y ys ih =>
    cases j with
    | zero =>
      cases hx
      rw [List.foldl_cons, getElem?_foldl_append_done]
      · simp [Array.getElem?_append_right]
      · simpa using hi
    | succ j =>
      have := ih (done ++ f y) hx
      simpa [Nat.add_assoc] using this

namespace Links

variable {ms : List Module} {img : Image} {j : Nat} {m : Module}

/-- A module stands behind all modules before it. -/
theorem offsets_eq (h : Links ms img) (hm : ms[j]? = some m) :
    m.offsets = ({} : Offsets).afterAll (ms.take j) := by
  have placed := placeFrom_getElem? {} ms j
  rw [h.placed, hm, Option.map_some, Option.some.injEq] at placed
  rw [placed]
  rfl

theorem getElem?_modules (h : Links ms img) (hm : ms[j]? = some m) :
    img.modules[j]? = some m.span := by
  simp [h.modules, hm]

/-- The code of a module lies at its offset. -/
theorem getElem?_code (h : Links ms img) (hm : ms[j]? = some m) {a : Nat} (ha : a < m.code.size) :
    img.code[m.offsets.code + a]? = m.code[a]? := by
  have := getElem?_foldl_append Module.code #[] hm ha
  simpa [h.code, h.offsets_eq hm, Offsets.afterAll_eq] using this

theorem codeOffset_eq (h : Links ms img) (hm : ms[j]? = some m) :
    img.codeOffset j = m.offsets.code := by
  simp [Image.codeOffset, h.getElem?_modules hm, Module.span]

/-- Inside a module, an index means the module's own constant. -/
theorem constant_eq (h : Links ms img) (hm : ms[j]? = some m) (i : Nat) :
    img.constant j i = m.constants[i]? := by
  simp only [Image.constant, h.getElem?_modules hm, Module.span]
  split
  · rename_i hi
    have := getElem?_foldl_append Module.constants #[] hm hi
    simpa [h.constants, h.offsets_eq hm, Offsets.afterAll_eq] using this
  · rename_i hi
    rw [Array.getElem?_eq_none (Nat.le_of_not_lt hi)]

/-- Inside a module, an index means the definition that the module's own entry stands for. -/
theorem function_eq (h : Links ms img) (hm : ms[j]? = some m) {i : Nat} {f : FunctionEntry}
    (hf : m.functions[i]? = some f) :
    ∃ d m' g address, Resolves ms j f d m' g address ∧
      img.function j i = some (resolved f g d m' address) := by
  obtain ⟨hi, -⟩ := Array.getElem?_eq_some_iff.1 hf
  obtain ⟨r, hr, hri⟩ := resolveAll_getElem? h.functions hm hf
  rw [Nat.zero_add] at hr
  obtain ⟨d, m', g, address, hd, rfl⟩ := resolve_spec hm (Array.mem_of_getElem? hf) hr
  refine ⟨d, m', g, address, hd, ?_⟩
  simp only [Image.function, h.getElem?_modules hm, Module.span, if_pos hi]
  simpa [h.offsets_eq hm, Offsets.afterAll_eq] using hri

/-- An index has a meaning only inside a module, and only where its table has an entry. -/
theorem entry_of_function (h : Links ms img) {i : Nat} {r : LinkedFunction}
    (hr : img.function j i = some r) :
    ∃ m f, ms[j]? = some m ∧ m.functions[i]? = some f := by
  unfold Image.function at hr
  rw [h.modules, List.getElem?_toArray, List.getElem?_map] at hr
  cases hm : ms[j]? with
  | none => simp [hm] at hr
  | some m =>
    simp only [hm, Option.map_some, Module.span] at hr
    split at hr
    · rename_i hi
      exact ⟨m, _, rfl, Array.getElem?_eq_getElem hi⟩
    · cases hr

/-- No two definitions have one name. -/
theorem definition_unique (h : Links ms img) {d d' : Nat} {m m' : Module} {g g' : FunctionEntry}
    {a a' : UInt64} (hm : ms[d]? = some m) (hm' : ms[d']? = some m') (hg : g ∈ m.functions)
    (hg' : g' ∈ m'.functions) (ha : g.address = some a) (ha' : g'.address = some a')
    (hname : g.name = g'.name) : d = d' ∧ a = a' := by
  have hk := (mem_knownFrom 0).2 ⟨d, m, g, a, hm, hg, ha, rfl⟩
  have hk' := (mem_knownFrom 0).2 ⟨d', m', g', a', hm', hg', ha', rfl⟩
  have same := List.inj_on_of_nodup_map h.names hk hk' hname
  simp only [Nat.zero_add, FunctionEntry.linked, Known.mk.injEq, LinkedFunction.mk.injEq] at same
  obtain ⟨⟨-, address, rfl, -⟩, -⟩ := same
  rw [hm, Option.some.injEq] at hm'
  subst hm'
  exact ⟨rfl, UInt64.toNat_inj.1 (Nat.add_left_cancel address)⟩

end Links

end RegLisp
