import RegLisp.Proofs.LinkAcceptance
import RegLisp.Proofs.LinkResolution

/-!
# Where modules stand

Three walks over modules keep running offsets: loading a row of files, assigning offsets to modules
that are decoded already, and linking, which compares them with the offsets that the modules have.
Loading is decoding each file and then assigning offsets, up to the first file that cannot be
decoded. The linker refuses offsets only where they differ from the assigned ones, and links no
modules at any others.
-/

namespace RegLisp

/-! ## Loading -/

/-- The module in a file, apart from all other files. -/
def ModuleFile.decode (f : ModuleFile) : Except LoadError Module :=
  match f.contents with
  | .error reason => .error (.unreadable f.path reason)
  | .ok bytes => Module.decode f.name bytes

theorem ModuleFile.load_eq (f : ModuleFile) (o : Offsets) :
    f.load o = f.decode.map (·.withOffsets o) := by
  unfold load decode
  cases f.contents with
  | error reason => rfl
  | ok bytes =>
    simp only [Loader.load, if_true]
    cases Module.decode f.name bytes <;> rfl

/-- The running offsets of loading are those of placing the decoded modules. -/
theorem loadFrom_eq (o : Offsets) (fs : List ModuleFile) :
    loadFrom o fs = (fs.mapM ModuleFile.decode).map (placeFrom o) := by
  induction fs generalizing o with
  | nil => rfl
  | cons f fs ih =>
    rw [loadFrom, ModuleFile.load_eq, List.mapM_cons]
    cases f.decode with
    | error e => rfl
    | ok m =>
      -- The sizes of a module do not depend on its place.
      have after : o.after (m.withOffsets o) = o.after m := rfl
      simp only [Except.map, after, ih]
      cases fs.mapM ModuleFile.decode <;> rfl

theorem loadModules_eq (fs : List ModuleFile) :
    loadModules fs = (fs.mapM ModuleFile.decode).map assignOffsets := loadFrom_eq {} fs

theorem loadModules_eq_ok_iff {fs : List ModuleFile} {ms : List Module} :
    loadModules fs = .ok ms ↔
      ∃ ds : List Module, fs.map ModuleFile.decode = ds.map .ok ∧ ms = assignOffsets ds := by
  simp only [loadModules_eq, ← mapM_eq_ok_iff]
  cases fs.mapM ModuleFile.decode with
  | error e => simp [Except.map]
  | ok ds => simp [Except.map, eq_comm]

theorem loadModules_eq_error_iff {fs : List ModuleFile} {e : LoadError} :
    loadModules fs = .error e ↔ fs.mapM ModuleFile.decode = .error e := by
  rw [loadModules_eq]
  cases fs.mapM ModuleFile.decode <;> simp [Except.map]

theorem exists_loadModules_eq_ok_iff {fs : List ModuleFile} :
    (∃ ms, loadModules fs = .ok ms) ↔ ∀ f ∈ fs, ∃ m, f.decode = .ok m := by
  rw [← exists_mapM_eq_ok_iff, loadModules_eq]
  cases fs.mapM ModuleFile.decode <;> simp [Except.map]

/-! ## Linking -/

/-- The first module that does not stand behind the modules before it has the given name. -/
structure Misplaced (o : Offsets) (ms : List Module) (name : String) (before : List Module)
    (m : Module) (after : List Module) : Prop where
  split : ms = before ++ m :: after
  placed : placeFrom o before = before
  elsewhere : m.offsets ≠ o.afterAll before
  name_eq : m.name = name

theorem collectEntries_ne_misplaced {index : Nat} {m : Module} {known : List Known}
    {fs : List FunctionEntry} {name : String} :
    collectEntries index m known fs ≠ .error (.misplacedModule name) := by
  induction fs generalizing known with
  | nil => simp [collectEntries]
  | cons f fs ih =>
    unfold collectEntries
    split
    · exact ih
    · split
      · simp
      · exact ih

theorem resolve_ne_misplaced {known : List Known} {index : Nat} {m : Module} {f : FunctionEntry}
    {name : String} : resolve known index m f ≠ .error (.misplacedModule name) := by
  unfold resolve
  split
  · simp
  · split
    · simp
    · split <;> simp

theorem resolveAll_ne_misplaced {known : List Known} {index : Nat} {done : Array LinkedFunction}
    {ms : List Module} {name : String} :
    resolveAll known index done ms ≠ .error (.misplacedModule name) := by
  induction ms generalizing index done with
  | nil => simp [resolveAll]
  | cons m ms ih =>
    intro h
    unfold resolveAll at h
    split at h
    · rename_i e failed
      cases h
      obtain ⟨_, _, _, _, _, failed⟩ := mapM_eq_error_iff.1 failed
      exact resolve_ne_misplaced failed
    · exact ih h

/-- The walk of the linker stops at the first module that is not where the running offsets are. -/
theorem misplaced_of_collect {index : Nat} {o : Offsets} {known : List Known} {ms : List Module}
    {name : String} (h : collect index o known ms = .error (.misplacedModule name)) :
    ∃ before m after, Misplaced o ms name before m after := by
  induction ms generalizing index o known with
  | nil => cases h
  | cons m ms ih =>
    unfold collect at h
    split at h
    · rename_i here
      split at h
      · rename_i e failed
        cases h
        exact absurd failed collectEntries_ne_misplaced
      · obtain ⟨before, m', after, rfl, placed, elsewhere, name_eq⟩ := ih h
        refine ⟨m :: before, m', after, rfl, ?_, elsewhere, name_eq⟩
        rw [placeFrom, placed, ← here]
        rfl
    · rename_i elsewhere
      cases h
      exact ⟨[], m, ms, rfl, rfl, elsewhere, rfl⟩

theorem misplaced_of_link {ms : List Module} {name : String}
    (h : Image.link ms = .error (.misplacedModule name)) :
    ∃ before m after, Misplaced {} ms name before m after := by
  unfold Image.link at h
  split at h
  · cases h
  · split at h
    · rename_i e failed
      cases h
      exact misplaced_of_collect failed
    · split at h
      · rename_i e failed
        cases h
        exact absurd failed resolveAll_ne_misplaced
      · cases h

theorem not_misplaced_placeFrom {o : Offsets} {ms before after : List Module} {name : String}
    {m : Module} : ¬ Misplaced o (placeFrom o ms) name before m after := by
  intro h
  have here : (placeFrom o (placeFrom o ms))[before.length]? = some m := by
    rw [placeFrom_placeFrom, h.split]
    simp
  rw [placeFrom_getElem?, h.split, List.take_left, List.getElem?_append_right le_rfl] at here
  simp only [Nat.sub_self, List.getElem?_cons_zero, Option.map_some, Option.some.injEq] at here
  exact h.elsewhere (congrArg Module.offsets here).symm

/-! ## Agreement -/

/-- Loading files is decoding each of them and placing the modules one behind the other. -/
structure LoadsInPlace (fs : List ModuleFile) : Prop where
  loads : (∃ ms, loadModules fs = .ok ms) ↔ ∀ f ∈ fs, ∃ m, f.decode = .ok m
  loaded : ∀ ms, loadModules fs = .ok ms ↔
    ∃ ds : List Module, fs.map ModuleFile.decode = ds.map .ok ∧ ms = assignOffsets ds
  fails : ∀ e, loadModules fs = .error e ↔ ∃ before f after, fs = before ++ f :: after ∧
    (∀ f' ∈ before, ∃ m, f'.decode = .ok m) ∧ f.decode = .error e
  /-- Loaded modules are linked to the image of the decoded ones, or refused as they are. -/
  linked : ∀ ds : List Module, fs.map ModuleFile.decode = ds.map .ok →
    ∃ ms, loadModules fs = .ok ms ∧ ∀ l : Linker, (l.link ms).1 = linkModules ds

theorem loadsInPlace (fs : List ModuleFile) : LoadsInPlace fs where
  loads := exists_loadModules_eq_ok_iff
  loaded _ := loadModules_eq_ok_iff
  fails _ := loadModules_eq_error_iff.trans mapM_eq_error_iff
  linked ds decoded := by
    refine ⟨assignOffsets ds, loadModules_eq_ok_iff.2 ⟨ds, decoded, rfl⟩, fun l => ?_⟩
    rw [l.link_fst_eq, linkModules_eq]

/-- What linking says about where modules stand, whatever offsets they come with. -/
structure LinksInPlace (l : Linker) (ms : List Module) : Prop where
  offsets : ∀ j : Nat, (assignOffsets ms)[j]? = ms[j]?.map (·.withOffsets (startsOf ms j))
  assigned : ∀ name, (l.link (assignOffsets ms)).1 ≠ .error (.misplacedModule name)
  loaded : ∀ fs name, loadModules fs = .ok ms → (l.link ms).1 ≠ .error (.misplacedModule name)
  refused : ∀ name, (l.link ms).1 = .error (.misplacedModule name) →
    ∃ before m after, Misplaced {} ms name before m after
  linked : ∀ img, (l.link ms).1 = .ok img → assignOffsets ms = ms

/-- Loading and assigning offsets place modules alike, where the linker wants them. -/
theorem placement_agrees (fs : List ModuleFile) (l : Linker) (ms : List Module) :
    LoadsInPlace fs ∧ LinksInPlace l ms := by
  have assigned (ds : List Module) (name : String) :
      (l.link (assignOffsets ds)).1 ≠ .error (.misplacedModule name) := by
    rw [l.link_fst_eq]
    intro h
    obtain ⟨before, m, after, misplaced⟩ := misplaced_of_link h
    exact not_misplaced_placeFrom misplaced
  refine ⟨loadsInPlace fs, ?_⟩
  constructor
  case offsets => exact assignOffsets_getElem? ms
  case assigned => exact assigned ms
  case loaded =>
    intro fs name loaded
    obtain ⟨ds, -, rfl⟩ := loadModules_eq_ok_iff.1 loaded
    exact assigned ds name
  case refused =>
    intro name h
    rw [l.link_fst_eq] at h
    exact misplaced_of_link h
  case linked =>
    intro img h
    rw [l.link_fst_eq] at h
    exact (Image.links_of_link h).placed

/-- A module with a definition, an empty one, and one that refers to the definition. -/
def uneven : List Module :=
  [.ofParts "a" #[⟨"f", some 1, [.int], 0⟩] #[7] #[⟨15, 0, 0, 0⟩, ⟨5, 0, 0, 0⟩],
    .ofParts "b" #[] #[] #[],
    .ofParts "c" #[⟨"f", none, [.int], 0⟩] #[] #[⟨15, 0, 0, 0⟩]]

/-- The file that a module is written to. -/
def Module.file (m : Module) : ModuleFile :=
  { path := m.name ++ ".bc", name := m.name, contents := .ok m.encode }

theorem placement_agrees_uneven :
    loadModules (uneven.map Module.file) = .ok (assignOffsets uneven) ∧
      (assignOffsets uneven).map Module.offsets = [⟨0, 0, 0⟩, ⟨1, 1, 2⟩, ⟨1, 1, 2⟩] ∧
      (({} : Linker).link (assignOffsets uneven)).1.isOk ∧
      assignOffsets uneven ≠ uneven ∧
      (({} : Linker).link uneven).1 = .error (.misplacedModule "b") ∧
      ∃ before m after, Misplaced {} uneven "b" before m after := by
  obtain ⟨loads, links⟩ := placement_agrees (uneven.map Module.file) {} uneven
  have decoded : (uneven.map Module.file).map ModuleFile.decode = uneven.map .ok := by
    decide +kernel
  have refused : (({} : Linker).link uneven).1 = .error (.misplacedModule "b") := by
    decide +kernel
  exact ⟨(loads.loaded _).2 ⟨uneven, decoded, rfl⟩, by decide +kernel, by decide +kernel,
    by decide +kernel, refused, links.refused "b" refused⟩

end RegLisp
