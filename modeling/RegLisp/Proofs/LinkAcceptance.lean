import RegLisp.Proofs.LinkerRounds
import RegLisp.Proofs.ModuleFile

/-!
# Which modules can be linked

Modules can be linked if and only if there are any, no name is defined twice, and every reference
finds a definition of its name with a signature that agrees with its own. Otherwise the first thing
that is wrong, in the order of the modules and of their tables, is reported: first among the
definitions, and only if these are fine, among the references.
-/

namespace RegLisp

/-- An entry of a function table, and the name of its module. -/
structure Site where
  module : String
  entry : FunctionEntry

/-- The entries of all function tables, in the order of the modules. -/
def sites (ms : List Module) : List Site :=
  ms.flatMap fun m => m.functions.toList.map (Site.mk m.name)

/-- The site defines the given name. -/
def Site.Defines (name : String) (s : Site) : Prop :=
  s.entry.isExternal = false ∧ s.entry.name = name

/-- The site refers to another one. -/
def Site.Refers (s : Site) : Prop := s.entry.isExternal = true

/-- No name is defined at two of the sites. -/
def UniqueNames (ss : List Site) : Prop :=
  ss.Pairwise fun s s' => ∀ name, s.Defines name → ¬ s'.Defines name

/-- Signatures that have one length and agree wherever both types are known. -/
def SignaturesAgree (xs ys : List ValueType) : Prop :=
  List.Forall₂ (fun x y => x = y ∨ x = .unknown ∨ y = .unknown) xs ys

/-- If the site refers to another one, that is among the given ones and has a signature that
agrees. -/
def Site.Resolvable (ss : List Site) (r : Site) : Prop :=
  r.Refers → ∃ s ∈ ss, s.Defines r.entry.name ∧ SignaturesAgree r.entry.types s.entry.types

/-- The modules can be linked. -/
structure Linkable (ms : List Module) : Prop where
  nonempty : ms ≠ []
  unique : UniqueNames (sites ms)
  defined : ∀ r ∈ sites ms, r.Refers → ∃ s ∈ sites ms, s.Defines r.entry.name
  agree : ∀ r ∈ sites ms, r.Refers → ∀ s ∈ sites ms, s.Defines r.entry.name →
    SignaturesAgree r.entry.types s.entry.types

/-- Why modules cannot be linked. A definition is at fault if it is the first one whose name is
already defined. If there is none, a reference is at fault if it is the first one that cannot be
resolved. -/
inductive LinkFails (ms : List Module) : LinkError → Prop
  | noModules (empty : ms = []) : LinkFails ms .noModules
  | duplicate {before after : List Site} {first s : Site} (split : sites ms = before ++ s :: after)
    (unique : UniqueNames before) (mem : first ∈ before) (defines : first.Defines s.entry.name)
    (again : s.Defines s.entry.name) :
    LinkFails ms (.duplicateDefinition s.entry.name first.module s.module)
  | unresolved {before after : List Site} {r : Site} (unique : UniqueNames (sites ms))
    (split : sites ms = before ++ r :: after)
    (earlier : ∀ r' ∈ before, r'.Resolvable (sites ms)) (refers : r.Refers)
    (undefined : ∀ s ∈ sites ms, ¬ s.Defines r.entry.name) :
    LinkFails ms (.unresolvedSymbol r.entry.name r.module)
  | mismatch {before after : List Site} {r s : Site} (unique : UniqueNames (sites ms))
    (split : sites ms = before ++ r :: after)
    (earlier : ∀ r' ∈ before, r'.Resolvable (sites ms)) (refers : r.Refers)
    (mem : s ∈ sites ms) (defines : s.Defines r.entry.name)
    (disagree : ¬ SignaturesAgree r.entry.types s.entry.types) :
    LinkFails ms (.signatureMismatch r.entry.name r.module s.entry.types r.entry.types)

/-- With unique names, a name has one definition. -/
theorem UniqueNames.eq_of_defines {ss : List Site} (h : UniqueNames ss) {s s' : Site}
    (hs : s ∈ ss) (hs' : s' ∈ ss) {name : String} (defines : s.Defines name)
    (defines' : s'.Defines name) : s = s' := by
  by_contra other
  have : Std.Symm fun s s' : Site => ∀ name, s.Defines name → ¬ s'.Defines name :=
    ⟨fun s s' h name hs' hs => h name hs hs'⟩
  exact List.Pairwise.forall h hs hs' other name defines defines'

theorem typesAgree_iff {xs ys : List ValueType} :
    typesAgree xs ys = true ↔ SignaturesAgree xs ys := by
  have compatible (x y : ValueType) :
      x.compatible y = true ↔ x = y ∨ x = .unknown ∨ y = .unknown := by
    cases x <;> cases y <;> decide
  rw [typesAgree, SignaturesAgree, List.forall₂_iff_zip, Bool.and_eq_true, beq_iff_eq,
    List.all_eq_true]
  simp only [compatible, Prod.forall]

/-! ## The first error of a list -/

/-- Folding fails at the first item whose step does. -/
theorem foldlM_eq_error_iff {ε α β : Type} {f : β → α → Except ε β} {b : β} {xs : List α}
    {e : ε} : xs.foldlM f b = .error e ↔ ∃ before x after, xs = before ++ x :: after ∧
      ∃ b', before.foldlM f b = .ok b' ∧ f b' x = .error e := by
  constructor
  · intro h
    induction xs generalizing b with
    | nil => cases h
    | cons x xs ih =>
      rw [List.foldlM_cons] at h
      cases hx : f b x with
      | error e' =>
        rw [hx] at h
        cases h
        exact ⟨[], x, xs, rfl, b, rfl, hx⟩
      | ok b₁ =>
        rw [hx] at h
        obtain ⟨before, y, after, rfl, b', run, failed⟩ := ih h
        refine ⟨x :: before, y, after, rfl, b', ?_, failed⟩
        rw [List.foldlM_cons, hx]
        exact run
  · rintro ⟨before, x, after, rfl, b', run, failed⟩
    rw [List.foldlM_append, run]
    show ((x :: after).foldlM f b') = .error e
    rw [List.foldlM_cons, failed]
    rfl

theorem foldlM_singleton {ε α β : Type} (f : β → α → Except ε β) (b : β) (x : α) :
    [x].foldlM f b = f b x := by
  rw [List.foldlM_cons]
  cases f b x <;> rfl

/-! ## Definitions -/

namespace Row

def site (r : Row) : Site := ⟨r.module.name, r.entry⟩

/-- Add the definition that the row is, if it is one, to those that are known. -/
def collect (known : List Known) (r : Row) : Except LinkError (List Known) :=
  match r.known? with
  | none => .ok known
  | some d =>
    match findKnown known r.entry.name with
    | some first => .error (.duplicateDefinition r.entry.name first.moduleName r.module.name)
    | none => .ok (d :: known)

/-- The definitions among rows, the last one first. -/
def knowns (rows : List Row) : List Known := (rows.filterMap known?).reverse

end Row

theorem collectEntries_eq_foldlM (index : Nat) (m : Module) (known : List Known)
    (fs : List FunctionEntry) :
    collectEntries index m known fs = (fs.map (Row.mk index m)).foldlM Row.collect known := by
  induction fs generalizing known with
  | nil => rfl
  | cons f fs ih =>
    rw [List.map_cons, List.foldlM_cons, collectEntries, Row.collect, Row.known?]
    cases f.address with
    | none => exact ih known
    | some address =>
      cases findKnown known f.name with
      | some first => rfl
      | none => exact ih _

/-- The definitions of modules at their places are collected row by row. -/
theorem collect_eq_foldlM {index : Nat} {o : Offsets} {known : List Known} {ms : List Module}
    (hms : placeFrom o ms = ms) :
    collect index o known ms = (rowsFrom index ms).foldlM Row.collect known := by
  induction ms generalizing index o known with
  | nil => rfl
  | cons m ms ih =>
    rw [placeFrom, List.cons.injEq] at hms
    obtain ⟨head, tail⟩ := hms
    have offsets : m.offsets = o := by rw [← head]; rfl
    rw [collect, if_pos offsets, collectEntries_eq_foldlM, rowsFrom, List.foldlM_append,
      ← Module.rows]
    cases (m.rows index).foldlM Row.collect known with
    | error e => rfl
    | ok known' => exact ih tail

namespace Row

theorem refers_iff {r : Row} : r.site.Refers ↔ r.known? = none := by
  simp [site, Site.Refers, known?, FunctionEntry.isExternal]

theorem defines_iff {r : Row} {name : String} :
    r.site.Defines name ↔ ∃ d, r.known? = some d ∧ d.function.name = name := by
  constructor
  · rintro ⟨defined, rfl⟩
    obtain ⟨address, ha⟩ : ∃ address, r.entry.address = some address := by
      simpa [site, FunctionEntry.isExternal, Option.isSome_iff_exists] using defined
    exact ⟨_, by rw [known?, ha]; rfl, rfl⟩
  · rintro ⟨d, hd, rfl⟩
    obtain ⟨address, ha, rfl⟩ := Option.map_eq_some_iff.1 hd
    exact ⟨by simp [site, FunctionEntry.isExternal, ha], rfl⟩

/-- What is known of a definition is what its site shows. -/
theorem known?_shows {r : Row} {d : Known} (h : r.known? = some d) :
    r.site.Defines r.entry.name ∧ d.moduleName = r.site.module ∧
      d.function.types = r.site.entry.types := by
  obtain ⟨address, ha, rfl⟩ := Option.map_eq_some_iff.1 h
  exact ⟨⟨by simp [site, FunctionEntry.isExternal, ha], rfl⟩, rfl, rfl⟩

theorem findKnown_eq_none_iff {rows : List Row} {name : String} :
    findKnown (knowns rows) name = none ↔ ∀ s ∈ rows.map site, ¬ s.Defines name := by
  rw [findKnown_eq_none, List.forall_mem_map]
  simp only [knowns, List.mem_map, List.mem_reverse, List.mem_filterMap, defines_iff]
  grind

theorem findKnown_eq_some {rows : List Row} {name : String} {d : Known}
    (h : findKnown (knowns rows) name = some d) :
    ∃ s ∈ rows.map site, s.Defines name ∧ s.module = d.moduleName ∧
      s.entry.types = d.function.types := by
  obtain ⟨mem, name_eq⟩ := RegLisp.findKnown_eq_some h
  rw [knowns, List.mem_reverse, List.mem_filterMap] at mem
  obtain ⟨r, hr, hd⟩ := mem
  obtain ⟨-, moduleName, types⟩ := known?_shows hd
  exact ⟨r.site, List.mem_map_of_mem hr, defines_iff.2 ⟨d, hd, name_eq⟩, moduleName.symm,
    types.symm⟩

/-- A row is collected if it does not define again what a row before it does. -/
theorem collect_eq_ok_iff {rows : List Row} {r : Row} {known : List Known} :
    collect (knowns rows) r = .ok known ↔
      (∀ s ∈ rows.map site, ∀ name, s.Defines name → ¬ r.site.Defines name) ∧
        known = knowns (rows ++ [r]) := by
  unfold collect
  cases hr : r.known? with
  | none =>
    have same : knowns (rows ++ [r]) = knowns rows := by simp [knowns, hr]
    have refers : ∀ name, ¬ r.site.Defines name := by simp [defines_iff, hr]
    simp [same, refers, eq_comm]
  | some d =>
    have next : knowns (rows ++ [r]) = d :: knowns rows := by simp [knowns, hr]
    obtain ⟨defines, -, -⟩ := known?_shows hr
    cases hf : findKnown (knowns rows) r.entry.name with
    | some first =>
      obtain ⟨s, mem, again, -, -⟩ := findKnown_eq_some hf
      constructor
      · intro h
        cases h
      · rintro ⟨fresh, -⟩
        exact absurd defines (fresh s mem _ again)
    | none =>
      have fresh : ∀ s ∈ rows.map site, ∀ name, s.Defines name → ¬ r.site.Defines name := by
        rintro s mem name hs ⟨-, rfl⟩
        exact findKnown_eq_none_iff.1 hf s mem hs
      rw [next, and_iff_right fresh]
      simp [eq_comm]

/-- A definition that cannot be collected is one of a name that is already defined. -/
theorem collect_eq_error_iff {rows : List Row} (unique : UniqueNames (rows.map site)) {r : Row}
    {e : LinkError} :
    collect (knowns rows) r = .error e ↔ r.site.Defines r.entry.name ∧
      ∃ first ∈ rows.map site, first.Defines r.entry.name ∧
        e = .duplicateDefinition r.entry.name first.module r.site.module := by
  unfold collect
  cases hr : r.known? with
  | none =>
    have refers : ¬ r.site.Defines r.entry.name := by simp [defines_iff, hr]
    simp [refers]
  | some d =>
    obtain ⟨defines, -, -⟩ := known?_shows hr
    cases hf : findKnown (knowns rows) r.entry.name with
    | none =>
      have fresh := findKnown_eq_none_iff.1 hf
      simp only [reduceCtorEq, false_iff]
      rintro ⟨-, first, mem, again, -⟩
      exact fresh first mem again
    | some d' =>
      obtain ⟨s, mem, again, moduleName, -⟩ := findKnown_eq_some hf
      constructor
      · intro h
        cases h
        exact ⟨defines, s, mem, again, by rw [moduleName]; rfl⟩
      · rintro ⟨-, first, mem', again', rfl⟩
        rw [unique.eq_of_defines mem' mem again' again, moduleName]
        rfl

/-- Rows are collected if no name is defined twice. -/
theorem foldlM_collect_eq_ok_iff {rows : List Row} {known : List Known} :
    rows.foldlM collect [] = .ok known ↔
      UniqueNames (rows.map site) ∧ known = knowns rows := by
  -- the last row is collected when all rows before it are, so the induction is from the end
  induction rows using List.reverseRecOn generalizing known with
  | nil => simp [UniqueNames, knowns, pure, Except.pure, eq_comm]
  | append_singleton rows r ih =>
    have unique_iff : UniqueNames ((rows ++ [r]).map site) ↔ UniqueNames (rows.map site) ∧
        ∀ s ∈ rows.map site, ∀ name, s.Defines name → ¬ r.site.Defines name := by
      simp [UniqueNames, List.pairwise_append]
    rw [List.foldlM_append, except_bind_eq_ok, unique_iff]
    constructor
    · rintro ⟨known', before, last⟩
      obtain ⟨unique, rfl⟩ := ih.1 before
      obtain ⟨fresh, rfl⟩ := collect_eq_ok_iff.1 ((foldlM_singleton ..).symm.trans last)
      exact ⟨⟨unique, fresh⟩, rfl⟩
    · rintro ⟨⟨unique, fresh⟩, rfl⟩
      refine ⟨_, ih.2 ⟨unique, rfl⟩, ?_⟩
      rw [foldlM_singleton]
      exact collect_eq_ok_iff.2 ⟨fresh, rfl⟩

/-- What the site of a row shows of how it is resolved. -/
inductive Resolution (ss : List Site) (r : Site) : Except LinkError LinkedFunction → Prop
  | own {f : LinkedFunction} (defined : ¬ r.Refers) : Resolution ss r (.ok f)
  | undefined (refers : r.Refers) (none : ∀ s ∈ ss, ¬ s.Defines r.entry.name) :
    Resolution ss r (.error (.unresolvedSymbol r.entry.name r.module))
  | found {s : Site} {f : LinkedFunction} (refers : r.Refers) (mem : s ∈ ss)
    (defines : s.Defines r.entry.name) (agree : SignaturesAgree r.entry.types s.entry.types) :
    Resolution ss r (.ok f)
  | mismatch {s : Site} (refers : r.Refers) (mem : s ∈ ss) (defines : s.Defines r.entry.name)
    (disagree : ¬ SignaturesAgree r.entry.types s.entry.types) :
    Resolution ss r (.error (.signatureMismatch r.entry.name r.module s.entry.types r.entry.types))

theorem resolution (rows : List Row) (r : Row) :
    Resolution (rows.map site) r.site (r.resolve (knowns rows)) := by
  cases hr : r.known? with
  | some d =>
    rw [resolve_of_known? hr]
    exact .own (by simp [refers_iff, hr])
  | none =>
    have external : r.entry.address = none := by simpa [known?] using hr
    have refers : r.site.Refers := refers_iff.2 hr
    simp only [resolve, RegLisp.resolve, external]
    cases hf : findKnown (knowns rows) r.entry.name with
    | none => exact .undefined refers (findKnown_eq_none_iff.1 hf)
    | some d =>
      obtain ⟨s, mem, defines, -, types⟩ := findKnown_eq_some hf
      simp only [← types]
      split
      · rename_i agree
        exact .found refers mem defines (typesAgree_iff.1 agree)
      · rename_i disagree
        exact .mismatch refers mem defines (mt typesAgree_iff.2 disagree)

/-- A row can be resolved if it is a definition, or refers to one that agrees with it. -/
theorem exists_resolve_eq_ok_iff {rows : List Row} (unique : UniqueNames (rows.map site))
    {r : Row} : (∃ f, r.resolve (knowns rows) = .ok f) ↔ r.site.Resolvable (rows.map site) := by
  have outcome := resolution rows r
  generalize r.resolve (knowns rows) = result at outcome
  cases outcome with
  | own defined => simp [Site.Resolvable, defined]
  | undefined refers none =>
    constructor
    · rintro ⟨f, hf⟩
      cases hf
    · intro resolvable
      obtain ⟨s, mem, defines, -⟩ := resolvable refers
      exact absurd defines (none s mem)
  | found refers mem defines agree => exact ⟨fun _ _ => ⟨_, mem, defines, agree⟩, fun _ => ⟨_, rfl⟩⟩
  | mismatch refers mem defines disagree =>
    constructor
    · rintro ⟨f, hf⟩
      cases hf
    · intro resolvable
      obtain ⟨s, mem', defines', agree⟩ := resolvable refers
      rw [unique.eq_of_defines mem' mem defines' defines] at agree
      exact absurd agree disagree

/-- A reference to a name that is not defined cannot be resolved. -/
theorem resolve_of_undefined {rows : List Row} {r : Row} (refers : r.site.Refers)
    (none : ∀ s ∈ rows.map site, ¬ s.Defines r.site.entry.name) :
    r.resolve (knowns rows) = .error (.unresolvedSymbol r.site.entry.name r.site.module) := by
  have outcome := resolution rows r
  generalize r.resolve (knowns rows) = result at outcome
  cases outcome with
  | own defined => exact absurd refers defined
  | undefined => rfl
  | found _ mem defines => exact absurd defines (none _ mem)
  | mismatch _ mem defines => exact absurd defines (none _ mem)

/-- A reference that disagrees with its definition cannot be resolved. -/
theorem resolve_of_mismatch {rows : List Row} (unique : UniqueNames (rows.map site)) {r : Row}
    (refers : r.site.Refers) {s : Site} (mem : s ∈ rows.map site)
    (defines : s.Defines r.site.entry.name)
    (disagree : ¬ SignaturesAgree r.site.entry.types s.entry.types) :
    r.resolve (knowns rows) = .error (.signatureMismatch r.site.entry.name r.site.module
      s.entry.types r.site.entry.types) := by
  have outcome := resolution rows r
  generalize r.resolve (knowns rows) = result at outcome
  cases outcome with
  | own defined => exact absurd refers defined
  | undefined _ none => exact absurd defines (none s mem)
  | found _ mem' defines' agree =>
    rw [unique.eq_of_defines mem' mem defines' defines] at agree
    exact absurd agree disagree
  | mismatch _ mem' defines' => rw [unique.eq_of_defines mem' mem defines' defines]

end Row

/-! ## Linking -/

/-- The rows of modules that are placed one behind the other. -/
def placedRows (ms : List Module) : List Row := rowsFrom 0 (assignOffsets ms)

theorem map_site_rowsFrom (index : Nat) (o : Offsets) (ms : List Module) :
    (rowsFrom index (placeFrom o ms)).map Row.site = sites ms := by
  induction ms generalizing index o with
  | nil => rfl
  | cons m ms ih =>
    have head : ((m.withOffsets o).rows index).map Row.site =
        m.functions.toList.map (Site.mk m.name) := by
      rw [Module.rows, List.map_map]
      rfl
    rw [placeFrom, rowsFrom, List.map_append, ih, head]
    rfl

theorem map_site_placedRows (ms : List Module) : (placedRows ms).map Row.site = sites ms :=
  map_site_rowsFrom 0 {} ms

theorem placeFrom_placeFrom (o : Offsets) (ms : List Module) :
    placeFrom o (placeFrom o ms) = placeFrom o ms := by
  induction ms generalizing o with
  | nil => rfl
  | cons m ms ih =>
    have after : o.after (m.withOffsets o) = o.after m := rfl
    rw [placeFrom, placeFrom, after, ih]
    rfl

/-- Linking modules at their places collects and then resolves their rows. -/
theorem Image.link_assignOffsets {ms : List Module} (nonempty : ms ≠ []) :
    Image.link (assignOffsets ms) =
      (placedRows ms).foldlM Row.collect [] >>= fun known =>
        ((placedRows ms).mapM (Row.resolve known)).map fun fs =>
          { functions := fs.toArray
            constants := (assignOffsets ms).foldl (fun words m => words ++ m.constants) #[]
            code := (assignOffsets ms).foldl (fun code m => code ++ m.code) #[]
            modules := ((assignOffsets ms).map Module.span).toArray } := by
  have nonempty' : (assignOffsets ms).isEmpty = false := by
    cases ms with
    | nil => exact absurd rfl nonempty
    | cons m ms => rfl
  unfold Image.link placedRows
  have placed : placeFrom {} (assignOffsets ms) = assignOffsets ms := placeFrom_placeFrom {} ms
  rw [nonempty', collect_eq_foldlM placed]
  cases (rowsFrom 0 (assignOffsets ms)).foldlM Row.collect [] with
  | error e => rfl
  | ok known =>
    simp only [resolveAll_eq_mapM, bind, Except.bind]
    cases (rowsFrom 0 (assignOffsets ms)).mapM (Row.resolve known) with
    | error e => rfl
    | ok fs => simp [Except.map]

/-- Modules whose rows are split at one of them have their sites split there. -/
theorem sites_split {ms : List Module} {before after : List Row} {r : Row}
    (split : placedRows ms = before ++ r :: after) :
    sites ms = before.map Row.site ++ r.site :: after.map Row.site := by
  rw [← map_site_placedRows, split, List.map_append, List.map_cons]

theorem exists_rows_split {ms : List Module} {before after : List Site} {s : Site}
    (split : sites ms = before ++ s :: after) :
    ∃ rows r rows', placedRows ms = rows ++ r :: rows' ∧ rows.map Row.site = before ∧
      r.site = s := by
  rw [← map_site_placedRows, List.map_eq_append_iff] at split
  obtain ⟨rows, rest, rows_eq, before_eq, rest_eq⟩ := split
  obtain ⟨r, rows', rfl, site_eq, -⟩ := List.map_eq_cons_iff.1 rest_eq
  exact ⟨rows, r, rows', rows_eq, before_eq, site_eq⟩

/-- With unique names, all rows can be resolved if what their sites refer to is there. -/
theorem forall_resolve_iff {ms : List Module} (unique : UniqueNames (sites ms)) :
    (∀ r ∈ placedRows ms, ∃ f, r.resolve (Row.knowns (placedRows ms)) = .ok f) ↔
      ∀ r ∈ sites ms, r.Resolvable (sites ms) := by
  rw [← map_site_placedRows] at unique ⊢
  rw [List.forall_mem_map]
  simp only [Row.exists_resolve_eq_ok_iff unique]

theorem linkable_iff {ms : List Module} :
    Linkable ms ↔ ms ≠ [] ∧ UniqueNames (sites ms) ∧ ∀ r ∈ sites ms, r.Resolvable (sites ms) := by
  constructor
  · rintro ⟨nonempty, unique, defined, agree⟩
    refine ⟨nonempty, unique, ?_⟩
    intro r mem refers
    obtain ⟨s, mem', defines⟩ := defined r mem refers
    exact ⟨s, mem', defines, agree r mem refers s mem' defines⟩
  · rintro ⟨nonempty, unique, resolvable⟩
    refine ⟨nonempty, unique, ?_, ?_⟩
    · intro r mem refers
      obtain ⟨s, mem', defines, -⟩ := resolvable r mem refers
      exact ⟨s, mem', defines⟩
    · intro r mem refers s mem' defines
      obtain ⟨s', mem'', defines', agree⟩ := resolvable r mem refers
      rwa [unique.eq_of_defines mem' mem'' defines defines']

/-- Modules are linked if they can be. -/
theorem Image.exists_link_eq_ok_iff {ms : List Module} :
    (∃ img, Image.link (assignOffsets ms) = .ok img) ↔ Linkable ms := by
  rw [linkable_iff]
  constructor
  · rintro ⟨img, h⟩
    have nonempty : ms ≠ [] := by
      rintro rfl
      cases h
    rw [link_assignOffsets nonempty, except_bind_eq_ok] at h
    obtain ⟨known, collected, h⟩ := h
    obtain ⟨unique, rfl⟩ := Row.foldlM_collect_eq_ok_iff.1 collected
    rw [map_site_placedRows] at unique
    refine ⟨nonempty, unique, ?_⟩
    rw [← forall_resolve_iff unique, ← exists_mapM_eq_ok_iff]
    cases resolved : (placedRows ms).mapM (Row.resolve (Row.knowns (placedRows ms))) with
    | error e =>
      rw [resolved] at h
      cases h
    | ok fs => exact ⟨fs, rfl⟩
  · rintro ⟨nonempty, unique, resolvable⟩
    rw [← forall_resolve_iff unique, ← exists_mapM_eq_ok_iff] at resolvable
    obtain ⟨fs, resolved⟩ := resolvable
    have collected : (placedRows ms).foldlM Row.collect [] = .ok (Row.knowns (placedRows ms)) :=
      Row.foldlM_collect_eq_ok_iff.2 ⟨by rwa [map_site_placedRows], rfl⟩
    rw [link_assignOffsets nonempty, collected]
    simp only [bind, Except.bind, resolved]
    exact ⟨_, rfl⟩

/-- A definition cannot be collected if it is the first one of a name that is already defined. -/
theorem foldlM_collect_eq_error_iff {ms : List Module} {e : LinkError} :
    (placedRows ms).foldlM Row.collect [] = .error e ↔ ∃ before first s after,
      sites ms = before ++ s :: after ∧ UniqueNames before ∧ first ∈ before ∧
        first.Defines s.entry.name ∧ s.Defines s.entry.name ∧
          e = .duplicateDefinition s.entry.name first.module s.module := by
  rw [foldlM_eq_error_iff]
  constructor
  · rintro ⟨before, r, after, split, known, collected, failed⟩
    obtain ⟨unique, rfl⟩ := Row.foldlM_collect_eq_ok_iff.1 collected
    obtain ⟨again, first, mem, defines, rfl⟩ := (Row.collect_eq_error_iff unique).1 failed
    exact ⟨_, first, r.site, _, sites_split split, unique, mem, defines, again, rfl⟩
  · rintro ⟨_, first, _, after, split, unique, mem, defines, again, rfl⟩
    obtain ⟨rows, r, rows', rows_split, rfl, rfl⟩ := exists_rows_split split
    refine ⟨rows, r, rows', rows_split, _, Row.foldlM_collect_eq_ok_iff.2 ⟨unique, rfl⟩, ?_⟩
    exact (Row.collect_eq_error_iff unique).2 ⟨again, first, mem, defines, rfl⟩

/-- With unique names, modules are not linked because of the first reference that cannot be
resolved. -/
theorem Image.link_eq_error_of_resolve {ms : List Module} {e : LinkError} {rows rows' : List Row}
    {r : Row} (unique : UniqueNames (sites ms)) (split : placedRows ms = rows ++ r :: rows')
    (earlier : ∀ s ∈ rows.map Row.site, s.Resolvable (sites ms))
    (failed : r.resolve (Row.knowns (placedRows ms)) = .error e) :
    Image.link (assignOffsets ms) = .error e := by
  have nonempty : ms ≠ [] := by
    rintro rfl
    simp [placedRows, assignOffsets, placeFrom, rowsFrom] at split
  rw [← map_site_placedRows] at unique earlier
  have resolved : (placedRows ms).mapM (Row.resolve (Row.knowns (placedRows ms))) = .error e := by
    refine mapM_eq_error_iff.2 ⟨rows, r, rows', split, ?_, failed⟩
    intro r' mem
    exact (Row.exists_resolve_eq_ok_iff unique).2 (earlier _ (List.mem_map_of_mem mem))
  rw [link_assignOffsets nonempty, Row.foldlM_collect_eq_ok_iff.2 ⟨unique, rfl⟩]
  simp only [bind, Except.bind, resolved]
  rfl

/-- Modules that are not linked cannot be, for the reason that is given. -/
theorem LinkFails.of_link {ms : List Module} {e : LinkError}
    (h : Image.link (assignOffsets ms) = .error e) : LinkFails ms e := by
  by_cases nonempty : ms = []
  · subst nonempty
    cases h
    exact .noModules rfl
  rw [Image.link_assignOffsets nonempty] at h
  cases collected : (placedRows ms).foldlM Row.collect [] with
  | error e' =>
    rw [collected] at h
    cases h
    obtain ⟨before, first, s, after, split, unique, mem, defines, again, rfl⟩ :=
      foldlM_collect_eq_error_iff.1 collected
    exact .duplicate split unique mem defines again
  | ok known =>
    obtain ⟨unique, rfl⟩ := Row.foldlM_collect_eq_ok_iff.1 collected
    rw [collected] at h
    simp only [bind, Except.bind] at h
    cases resolved : (placedRows ms).mapM (Row.resolve (Row.knowns (placedRows ms))) with
    | ok fs =>
      rw [resolved] at h
      cases h
    | error e' =>
      rw [resolved] at h
      cases h
      obtain ⟨before, r, after, split, fine, failed⟩ := mapM_eq_error_iff.1 resolved
      have earlier : ∀ s ∈ before.map Row.site, s.Resolvable (sites ms) := by
        rw [List.forall_mem_map, ← map_site_placedRows]
        exact fun r' mem => (Row.exists_resolve_eq_ok_iff unique).1 (fine r' mem)
      have outcome := Row.resolution (placedRows ms) r
      rw [failed, map_site_placedRows] at outcome
      rw [map_site_placedRows] at unique
      cases outcome with
      | undefined refers none => exact .unresolved unique (sites_split split) earlier refers none
      | mismatch refers mem defines disagree =>
        exact .mismatch unique (sites_split split) earlier refers mem defines disagree

/-- Modules that cannot be linked are not, and the reason is given. -/
theorem LinkFails.link_eq {ms : List Module} {e : LinkError} (h : LinkFails ms e) :
    Image.link (assignOffsets ms) = .error e := by
  cases h with
  | noModules empty =>
    subst empty
    rfl
  | duplicate split unique mem defines again =>
    have nonempty : ms ≠ [] := by
      rintro rfl
      simp [sites] at split
    have collected := foldlM_collect_eq_error_iff.2
      ⟨_, _, _, _, split, unique, mem, defines, again, rfl⟩
    rw [Image.link_assignOffsets nonempty, collected]
    rfl
  | unresolved unique split earlier refers none =>
    obtain ⟨rows, r, rows', rows_split, rfl, rfl⟩ := exists_rows_split split
    apply Image.link_eq_error_of_resolve unique rows_split earlier
    rw [← map_site_placedRows] at none
    exact Row.resolve_of_undefined refers none
  | mismatch unique split earlier refers mem defines disagree =>
    obtain ⟨rows, r, rows', rows_split, rfl, rfl⟩ := exists_rows_split split
    apply Image.link_eq_error_of_resolve unique rows_split earlier
    rw [← map_site_placedRows] at unique mem
    exact Row.resolve_of_mismatch unique refers mem defines disagree

/-- Whatever a linker has been used for before, it links the modules that can be linked, and only
these. It refuses all others with the first reason there is. -/
theorem Linker.link_exact (l : Linker) (ms : List Module) :
    ((∃ img, (l.link (assignOffsets ms)).1 = .ok img) ↔ Linkable ms) ∧
      ∀ e, (l.link (assignOffsets ms)).1 = .error e ↔ LinkFails ms e := by
  rw [link_fst_eq]
  refine ⟨Image.exists_link_eq_ok_iff, ?_⟩
  intro e
  exact ⟨LinkFails.of_link, LinkFails.link_eq⟩

end RegLisp
