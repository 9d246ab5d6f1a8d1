import RegLisp.Machine.Step
import RegLisp.Proofs.GenerationPasses
import RegLisp.Proofs.InstructionForms
import RegLisp.Proofs.LinkerRounds
import RegLisp.Proofs.ReturnPosition

/-!
# Linked programs

Source texts that compile and whose modules link to an image. Inside the image, every module finds
its own instructions and constants, and each of its calls goes to the start of the one definition
with the name of the callee.
-/

namespace RegLisp

/-- A source text that compiles, with its program and the module that its file holds. -/
structure Source where
  name : String
  text : String
  program : Program
  module : Module
  parse_eq : Program.parse text = .ok program
  reload_eq : ∃ unit, compileSource name text = .ok unit ∧ unit.toModule = .ok module

namespace Source

/-- Compile a text and read its file back. -/
def ofText? (name text : String) : Option Source :=
  match parse_eq : Program.parse text, compile_eq : compileSource name text with
  | .ok program, .ok unit =>
    match load_eq : unit.toModule with
    | .ok module => some ⟨name, text, program, module, parse_eq, unit, compile_eq, load_eq⟩
    | .error _ => none
  | _, _ => none

variable (s : Source)

theorem nonempty_compiled : Nonempty (Compiled s.program s.module) := by
  obtain ⟨unit, compiled, loaded⟩ := s.reload_eq
  rw [compileSource, s.parse_eq] at compiled
  exact Program.compiled compiled loaded

/-- What the module has of the program. -/
noncomputable def compiled : Compiled s.program s.module := s.nonempty_compiled.some

theorem flagged : s.program.Flagged := Program.flagged_of_parse s.parse_eq

end Source

/-- The image is what linking the modules of the sources gives, and each of its addresses is a
word. -/
structure Linked (sources : List Source) (img : Image) : Prop where
  link_eq : linkModules (sources.map Source.module) = .ok img
  words : img.code.size ≤ UInt64.size

/-- Compile texts, each with the name of its module, and link them. -/
def linkTexts? (texts : List (String × String)) : Option (List Source × Image) := do
  let sources ← texts.mapM fun text => Source.ofText? text.1 text.2
  let img ← (linkModules (sources.map Source.module)).toOption
  return (sources, img)

theorem linked_of_linkTexts? {texts : List (String × String)} {sources : List Source}
    {img : Image} (h : linkTexts? texts = some (sources, img))
    (words : img.code.size ≤ UInt64.size) : Linked sources img := by
  refine ⟨?_, words⟩
  simp only [linkTexts?, Option.bind_eq_bind, Option.bind_eq_some_iff] at h
  obtain ⟨sources', -, img', linked, heq⟩ := h
  cases heq
  cases link : linkModules (sources.map Source.module) with
  | error e =>
    rw [link] at linked
    cases linked
  | ok img' =>
    rw [link] at linked
    cases linked
    rfl

/-- A definition of source number `d`, with its place in the module and its entry there. -/
structure Resides (sources : List Source) (d : Nat) (s : Source) (definition : Definition)
    (l : Laid) (g : FunctionEntry) : Prop where
  source_eq : sources[d]? = some s
  paired : (definition, l) ∈ s.program.definitions.zip s.compiled.laid
  entry_eq : s.module.functions[l.index]? = some g
  address_eq : g.address = some (.ofNat l.start)

namespace Compiled

variable {p : Program} {m : Module} (c : Compiled p m) {l : Laid}

theorem toNat_start (mem : l ∈ c.laid) : (UInt64.ofNat l.start).toNat = l.start := by
  obtain ⟨g, hg, ha, -⟩ := c.body_owned l mem
  obtain ⟨l', mem', index, start⟩ := c.laid_of_address l.index g _ hg ha
  obtain rfl := List.inj_on_of_nodup_map c.indices_nodup mem' mem index
  exact start

theorem exists_definition (mem : l ∈ c.laid) : ∃ d, (d, l) ∈ p.definitions.zip c.laid :=
  exists_mem_zip_right c.laid_placed.length_eq mem

/-- Each body is that of one definition. -/
theorem definition_eq {d d' : Definition} (h : (d, l) ∈ p.definitions.zip c.laid)
    (h' : (d', l) ∈ p.definitions.zip c.laid) : d = d' := by
  have nodup : ((p.definitions.zip c.laid).map fun x => x.2.index).Nodup := by
    have := c.indices_nodup
    rw [← List.map_snd_zip (Nat.le_of_eq c.laid_placed.length_eq.symm), List.map_map] at this
    exact this
  exact congrArg Prod.fst (List.inj_on_of_nodup_map nodup h h' rfl)

end Compiled

namespace Resides

variable {sources : List Source} {d : Nat} {s : Source} {definition : Definition} {l : Laid}
  {g : FunctionEntry}

theorem mem_laid (r : Resides sources d s definition l g) : l ∈ s.compiled.laid :=
  (List.of_mem_zip r.paired).2

theorem placed (r : Resides sources d s definition l g) :
    PlacedBody s.compiled.tables definition (l.index, l.term) :=
  List.forall₂_zip s.compiled.laid_placed r.paired

/-- The entry of a definition has its name and arity. -/
theorem entry_kept (r : Resides sources d s definition l g) :
    g.name = definition.name ∧ g.types.length = definition.params.length + 1 := by
  obtain ⟨f, hf, name_eq, arity_eq⟩ := r.placed.entered
  obtain ⟨g', hg', kept⟩ := s.compiled.function_kept _ _ hf
  obtain rfl : g = g' := Option.some.inj (r.entry_eq.symm.trans hg')
  exact ⟨kept.name_eq.trans name_eq, kept.arity_eq.trans arity_eq⟩

end Resides

namespace Linked

variable {sources : List Source} {img : Image} {j : Nat} {s : Source}

theorem image_eq (h : Linked sources img) :
    Image.link (assignOffsets (sources.map Source.module)) = .ok img := by
  rw [← linkModules_eq, h.link_eq]

theorem links (h : Linked sources img) : Links (assignOffsets (sources.map Source.module)) img :=
  Image.links_of_link h.image_eq

theorem getElem?_placed (hs : sources[j]? = some s) :
    ∃ o, (assignOffsets (sources.map Source.module))[j]? = some (s.module.withOffsets o) := by
  refine ⟨({} : Offsets).afterAll ((sources.map Source.module).take j), ?_⟩
  rw [assignOffsets, placeFrom_getElem?, List.getElem?_map, hs]
  rfl

/-- Placing modules keeps all but their offsets. -/
theorem getElem?_source {m : Module}
    (hm : (assignOffsets (sources.map Source.module))[j]? = some m) :
    ∃ s, sources[j]? = some s ∧ ∃ o, m = s.module.withOffsets o := by
  rw [assignOffsets, placeFrom_getElem?, List.getElem?_map, Option.map_map] at hm
  obtain ⟨s, hs, rfl⟩ := Option.map_eq_some_iff.1 hm
  exact ⟨s, hs, _, rfl⟩

theorem getElem?_code (h : Linked sources img) (hs : sources[j]? = some s) {a : Nat}
    {i : Instruction} (hi : s.module.code[a]? = some i) :
    img.code[img.codeOffset j + a]? = some i := by
  obtain ⟨o, hm⟩ := getElem?_placed hs
  have inside : a < s.module.code.size := (Array.getElem?_eq_some_iff.1 hi).1
  rw [h.links.codeOffset_eq hm, h.links.getElem?_code hm inside]
  exact hi

/-- The code of a section is in the image. -/
theorem fetch (h : Linked sources img) (hs : sources[j]? = some s) {owner : Option Nat}
    {start reservation : Nat} {code : List Instruction}
    (owned : s.module.Owns owner start code reservation) {k : Nat} {i : Instruction}
    (hk : code[k]? = some i) : img.code[img.codeOffset j + start + k]? = some i := by
  rw [Nat.add_assoc]
  exact h.getElem?_code hs (owned.fetch k i hk)

theorem stop_le (h : Linked sources img) (hs : sources[j]? = some s) {owner : Option Nat}
    {start reservation : Nat} {code : List Instruction}
    (owned : s.module.Owns owner start code reservation) (nonempty : code ≠ []) :
    img.codeOffset j + start + code.length ≤ img.code.size := by
  have pos := List.length_pos_of_ne_nil nonempty
  have last := h.fetch hs owned (List.getElem?_eq_getElem (show code.length - 1 < _ by omega))
  have lt := (Array.getElem?_eq_some_iff.1 last).1
  omega

theorem constant_eq (h : Linked sources img) (hs : sources[j]? = some s) (i : Nat) :
    img.constant j i = s.module.constants[i]? := by
  obtain ⟨o, hm⟩ := getElem?_placed hs
  exact h.links.constant_eq hm i

theorem getElem?_modules (h : Linked sources img) (hs : sources[j]? = some s) :
    ∃ span, img.modules[j]? = some span ∧ span.offsets.code = img.codeOffset j ∧
      span.instructionCount = s.module.code.size := by
  obtain ⟨o, hm⟩ := getElem?_placed hs
  exact ⟨_, h.links.getElem?_modules hm, (h.links.codeOffset_eq hm).symm, rfl⟩

theorem entry_eq (h : Linked sources img) (hs : sources[0]? = some s) :
    img.entry = (img.codeOffset 0, s.module.entryReservation) := by
  obtain ⟨o, hm⟩ := getElem?_placed hs
  rw [h.links.codeOffset_eq hm, Image.entry, h.links.getElem?_modules hm]
  rfl

theorem sum_take_add_le {α : Type} (f : α → Nat) {xs : List α} {j j' : Nat} (lt : j < j')
    {x : α} (hx : xs[j]? = some x) :
    ((xs.take j).map f).sum + f x ≤ ((xs.take j').map f).sum := by
  induction xs generalizing j j' with
  | nil => simp at hx
  | cons y ys ih =>
    cases j' with
    | zero => omega
    | succ j' =>
      cases j with
      | zero =>
        cases hx
        simp
      | succ j =>
        have := ih (Nat.lt_of_succ_lt_succ lt) hx
        simp only [List.take_succ_cons, List.map_cons, List.sum_cons]
        omega

/-- The code of a module ends before that of a later one starts. -/
theorem codeOffset_add_le (h : Linked sources img) {j' : Nat} {s' : Source}
    (hs : sources[j]? = some s) (hs' : sources[j']? = some s') (lt : j < j') :
    img.codeOffset j + s.module.code.size ≤ img.codeOffset j' := by
  obtain ⟨o, hm⟩ := getElem?_placed hs
  obtain ⟨o', hm'⟩ := getElem?_placed hs'
  have le := sum_take_add_le (·.code.size) lt hm
  rw [h.links.codeOffset_eq hm, h.links.codeOffset_eq hm', h.links.offsets_eq hm,
    h.links.offsets_eq hm', Offsets.afterAll_eq, Offsets.afterAll_eq]
  simpa [Module.withOffsets] using le

/-- There is a first source. -/
theorem exists_first (h : Linked sources img) : ∃ s, sources[0]? = some s := by
  cases sources with
  | nil =>
    have := h.image_eq
    simp [Image.link, assignOffsets, placeFrom] at this
  | cons s sources => exact ⟨s, rfl⟩

theorem isExternalAt_eq {fs : Array FunctionEntry} {i : Nat} {f : FunctionEntry}
    (hf : fs[i]? = some f) : isExternalAt fs i = f.isExternal := by
  rw [isExternalAt, hf]
  rfl

/-- A call goes to the start of a definition with the name of the callee, and with a parameter for
each argument. -/
theorem callee_eq (h : Linked sources img) (hs : sources[j]? = some s) {index : Nat}
    {f : FunctionEntry} (hf : s.compiled.tables.functions[index]? = some f) :
    ∃ d s' definition l g, Resides sources d s' definition l g ∧ definition.name = f.name ∧
      definition.params.length + 1 = f.types.length ∧
        ∀ (m : Machine) (op : Opcode), m.module = j →
          m.callee img (isExternalAt s.module.functions index)
              (Instruction.call op (.ofNat index)).callIndex =
            .ok ⟨img.codeOffset d + l.start, d, g.reservation⟩ := by
  obtain ⟨f', hf', kept⟩ := s.compiled.function_kept index f hf
  obtain ⟨o, hm⟩ := getElem?_placed hs
  obtain ⟨d, m', g, address, resolves, function_eq⟩ := h.links.function_eq hm hf'
  obtain ⟨s', hs', o', rfl⟩ := getElem?_source resolves.module_eq
  obtain ⟨i, hi⟩ := Array.mem_iff_getElem?.1 resolves.mem
  obtain ⟨l, mem, rfl, start⟩ := s'.compiled.laid_of_address i g address hi resolves.address_eq
  obtain ⟨definition, paired⟩ := s'.compiled.exists_definition mem
  have address_eq : address = .ofNat l.start := by
    apply UInt64.toNat_inj.1
    rw [start, s'.compiled.toNat_start mem]
  subst address_eq
  have resides : Resides sources d s' definition l g := ⟨hs', paired, hi, resolves.address_eq⟩
  obtain ⟨name_eq, arity_eq⟩ := resides.entry_kept
  refine ⟨d, s', definition, l, g, resides, ?_, ?_, ?_⟩
  · rw [← name_eq, resolves.name_eq, kept.name_eq]
  · rw [← arity_eq, resolves.arity_eq, kept.arity_eq]
  · intro m op module_eq
    subst module_eq
    have lt := (Array.getElem?_eq_some_iff.1 hf).1
    have le := s.compiled.valid.functions_le
    rw [Instruction.callIndex_call op (by omega), Machine.callee, function_eq,
      isExternalAt_eq hf', h.links.codeOffset_eq resolves.module_eq]
    simp only [resolved, FunctionEntry.linked, start]
    cases external : f'.isExternal with
    | true => rfl
    | false =>
      obtain ⟨rfl, -⟩ := resolves.own external
      rfl

/-- The constant that an instruction reads in module number `j`. -/
theorem constant_eq_ok (h : Linked sources img) (hs : sources[j]? = some s) {m : Machine}
    (hm : m.module = j) {op : Opcode} {r : UInt8} {slot : Nat} {word : UInt64}
    (hw : s.module.constants[slot]? = some word) :
    m.constant img (Instruction.const op r (.ofNat slot)).constIndex = .ok word := by
  have lt : slot < s.module.constants.size := (Array.getElem?_eq_some_iff.1 hw).1
  have le := s.compiled.constants_le
  have small : slot < UInt16.size := by
    unfold UInt16.size
    omega
  rw [Instruction.constIndex_const op r small, Machine.constant, hm, h.constant_eq hs, hw]

/-- The address that a jump of module number `j` goes to. -/
theorem jumpTarget_eq_ok (h : Linked sources img) (hs : sources[j]? = some s) {m : Machine}
    (hm : m.module = j) {op : Opcode} {r : UInt8} {slot target : Nat}
    (hw : s.module.constants[slot]? = some (.ofNat target))
    (word : img.codeOffset j + target < UInt64.size) :
    m.jumpTarget img (Instruction.const op r (.ofNat slot)).constIndex =
      .ok (img.codeOffset j + target) := by
  have toNat : (UInt64.ofNat target).toNat = target :=
    UInt64.toNat_ofNat_of_lt' (by omega)
  simp only [Machine.jumpTarget, h.constant_eq_ok hs hm hw, toNat, hm,
    Nat.add_comm target (img.codeOffset j), if_pos word]

/-- Each name has one definition. -/
theorem definition_unique (h : Linked sources img) {d d' : Nat} {s s' : Source}
    {definition definition' : Definition} {l l' : Laid} {g g' : FunctionEntry}
    (r : Resides sources d s definition l g) (r' : Resides sources d' s' definition' l' g')
    (name_eq : definition.name = definition'.name) : definition = definition' := by
  obtain ⟨o, hm⟩ := getElem?_placed r.source_eq
  obtain ⟨o', hm'⟩ := getElem?_placed r'.source_eq
  have names : g.name = g'.name := by
    rw [r.entry_kept.1, r'.entry_kept.1, name_eq]
  obtain ⟨rfl, address⟩ := h.links.definition_unique hm hm' (Array.mem_of_getElem? r.entry_eq)
    (Array.mem_of_getElem? r'.entry_eq) r.address_eq r'.address_eq names
  obtain rfl : s = s' := Option.some.inj (r.source_eq.symm.trans r'.source_eq)
  have start : l.start = l'.start := by
    rw [← s.compiled.toNat_start r.mem_laid, ← s.compiled.toNat_start r'.mem_laid, address]
  obtain rfl := s.compiled.start_injective l r.mem_laid l' r'.mem_laid start
  exact s.compiled.definition_eq r.paired r'.paired

end Linked

end RegLisp
