import RegLisp.Proofs.ControlSafety
import RegLisp.Proofs.LinkResolution

/-!
# The order of modules

Whether modules can be linked does not depend on their order, and neither does what the program
does, as long as the first module stays the first. Machines that run two images of a program go
through the same places of the same modules, step by step: an address in one image differs from its
counterpart in the other only by where the module lies.
-/

namespace RegLisp

/-! ## Acceptance -/

theorem Linkable.perm {ms ms' : List Module} (perm : ms.Perm ms') (h : Linkable ms) :
    Linkable ms' := by
  have same : (sites ms).Perm (sites ms') := perm.flatMap_right _
  refine ⟨?_, ?_, ?_, ?_⟩
  · rintro rfl
    exact h.nonempty perm.eq_nil
  · refine h.unique.perm same ?_
    intro s s' apart name defines defines'
    exact apart name defines' defines
  · intro r mem refers
    obtain ⟨s, mem', defines⟩ := h.defined r (same.mem_iff.2 mem) refers
    exact ⟨s, same.mem_iff.1 mem', defines⟩
  · intro r mem refers s mem'
    exact h.agree r (same.mem_iff.2 mem) refers s (same.mem_iff.2 mem')

/-! ## Places -/

/-- Two images of a program: they have the same first module, and the modules of the first image
are among those of the second. -/
structure Relinked (sources sources' : List Source) (img img' : Image) : Prop where
  linked : Linked sources img
  linked' : Linked sources' img'
  first_eq : (sources.map Source.module)[0]? = (sources'.map Source.module)[0]?
  covered : ∀ s ∈ sources, s.module ∈ sources'.map Source.module

/-- Address `pc` in module number `j` of the first image and address `pc'` in module number `j'` of
the second are the same place of one module. -/
def SamePlace (sources sources' : List Source) (img img' : Image) (j pc j' pc' : Nat) : Prop :=
  ∃ s s' a, sources[j]? = some s ∧ sources'[j']? = some s' ∧ s'.module = s.module ∧
    pc = img.codeOffset j + a ∧ pc' = img'.codeOffset j' + a

section

variable {sources sources' : List Source} {img img' : Image} {j j' pc pc' : Nat} {s : Source}

theorem SamePlace.next (h : SamePlace sources sources' img img' j pc j' pc') :
    SamePlace sources sources' img img' j (pc + 1) j' (pc' + 1) := by
  obtain ⟨s, s', a, hs, hs', module_eq, rfl, rfl⟩ := h
  exact ⟨s, s', a + 1, hs, hs', module_eq, rfl, rfl⟩

/-- The definitions of a compiled module lie inside its code. -/
theorem Source.address_lt (s : Source) {i : Nat} {g : FunctionEntry} {address : UInt64}
    (hg : s.module.functions[i]? = some g) (ha : g.address = some address) :
    address.toNat < s.module.code.size := by
  obtain ⟨l, mem, -, start⟩ := s.compiled.laid_of_address i g address hg ha
  obtain ⟨g', -, -, owned⟩ := s.compiled.body_owned l mem
  have nonempty : 0 < (l.term.bodyCode (isExternalAt s.module.functions)).length := by
    simp [Term.bodyCode]
  have first := owned.fetch 0 _ (List.getElem?_eq_getElem nonempty)
  rw [start]
  exact (Array.getElem?_eq_some_iff.1 first).1

/-- No two modules share an address. -/
theorem Linked.module_unique (h : Linked sources img) {d : Nat} {t : Source}
    (hs : sources[j]? = some s) (ht : sources[d]? = some t)
    (inside : img.codeOffset j ≤ pc ∧ pc < img.codeOffset j + s.module.code.size)
    (inside' : img.codeOffset d ≤ pc ∧ pc < img.codeOffset d + t.module.code.size) : d = j := by
  obtain lt | rfl | lt := Nat.lt_trichotomy d j
  · have := h.codeOffset_add_le ht hs lt
    omega
  · rfl
  · have := h.codeOffset_add_le hs ht lt
    omega

theorem Sited.inside (h : Linked sources img) {nested : Bool} {reservation : Nat}
    (sited : Sited sources img nested j pc reservation) (hs : sources[j]? = some s) :
    img.codeOffset j ≤ pc ∧ pc < img.codeOffset j + s.module.code.size := by
  obtain ⟨span, hspan, lower, upper⟩ := sited.span h
  obtain ⟨span', hspan', offset, count⟩ := h.getElem?_modules hs
  obtain rfl := Option.some.inj (hspan.symm.trans hspan')
  rw [← offset, ← count]
  exact ⟨lower, upper⟩

/-- At the same place there is the same instruction. -/
theorem SamePlace.fetch (r : Relinked sources sources' img img') {nested : Bool}
    {reservation : Nat} (place : SamePlace sources sources' img img' j pc j' pc')
    (sited : Sited sources img nested j pc reservation) : img'.code[pc']? = img.code[pc]? := by
  obtain ⟨s, s', a, hs, hs', module_eq, rfl, rfl⟩ := place
  obtain ⟨-, upper⟩ := sited.inside r.linked hs
  have inside : a < s.module.code.size := by omega
  have here := r.linked.getElem?_code hs (Array.getElem?_eq_getElem inside)
  have there := r.linked'.getElem?_code hs' (a := a)
    (by rw [module_eq, Array.getElem?_eq_getElem inside])
  rw [here, there]

/-- In the same module an index means the same constant. -/
theorem SamePlace.constant_eq (r : Relinked sources sources' img img')
    (place : SamePlace sources sources' img img' j pc j' pc') (index : Nat) :
    img'.constant j' index = img.constant j index := by
  obtain ⟨s, s', a, hs, hs', module_eq, -, -⟩ := place
  rw [r.linked.constant_eq hs, r.linked'.constant_eq hs', module_eq]

theorem Linked.linkable (h : Linked sources img) : Linkable (sources.map Source.module) :=
  Image.exists_link_eq_ok_iff.1 ⟨img, h.image_eq⟩

/-- In the same module an index means the same definition, at the same place. -/
theorem SamePlace.function_eq (r : Relinked sources sources' img img')
    (place : SamePlace sources sources' img img' j pc j' pc') {index : Nat} {f : LinkedFunction}
    (hf : img.function j index = some f) :
    ∃ f', img'.function j' index = some f' ∧ f'.reservation = f.reservation ∧
      SamePlace sources sources' img img' f.module f.address f'.module f'.address ∧
      (f.module = j → f'.module = j') ∧
      ∃ t, sources[f.module]? = some t ∧ img.codeOffset f.module ≤ f.address ∧
        f.address < img.codeOffset f.module + t.module.code.size := by
  obtain ⟨s, s', a, hs, hs', module_eq, -, -⟩ := place
  obtain ⟨o, hm⟩ := Linked.getElem?_placed hs
  obtain ⟨o', hm'⟩ := Linked.getElem?_placed hs'
  obtain ⟨m, entry, hm₁, hentry⟩ := r.linked.links.entry_of_function hf
  obtain rfl := Option.some.inj (hm.symm.trans hm₁)
  have hentry' : (s'.module.withOffsets o').functions[index]? = some entry := by
    simpa [Module.withOffsets, module_eq] using hentry
  obtain ⟨d, m, g, address, resolves, slot⟩ := r.linked.links.function_eq hm hentry
  obtain ⟨d', m', g', address', resolves', slot'⟩ := r.linked'.links.function_eq hm' hentry'
  obtain rfl := Option.some.inj (hf.symm.trans slot)
  have offset := r.linked.links.codeOffset_eq resolves.module_eq
  have offset' := r.linked'.links.codeOffset_eq resolves'.module_eq
  obtain ⟨t, ht, o₁, rfl⟩ := Linked.getElem?_source resolves.module_eq
  obtain ⟨t', ht', o₁', rfl⟩ := Linked.getElem?_source resolves'.module_eq
  obtain ⟨k, hk⟩ := Array.mem_iff_getElem?.1 resolves.mem
  obtain ⟨k', hk'⟩ := Array.mem_iff_getElem?.1 resolves'.mem
  have defined' : DefinedAt (sources'.map Source.module) entry.name d' k' t'.module g' address' :=
    ⟨by rw [List.getElem?_map, ht', Option.map_some], hk', resolves'.name_eq, resolves'.address_eq⟩
  -- wherever the second image has the module of the definition, that is where it finds the name
  have again {e : Nat} (he : (sources'.map Source.module)[e]? = some t.module) :
      d' = e ∧ k' = k :=
    r.linked'.linkable.unique.position_eq ⟨he, hk, resolves.name_eq, resolves.address_eq⟩ defined'
  obtain ⟨e, he⟩ := List.mem_iff_getElem?.1 (r.covered t (List.mem_of_getElem? ht))
  obtain ⟨rfl, rfl⟩ := again he
  obtain same : t'.module = t.module :=
    Option.some.inj (defined'.module_eq.symm.trans he)
  have hk₁ : t.module.functions[k']? = some g' := by
    rw [← same]
    exact hk'
  obtain rfl := Option.some.inj (hk.symm.trans hk₁)
  obtain rfl := Option.some.inj (resolves.address_eq.symm.trans resolves'.address_eq)
  have inside := t.address_lt hk resolves.address_eq
  have address_eq : (resolved entry g d (t.module.withOffsets o₁) address).address =
      img.codeOffset d + address.toNat := by
    rw [offset]
    rfl
  have address_eq' : (resolved entry g d' (t'.module.withOffsets o₁') address).address =
      img'.codeOffset d' + address.toNat := by
    rw [offset']
    rfl
  refine ⟨_, slot', rfl, ⟨t, t', address.toNat, ht, ht', same, address_eq, address_eq'⟩, ?_, t, ht,
    ?_, ?_⟩
  · intro own
    obtain rfl : d = j := own
    obtain rfl := Option.some.inj (hs.symm.trans ht)
    exact (again (by rw [List.getElem?_map, hs', Option.map_some, module_eq])).1
  · rw [address_eq]
    exact Nat.le_add_right _ _
  · rw [address_eq]
    exact Nat.add_lt_add_left inside _

end

/-! ## Safe instructions -/

section

variable {sources : List Source} {img : Image} {here : Nat → Prop} {nested : Bool} {pc : Nat}
  {limits : Limits} {m : Machine}

/-- What keeps a machine in the program while it jumps has a target there. -/
theorem Keeps.jumpTarget {index : Nat}
    (keeps : Keeps sources img here nested pc
      (match m.jumpTarget img index with
      | .error e => .error e
      | .ok target => .ok (.jump target))) :
    ∃ target, m.jumpTarget img index = .ok target ∧ here target := by
  cases found : m.jumpTarget img index with
  | ok target =>
    rw [found] at keeps
    cases keeps with
    | jump inside => exact ⟨target, rfl, inside⟩
  | error e =>
    rw [found] at keeps
    simp only [Machine.jumpTarget, Machine.constant] at found
    split at found
    · rename_i missing
      split at missing
      · cases missing
      · cases missing
        cases found
        cases keeps
    · split at found
      · cases found
      · cases found
        cases keeps

theorem Keeps.callee_of_tail {external : Bool} {index : Nat}
    (keeps : Keeps sources img here nested pc (m.planTailCall img external index)) :
    ∃ c, m.callee img external index = .ok c ∧ Starts sources img c := by
  unfold Machine.planTailCall at keeps
  cases found : m.callee img external index with
  | ok c =>
    rw [found] at keeps
    cases keeps with
    | reenter _ starts => exact ⟨c, rfl, starts⟩
  | error e =>
    rw [found] at keeps
    unfold Machine.callee at found
    split at found
    · cases found
      cases keeps
    · cases found

theorem Keeps.callee_of_call {external : Bool} {index : Nat}
    (room : m.stack.size < limits.maxCallStack ∧
      m.base + m.reservation + minRegisters ≤ m.registers.size)
    (keeps : Keeps sources img here nested pc (m.planCall img limits external index)) :
    ∃ c, m.callee img external index = .ok c ∧ Starts sources img c := by
  unfold Machine.planCall at keeps
  cases found : m.callee img external index with
  | ok c =>
    simp only [found, if_pos room] at keeps
    cases keeps with
    | enter _ starts => exact ⟨c, rfl, starts⟩
  | error e =>
    simp only [found] at keeps
    unfold Machine.callee at found
    split at found
    · cases found
      cases keeps
    · cases found

end

/-! ## Machines -/

section

variable (sources sources' : List Source) (img img' : Image)

/-- Frames that are saved at the same place. -/
structure FramesAlike (f f' : Frame) : Prop where
  base_eq : f'.base = f.base
  reservation_eq : f'.reservation = f.reservation
  place : SamePlace sources sources' img img' f.module f.returnPc f'.module f'.returnPc

/-- Callees that start at the same place. -/
structure CalleesAlike (c c' : Callee) : Prop where
  reservation_eq : c'.reservation = c.reservation
  place : SamePlace sources sources' img img' c.module c.address c'.module c'.address

/-- Machines on two images that are at the same place and differ in nothing else. -/
structure Mirrors (m m' : Machine) : Prop where
  registers_eq : m'.registers = m.registers
  base_eq : m'.base = m.base
  reservation_eq : m'.reservation = m.reservation
  status_eq : m'.status = m.status
  steps_eq : m'.steps = m.steps
  peak_eq : m'.peak = m.peak
  place : SamePlace sources sources' img img' m.module m.pc m'.module m'.pc
  depth_eq : m'.stack.size = m.stack.size
  callers : ∀ (k : Nat) (f f' : Frame), m.stack[k]? = some f → m'.stack[k]? = some f' →
    FramesAlike sources sources' img img' f f'

/-- Plans of two machines that do the same at the same place. -/
inductive PlansAlike (j j' : Nat) : Except FaultKind Effect → Except FaultKind Effect → Prop
  | error (kind : FaultKind) : PlansAlike j j' (.error kind) (.error kind)
  | proceed : PlansAlike j j' (.ok .proceed) (.ok .proceed)
  | write (index : Nat) (value : Int64) :
      PlansAlike j j' (.ok (.write index value)) (.ok (.write index value))
  | jump {target target' : Nat} (place : SamePlace sources sources' img img' j target j' target') :
      PlansAlike j j' (.ok (.jump target)) (.ok (.jump target'))
  | enter {c c' : Callee} (alike : CalleesAlike sources sources' img img' c c') :
      PlansAlike j j' (.ok (.enter c)) (.ok (.enter c'))
  | reenter {c c' : Callee} (alike : CalleesAlike sources sources' img img' c c') :
      PlansAlike j j' (.ok (.reenter c)) (.ok (.reenter c'))
  | leave {f f' : Frame} (alike : FramesAlike sources sources' img img' f f') :
      PlansAlike j j' (.ok (.leave f)) (.ok (.leave f'))
  | stop : PlansAlike j j' (.ok .stop) (.ok .stop)

/-- Faults of one kind at the same place of a module. -/
structure FaultsAlike (cause cause' : Fault) : Prop where
  kind_eq : cause'.kind = cause.kind
  opcode_eq : cause'.opcode = cause.opcode
  place : ∃ j j' s s' a, sources[j]? = some s ∧ sources'[j']? = some s' ∧
    s'.module = s.module ∧ a < s.module.code.size ∧
      cause.address = img.codeOffset j + a ∧ cause'.address = img'.codeOffset j' + a

end

namespace Mirrors

variable {sources sources' : List Source} {img img' : Image} {m m' : Machine} {limits : Limits}

theorem register_eq (h : Mirrors sources sources' img img' m m') (index : Nat) :
    m'.register index = m.register index := by
  simp only [Machine.register, h.registers_eq]

theorem reg_eq (h : Mirrors sources sources' img img' m m') (r : UInt8) : m'.reg r = m.reg r := by
  simp only [Machine.reg, h.register_eq, h.base_eq]

theorem window_eq (h : Mirrors sources sources' img img' m m') (r : UInt8) :
    m'.window r = m.window r := by
  simp only [Machine.window, h.base_eq, h.reservation_eq]

theorem writeReg_eq (h : Mirrors sources sources' img img' m m') (r : UInt8) (value : Int64) :
    m'.writeReg r value = m.writeReg r value := by
  simp only [Machine.writeReg, h.base_eq]

theorem constant_eq (h : Mirrors sources sources' img img' m m')
    (r : Relinked sources sources' img img') (index : Nat) :
    m'.constant img' index = m.constant img index := by
  simp only [Machine.constant, h.place.constant_eq r]

/-- A jump inside a module goes to the same place. -/
theorem jumpTarget_eq (h : Mirrors sources sources' img img' m m')
    (r : Relinked sources sources' img img') {index target : Nat}
    (found : m.jumpTarget img index = .ok target) {nested : Bool} {reservation : Nat}
    (sited : Sited sources img nested m.module target reservation) :
    ∃ target', m'.jumpTarget img' index = .ok target' ∧
      SamePlace sources sources' img img' m.module target m'.module target' := by
  obtain ⟨s, s', a, hs, hs', module_eq, -, -⟩ := h.place
  obtain ⟨-, upper⟩ := sited.inside r.linked hs
  have constant := h.constant_eq r index
  unfold Machine.jumpTarget at found ⊢
  rw [constant]
  cases read : m.constant img index with
  | error e =>
    rw [read] at found
    cases found
  | ok word =>
    simp only [read] at found ⊢
    split at found
    · cases found
      have inside : word.toNat < s'.module.code.size := by
        rw [module_eq]
        omega
      have last := (Array.getElem?_eq_some_iff.1
        (r.linked'.getElem?_code hs' (Array.getElem?_eq_getElem inside))).1
      have words := r.linked'.words
      rw [if_pos (by omega)]
      exact ⟨_, rfl, s, s', word.toNat, hs, hs', module_eq, Nat.add_comm _ _, Nat.add_comm _ _⟩
    · cases found

/-- A call goes to the same place. -/
theorem callee_eq (h : Mirrors sources sources' img img' m m')
    (r : Relinked sources sources' img img') {external : Bool} {index : Nat} {c : Callee}
    (found : m.callee img external index = .ok c) (starts : Starts sources img c) :
    ∃ c', m'.callee img' external index = .ok c' ∧
      CalleesAlike sources sources' img img' c c' := by
  unfold Machine.callee at found ⊢
  cases function : img.function m.module index with
  | none =>
    rw [function] at found
    cases found
  | some f =>
    rw [function] at found
    cases found
    obtain ⟨f', function', reservation_eq, place, own, t, ht, inside⟩ :=
      h.place.function_eq r function
    rw [function']
    refine ⟨_, rfl, reservation_eq, ?_⟩
    cases external with
    | true => exact place
    | false =>
      -- what is called in the own module is found there
      obtain ⟨s, s', a, hs, hs', module_eq, -, -⟩ := h.place
      have here := starts.sited.inside r.linked hs
      have same : f.module = m.module := r.linked.module_unique hs ht here inside
      simp only [Bool.false_eq_true, ↓reduceIte]
      rw [same, own same] at place
      exact place

/-- The latest callers are alike. -/
theorem back (h : Mirrors sources sources' img img' m m') :
    (m.stack.back? = none ∧ m'.stack.back? = none) ∨
      ∃ f f', m.stack.back? = some f ∧ m'.stack.back? = some f' ∧
        FramesAlike sources sources' img img' f f' := by
  cases latest : m.stack.back? with
  | none =>
    left
    rw [Array.back?_eq_none_iff] at latest ⊢
    refine ⟨rfl, Array.size_eq_zero_iff.1 ?_⟩
    rw [h.depth_eq, latest]
    rfl
  | some f =>
    right
    rw [Array.back?_eq_getElem?] at latest
    have lt : m.stack.size - 1 < m'.stack.size := by
      rw [h.depth_eq]
      exact (Array.getElem?_eq_some_iff.1 latest).1
    have latest' := Array.getElem?_eq_getElem lt
    refine ⟨f, _, rfl, ?_, h.callers _ _ _ latest latest'⟩
    rw [Array.back?_eq_getElem?, h.depth_eq]
    exact latest'

theorem planCall_alike (h : Mirrors sources sources' img img' m m')
    (r : Relinked sources sources' img img') {external : Bool} {index : Nat} {c : Callee}
    (found : m.callee img external index = .ok c) (starts : Starts sources img c) :
    PlansAlike sources sources' img img' m.module m'.module
      (m.planCall img limits external index) (m'.planCall img' limits external index) := by
  obtain ⟨c', found', alike⟩ := h.callee_eq r found starts
  simp only [Machine.planCall, found, found', h.depth_eq, h.base_eq, h.reservation_eq,
    h.registers_eq]
  split
  · exact .enter alike
  · exact .error _

theorem planTailCall_alike (h : Mirrors sources sources' img img' m m')
    (r : Relinked sources sources' img img') {external : Bool} {index : Nat} {c : Callee}
    (found : m.callee img external index = .ok c) (starts : Starts sources img c) :
    PlansAlike sources sources' img img' m.module m'.module
      (m.planTailCall img external index) (m'.planTailCall img' external index) := by
  obtain ⟨c', found', alike⟩ := h.callee_eq r found starts
  simp only [Machine.planTailCall, found, found']
  exact .reenter alike

/-- An instruction that is safe in the first image does the same in the second. -/
theorem plan_alike (h : Mirrors sources sources' img img' m m')
    (r : Relinked sources sources' img img') {nested : Bool} {reservation : Nat} {op : Opcode}
    {i : Instruction}
    (safe : ∀ (limits : Limits) (x : Machine), x.module = m.module → x.pc = m.pc →
      (nested = true → x.stack.back? ≠ none) →
        Keeps sources img (Sited sources img nested m.module · reservation) nested m.pc
          (x.plan img limits op i))
    (callers : nested = true → m.stack.back? ≠ none) (limits : Limits) :
    PlansAlike sources sources' img img' m.module m'.module (m.plan img limits op i)
      (m'.plan img' limits op i) := by
  -- a call is safe however many callers and registers there are, so it has a callee
  have room (external : Bool) (op_eq : ∀ (limits : Limits) (x : Machine),
      x.plan img limits op i = x.planCall img limits external i.callIndex) :
      ∃ c, m.callee img external i.callIndex = .ok c ∧ Starts sources img c := by
    have keeps := safe { maxCallStack := m.stack.size + 1 }
      { m with registers := Array.replicate (m.base + m.reservation + minRegisters) 0 }
      rfl rfl callers
    rw [op_eq] at keeps
    have space : m.base + m.reservation + minRegisters ≤
        (Array.replicate (m.base + m.reservation + minRegisters) (0 : Int64)).size := by
      rw [Array.size_replicate]
    obtain ⟨c, found, starts⟩ := Keeps.callee_of_call (m := { m with
      registers := Array.replicate (m.base + m.reservation + minRegisters) 0 })
      ⟨Nat.lt_succ_self _, space⟩ keeps
    exact ⟨c, found, starts⟩
  have tail (external : Bool) (op_eq : ∀ (limits : Limits) (x : Machine),
      x.plan img limits op i = x.planTailCall img external i.callIndex) :
      ∃ c, m.callee img external i.callIndex = .ok c ∧ Starts sources img c := by
    have keeps := safe limits m rfl rfl callers
    rw [op_eq] at keeps
    exact keeps.callee_of_tail
  cases op with
  | nop => exact .proceed
  | halt => exact .stop
  | calli =>
    obtain ⟨c, found, starts⟩ := room false fun _ _ => rfl
    exact h.planCall_alike r found starts
  | calle =>
    obtain ⟨c, found, starts⟩ := room true fun _ _ => rfl
    exact h.planCall_alike r found starts
  | lcalli =>
    obtain ⟨c, found, starts⟩ := tail false fun _ _ => rfl
    exact h.planTailCall_alike r found starts
  | lcalle =>
    obtain ⟨c, found, starts⟩ := tail true fun _ _ => rfl
    exact h.planTailCall_alike r found starts
  | ret =>
    simp only [Machine.plan]
    rcases h.back with ⟨none_eq, none_eq'⟩ | ⟨f, f', some_eq, some_eq', alike⟩
    · rw [none_eq, none_eq']
      exact .error _
    · rw [some_eq, some_eq']
      exact .leave alike
  | addi | subi | muli | gt =>
    simp only [Machine.plan, h.reg_eq, h.writeReg_eq]
    exact .write _ _
  | divi =>
    simp only [Machine.plan, h.reg_eq, h.writeReg_eq]
    cases Machine.quotient (m.reg i.a) (m.reg i.b) with
    | error e => exact .error e
    | ok value => exact .write _ _
  | loadi =>
    simp only [Machine.plan, h.constant_eq r, h.writeReg_eq]
    cases m.constant img i.constIndex with
    | error e => exact .error e
    | ok word => exact .write _ _
  | jmp =>
    obtain ⟨target, found, sited⟩ := Keeps.jumpTarget (safe limits m rfl rfl callers)
    obtain ⟨target', found', place⟩ := h.jumpTarget_eq r found sited
    simp only [Machine.plan, found, found']
    exact .jump place
  | jmpc =>
    -- the target matters even where the jump is not taken, since an address has to be a word
    have keeps := safe limits { m with registers := #[] } rfl rfl callers
    have zero : ({ m with registers := #[] } : Machine).reg i.a = 0 := by
      simp [Machine.reg, Machine.register]
    simp only [Machine.plan, zero, ↓reduceIte] at keeps
    obtain ⟨target, found, sited⟩ := keeps.jumpTarget
    obtain ⟨target', found', place⟩ := h.jumpTarget_eq r found sited
    simp only [Machine.plan, show m.jumpTarget img i.constIndex = .ok target from found, found',
      h.reg_eq]
    split
    · exact .jump place
    · exact .proceed
  | mov =>
    simp only [Machine.plan, Machine.planMove, h.reg_eq, h.window_eq, h.register_eq, h.writeReg_eq]
    cases i.moveMode? with
    | none => exact .error _
    | some mode => cases mode <;> exact .write _ _

/-- Machines that do the same stay alike. -/
theorem apply (h : Mirrors sources sources' img img' m m') {effect effect' : Effect}
    (alike : PlansAlike sources sources' img img' m.module m'.module (.ok effect) (.ok effect')) :
    Mirrors sources sources' img img' (m.apply effect) (m'.apply effect') := by
  obtain ⟨registers_eq, base_eq, reservation_eq, status_eq, steps_eq, peak_eq, place, depth_eq,
    callers⟩ := h
  have counted : m'.steps + 1 = m.steps + 1 := congrArg (· + 1) steps_eq
  cases alike with
  | proceed =>
    exact ⟨registers_eq, base_eq, reservation_eq, status_eq, counted, peak_eq, place.next, depth_eq,
      callers⟩
  | write index value =>
    refine ⟨?_, base_eq, reservation_eq, status_eq, counted, peak_eq, place.next, depth_eq, callers⟩
    simp only [Machine.apply, registers_eq]
  | jump place =>
    exact ⟨registers_eq, base_eq, reservation_eq, status_eq, counted, peak_eq, place, depth_eq,
      callers⟩
  | stop =>
    exact ⟨registers_eq, base_eq, reservation_eq, rfl, counted, peak_eq, place.next, depth_eq,
      callers⟩
  | reenter alike =>
    exact ⟨registers_eq, base_eq, alike.reservation_eq, status_eq, counted, peak_eq, alike.place,
      depth_eq, callers⟩
  | enter alike =>
    refine ⟨registers_eq, ?_, alike.reservation_eq, status_eq, counted, ?_, alike.place, ?_, ?_⟩
    · simp only [Machine.apply, base_eq, reservation_eq]
    · simp only [Machine.apply, peak_eq, depth_eq]
    · simp only [Machine.apply, Array.size_push, depth_eq]
    · intro k f f' hf hf'
      simp only [Machine.apply, Array.getElem?_push] at hf hf'
      by_cases last : k = m.stack.size
      · rw [if_pos last] at hf
        rw [if_pos (last.trans depth_eq.symm)] at hf'
        cases hf
        cases hf'
        exact ⟨base_eq, reservation_eq, place.next⟩
      · rw [if_neg last] at hf
        rw [if_neg (by omega)] at hf'
        exact callers k f f' hf hf'
  | leave alike =>
    refine ⟨registers_eq, alike.base_eq, alike.reservation_eq, status_eq, counted, peak_eq,
      alike.place, ?_, ?_⟩
    · simp only [Machine.apply, Array.size_pop, depth_eq]
    · intro k f f' hf hf'
      simp only [Machine.apply, Array.getElem?_pop] at hf hf'
      split at hf
      · split at hf'
        · exact callers k f f' hf hf'
        · cases hf'
      · cases hf

end Mirrors

/-! ## Runs -/

section

variable (sources sources' : List Source) (img img' : Image)

/-- Steps that end in the same way. -/
inductive FlowsAlike : Flow → Flow → Prop
  | next : FlowsAlike .next .next
  | done (result : Int64) : FlowsAlike (.done result) (.done result)
  | fault {cause cause' : Fault} (alike : FaultsAlike sources sources' img img' cause cause') :
      FlowsAlike (.fault cause) (.fault cause')

/-- Runs that have not ended, or that have ended in the same way. -/
inductive OutcomesAlike : Option (Except Fault Int64) → Option (Except Fault Int64) → Prop
  | ongoing : OutcomesAlike none none
  | value (result : Int64) : OutcomesAlike (some (.ok result)) (some (.ok result))
  | fault {cause cause' : Fault} (alike : FaultsAlike sources sources' img img' cause cause') :
      OutcomesAlike (some (.error cause)) (some (.error cause'))

/-- Runs with the same limits on two images that end in the same way, after as many instructions
and with the same greatest depth. -/
structure RunsAlike (limits : Limits) (fuel : Nat) : Prop where
  outcome : OutcomesAlike sources sources' img img' (img.run limits fuel) (img'.run limits fuel)
  steps_eq : ((Machine.start img' limits).run img' limits fuel).1.steps =
    ((Machine.start img limits).run img limits fuel).1.steps
  peak_eq : ((Machine.start img' limits).run img' limits fuel).1.peak =
    ((Machine.start img limits).run img limits fuel).1.peak

end

section

variable {sources sources' : List Source} {img img' : Image} {m m' : Machine} {limits : Limits}

theorem OutcomesAlike.none_iff {o o' : Option (Except Fault Int64)}
    (h : OutcomesAlike sources sources' img img' o o') : o = none ↔ o' = none := by
  cases h with
  | ongoing => exact Iff.rfl
  | value result => exact iff_of_false nofun nofun
  | fault alike => exact iff_of_false nofun nofun

namespace Mirrors

/-- Machines that are alike stop alike. -/
theorem stopOn (h : Mirrors sources sources' img img' m m')
    (r : Relinked sources sources' img img') {nested : Bool} {reservation : Nat}
    (sited : Sited sources img nested m.module m.pc reservation) (kind : FaultKind)
    (opcode : Option UInt8) :
    Mirrors sources sources' img img' (m.stopOn kind opcode).1 (m'.stopOn kind opcode).1 ∧
      FlowsAlike sources sources' img img' (m.stopOn kind opcode).2 (m'.stopOn kind opcode).2 := by
  refine ⟨{ h with status_eq := rfl }, .fault ⟨rfl, rfl, ?_⟩⟩
  obtain ⟨s, s', a, hs, hs', module_eq, pc_eq, pc_eq'⟩ := h.place
  obtain ⟨-, upper⟩ := sited.inside r.linked hs
  exact ⟨m.module, m'.module, s, s', a, hs, hs', module_eq, by omega, pc_eq, pc_eq'⟩

/-- Machines in the program that are alike do the same step. -/
theorem step (h : Mirrors sources sources' img img' m m')
    (r : Relinked sources sources' img img') (inv : m.InProgram sources img)
    (running : m.status = .running) (limits : Limits) :
    Mirrors sources sources' img img' (m.step img limits).1 (m'.step img' limits).1 ∧
      FlowsAlike sources sources' img img' (m.step img limits).2 (m'.step img' limits).2 := by
  obtain ⟨i, fetched, op, decoded, safe⟩ := inv.current.safe r.linked
  have fetched' : img'.code[m'.pc]? = some i := (h.place.fetch r inv.current).trans fetched
  have callers : decide (0 < m.stack.size) = true → m.stack.back? ≠ none := by
    intro nested empty
    rw [Array.back?_eq_none_iff] at empty
    simp [empty] at nested
  have alike := h.plan_alike r safe callers limits
  simp only [Machine.step, running, h.status_eq, h.steps_eq]
  split
  · exact h.stopOn r inv.current _ _
  · simp only [fetched, fetched', decoded, Machine.execute, h.steps_eq]
    cases planned : m.plan img limits op i with
    | error kind =>
      rw [planned] at alike
      cases planned' : m'.plan img' limits op i with
      | ok effect' =>
        rw [planned'] at alike
        cases alike
      | error kind' =>
        rw [planned'] at alike
        cases alike
        have counted : Mirrors sources sources' img img' { m with steps := m.steps + 1 }
            { m' with steps := m.steps + 1 } := { h with steps_eq := rfl }
        exact counted.stopOn r inv.current _ _
    | ok effect =>
      rw [planned] at alike
      cases planned' : m'.plan img' limits op i with
      | error kind =>
        rw [planned'] at alike
        cases alike
      | ok effect' =>
        rw [planned'] at alike
        have applied := h.apply alike
        have result : m'.result = m.result := h.register_eq 0
        cases alike with
        | stop => exact ⟨applied, by rw [result]; exact .done _⟩
        | proceed | write | jump | enter | reenter | leave => exact ⟨applied, .next⟩

/-- Machines in the program that are alike run alike. -/
theorem run (r : Relinked sources sources' img img') (limits : Limits) (fuel : Nat) :
    ∀ {m m' : Machine}, Mirrors sources sources' img img' m m' → m.InProgram sources img →
      m.status = .running →
        Mirrors sources sources' img img' (m.run img limits fuel).1 (m'.run img' limits fuel).1 ∧
          OutcomesAlike sources sources' img img' (m.run img limits fuel).2
            (m'.run img' limits fuel).2 := by
  induction fuel with
  | zero =>
    intro m m' h inv running
    exact ⟨h, .ongoing⟩
  | succ fuel ih =>
    intro m m' h inv running
    have after : (m.step img limits).1.status = .running →
        (m.step img limits).1.InProgram sources img := (inv.step r.linked running).1
    obtain ⟨mirrors, flows⟩ := h.step r inv running limits
    simp only [Machine.run]
    cases stepped : m.step img limits with
    | mk m₁ flow =>
      cases stepped' : m'.step img' limits with
      | mk m₁' flow' =>
        rw [stepped] at after mirrors flows
        rw [stepped'] at mirrors flows
        cases flows with
        | next =>
          obtain ⟨-, effect, goes, rfl⟩ := Machine.exists_effect_of_next stepped
          have running₁ := (Machine.status_apply goes).trans running
          exact ih mirrors (after running₁) running₁
        | done result => exact ⟨mirrors, .value result⟩
        | fault alike => exact ⟨mirrors, .fault alike⟩

end Mirrors

/-- Both images start at the same place. -/
theorem Relinked.mirrors_start (r : Relinked sources sources' img img') (limits : Limits) :
    Mirrors sources sources' img img' (Machine.start img limits) (Machine.start img' limits) := by
  obtain ⟨s, first⟩ := r.linked.exists_first
  obtain ⟨s', first'⟩ := r.linked'.exists_first
  have module_eq : s'.module = s.module := by
    have same := r.first_eq
    rw [List.getElem?_map, List.getElem?_map, first, first'] at same
    exact (Option.some.inj same).symm
  have entry := r.linked.entry_eq first
  have entry' := r.linked'.entry_eq first'
  refine ⟨rfl, rfl, ?_, rfl, rfl, rfl, ⟨s, s', 0, first, first', module_eq, ?_, ?_⟩, rfl, ?_⟩
  · simp only [Machine.start, entry, entry', module_eq]
  · simp only [Machine.start, entry, Nat.add_zero]
  · simp only [Machine.start, entry', Nat.add_zero]
  · intro k f f' hf
    simp [Machine.start] at hf

theorem Relinked.runsAlike (r : Relinked sources sources' img img') (limits : Limits)
    (fuel : Nat) : RunsAlike sources sources' img img' limits fuel := by
  have reachable : (Machine.start img limits).Reachable img limits := ⟨[], rfl⟩
  have inv := reachable.inProgram r.linked rfl
  obtain ⟨mirrors, outcome⟩ := Mirrors.run r limits fuel (r.mirrors_start limits) inv rfl
  exact ⟨outcome, mirrors.steps_eq, mirrors.peak_eq⟩

end

/-- The order of the modules behind the first one cannot be observed. Modules can be linked in one
order if and only if they can be in every other. On two images of a program that start with the
same module, where one may have further modules, all runs with the same limits are alike, and one
goes on for ever if and only if the other does. -/
theorem link_order_unobservable :
    (∀ (first : Module) (ms ms' : List Module), ms.Perm ms' →
      ((∃ img, linkModules (first :: ms) = .ok img) ↔
        ∃ img', linkModules (first :: ms') = .ok img')) ∧
    ∀ (sources sources' : List Source) (img img' : Image), Relinked sources sources' img img' →
      ∀ limits : Limits, (∀ fuel, RunsAlike sources sources' img img' limits fuel) ∧
        ((∀ fuel, img.run limits fuel = none) ↔ ∀ fuel, img'.run limits fuel = none) := by
  constructor
  · intro first ms ms' perm
    simp only [linkModules_eq, Image.exists_link_eq_ok_iff]
    exact ⟨Linkable.perm (perm.cons first), Linkable.perm (perm.symm.cons first)⟩
  · intro sources sources' img img' r limits
    refine ⟨r.runsAlike limits, ?_⟩
    exact forall_congr' fun fuel => (r.runsAlike limits fuel).outcome.none_iff

/-- A module that only stops. -/
def idle : Module := .ofParts "idle" #[] #[] #[⟨15, 0, 0, 0⟩]

/-- A text that calls a function of another one, which divides by its argument. -/
def dividingTexts : List (String × String) :=
  [("main", "(extern inverse (int) int) (inverse 0)"), ("lib", "(def inverse (n) (/ 1 n))")]

/-- The same texts with another one between them. -/
def separatedTexts : List (String × String) :=
  [("main", "(extern inverse (int) int) (inverse 0)"), ("spare", "(def spare (n) (+ n n))"),
    ("lib", "(def inverse (n) (/ 1 n))")]

theorem link_order_unobservable_separated :
    (∃ img, linkModules (idle :: pingPong) = .ok img) ∧
      (∃ img', linkModules (idle :: pingPong.reverse) = .ok img') ∧
      ∃ sources sources' img img', Relinked sources sources' img img' ∧
        img.run {} 9 = some (.error ⟨.divisionByZero, 7, some 9⟩) ∧
        img'.run {} 9 = some (.error ⟨.divisionByZero, 11, some 9⟩) ∧
        ∀ limits : Limits, (∀ fuel, RunsAlike sources sources' img img' limits fuel) ∧
          ((∀ fuel, img.run limits fuel = none) ↔ ∀ fuel, img'.run limits fuel = none) := by
  have accepted : (linkModules (idle :: pingPong)).isOk = true := by decide +kernel
  have links : ∃ img, linkModules (idle :: pingPong) = .ok img := by
    cases linked : linkModules (idle :: pingPong) with
    | error e =>
      rw [linked] at accepted
      cases accepted
    | ok img => exact ⟨img, rfl⟩
  have evaluated : (linkTexts? dividingTexts).any (fun l =>
      (linkTexts? separatedTexts).any fun l' =>
        l.2.code.size ≤ UInt64.size ∧ l'.2.code.size ≤ UInt64.size ∧
        (l.1.map Source.module)[0]? = (l'.1.map Source.module)[0]? ∧
        (∀ s ∈ l.1, s.module ∈ l'.1.map Source.module) ∧
        l.2.run {} 9 = some (.error ⟨.divisionByZero, 7, some 9⟩) ∧
        l'.2.run {} 9 = some (.error ⟨.divisionByZero, 11, some 9⟩)) = true := by
    decide +kernel
  obtain ⟨⟨sources, img⟩, linked, facts⟩ := (Option.any_eq_true _ _).1 evaluated
  obtain ⟨⟨sources', img'⟩, linked', facts⟩ := (Option.any_eq_true _ _).1 facts
  obtain ⟨words, words', first_eq, covered, ended, ended'⟩ := of_decide_eq_true facts
  have r : Relinked sources sources' img img' :=
    ⟨linked_of_linkTexts? linked words, linked_of_linkTexts? linked' words', first_eq, covered⟩
  exact ⟨links, (link_order_unobservable.1 idle _ _ pingPong.reverse_perm.symm).1 links, sources,
    sources', img, img', r, ended, ended', link_order_unobservable.2 _ _ _ _ r⟩

end RegLisp
