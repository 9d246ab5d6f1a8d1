import RegLisp.Proofs.CodeStarts
import RegLisp.Proofs.Linking
import RegLisp.Proofs.StepEffects

/-!
# Safety of the register file

Only a call looks whether there is room. A tail call changes the size of the frame without a look,
and a return goes back to an older frame. What makes this safe is that no frame of a module is
larger than 256 registers, and that behind the start of each frame, current or saved, there are at
least 512 of them. Both hold on any image of built modules, whatever its code is.
-/

namespace RegLisp

/-! ## Frame sizes -/

/-- An instruction names registers by bytes. -/
theorem Instruction.maxLocalRegister_lt {i : Instruction} {r : Nat}
    (h : i.maxLocalRegister = some r) : r < 256 := by
  have ha := i.a.toNat_lt
  have hb := i.b.toNat_lt
  have hc := i.c.toNat_lt
  unfold maxLocalRegister at h
  repeat' split at h
  all_goals cases h
  all_goals omega

/-- A frame never needs more registers than bytes can name. -/
theorem frameSize_le (code : Array Instruction) (start stop : Nat) :
    frameSize code start stop ≤ 256 := by
  unfold frameSize
  rw [← Array.foldl_toList]
  generalize (code.extract start stop).toList = is
  suffices ∀ size, size ≤ 256 → is.foldl
      (fun size i => max size ((i.maxLocalRegister.map (· + 1)).getD 0)) size ≤ 256 from
    this 0 (Nat.zero_le _)
  induction is with
  | nil => exact fun size h => h
  | cons i is ih =>
    intro size h
    apply ih
    cases hr : i.maxLocalRegister with
    | none => simpa [hr] using h
    | some r =>
      have := Instruction.maxLocalRegister_lt hr
      simp only [hr, Option.map_some, Option.getD_some]
      omega

/-- The modules that can be built: from parts or from a file, and moved to other offsets. -/
inductive Module.Built : Module → Prop
  | ofParts (name : String) (functions : Array FunctionEntry) (constants : Array UInt64)
      (code : Array Instruction) : Built (.ofParts name functions constants code)
  | decoded {name : String} {bytes : List UInt8} {m : Module}
      (h : Module.decode name bytes = .ok m) : Built m
  | moved {m : Module} (offsets : Offsets) (h : Built m) : Built (m.withOffsets offsets)

/-- A file is read into a module that is made of parts. -/
theorem Module.eq_ofParts_of_decode {name : String} {bytes : List UInt8} {m : Module}
    (h : Module.decode name bytes = .ok m) :
    ∃ functions constants code, m = .ofParts name functions constants code := by
  simp only [Module.decode, bind, Except.bind, throw, throwThe, MonadExceptOf.throw, pure,
    Except.pure] at h
  repeat' split at h
  all_goals cases h
  all_goals exact ⟨_, _, _, rfl⟩

/-- The frames of a built module are small. -/
theorem Module.Built.reservation_le {m : Module} (h : m.Built) :
    m.entryReservation ≤ 256 ∧
      ∀ f ∈ m.functions, f.isExternal = false → f.reservation ≤ 256 := by
  have parts : ∀ name functions constants code,
      (Module.ofParts name functions constants code).entryReservation ≤ 256 ∧
        ∀ f ∈ (Module.ofParts name functions constants code).functions,
          f.isExternal = false → f.reservation ≤ 256 := by
    intro name functions constants code
    rw [Module.ofParts_eq]
    refine ⟨frameSize_le _ _ _, ?_⟩
    intro f hf defined
    obtain ⟨g, -, rfl⟩ := Array.mem_map.1 hf
    cases ha : g.address with
    | none => simp [FunctionEntry.isExternal, ha] at defined
    | some address =>
      rw [FunctionEntry.measured_of_address ha]
      exact frameSize_le _ _ _
  induction h with
  | ofParts => exact parts _ _ _ _
  | decoded h =>
    obtain ⟨functions, constants, code, rfl⟩ := Module.eq_ofParts_of_decode h
    exact parts _ _ _ _
  | moved offsets _ ih => exact ih

/-- The frame sizes that an image of built modules holds are small. -/
structure Image.Small (img : Image) : Prop where
  entry_le : img.entry.2 ≤ 256
  function_le {module index : Nat} {f : LinkedFunction} :
    img.function module index = some f → f.reservation ≤ 256

theorem Image.small_of_link {ms : List Module} {img : Image} (built : ∀ m ∈ ms, m.Built)
    (h : Image.link ms = .ok img) : img.Small := by
  have links := Image.links_of_link h
  constructor
  · cases hm : ms[0]? with
    | none => simp [Image.entry, links.modules, hm]
    | some m =>
      have small := (built m (List.mem_of_getElem? hm)).reservation_le.1
      simpa [Image.entry, links.getElem?_modules hm, Module.span] using small
  · intro module index f hf
    obtain ⟨m, e, hm, he⟩ := links.entry_of_function hf
    obtain ⟨d, m', g, address, hd, heq⟩ := links.function_eq hm he
    rw [heq, Option.some.injEq] at hf
    subst hf
    have small := (built m' (List.mem_of_getElem? hd.module_eq)).reservation_le.2 g hd.mem
    exact small (by simp [FunctionEntry.isExternal, hd.address_eq])

/-! ## Frames -/

/-- Saved frames lie one behind the other from `first` on, and the frame behind them starts at
`current`. -/
def Contiguous (first : Nat) : List Frame → Nat → Prop
  | [], current => current = first
  | f :: fs, current => f.base = first ∧ Contiguous (f.base + f.reservation) fs current

theorem contiguous_concat {first : Nat} {fs : List Frame} {f : Frame} {current : Nat} :
    Contiguous first (fs ++ [f]) current ↔
      Contiguous first fs f.base ∧ current = f.base + f.reservation := by
  induction fs generalizing first with
  | nil => rfl
  | cons g fs ih =>
    rw [List.cons_append, Contiguous, Contiguous, ih, and_assoc]

namespace Machine

/-- All frames are small and have room behind their start, the saved ones lie one behind the other
and lead to the current one, and there are no more of them than allowed. -/
structure Framed (limits : Limits) (m : Machine) : Prop where
  reservation_le : m.reservation ≤ 256
  room : m.base + 512 ≤ m.registers.size
  saved : ∀ f ∈ m.stack, f.reservation ≤ 256 ∧ f.base + 512 ≤ m.registers.size
  contiguous : Contiguous 0 m.stack.toList m.base
  depth_le : m.depth ≤ m.peak
  peak_le : m.peak ≤ limits.maxCallStack

variable {img : Image} {limits : Limits} {m : Machine}

theorem framed_start (small : img.Small) : (start img limits).Framed limits where
  reservation_le := small.entry_le
  room := by
    simp only [start, minRegisters, Array.size_replicate]
    omega
  saved := by simp [start]
  contiguous := rfl
  depth_le := Nat.le_refl _
  peak_le := Nat.zero_le _

theorem Framed.reset (small : img.Small) (h : m.Framed limits) : (m.reset img).Framed limits where
  reservation_le := small.entry_le
  room := by
    have := h.room
    simp only [Machine.reset, Array.size_replicate]
    omega
  saved := by simp [Machine.reset]
  contiguous := rfl
  depth_le := Nat.le_refl _
  peak_le := Nat.zero_le _

theorem callee_reservation_le (small : img.Small) {external : Bool} {index : Nat} {c : Callee}
    (h : m.callee img external index = .ok c) : c.reservation ≤ 256 := by
  unfold callee at h
  split at h
  · cases h
  · cases h
    exact small.function_le ‹_›

/-- No effect that a state allows breaks its frames. -/
theorem Framed.apply (small : img.Small) (h : m.Framed limits) {effect : Effect}
    (allowed : m.Allows img limits effect) : (m.apply effect).Framed limits := by
  obtain ⟨reservation_le, room, saved, contiguous, depth_le, peak_le⟩ := h
  cases allowed with
  | proceed => exact ⟨reservation_le, room, saved, contiguous, depth_le, peak_le⟩
  | jump => exact ⟨reservation_le, room, saved, contiguous, depth_le, peak_le⟩
  | stop => exact ⟨reservation_le, room, saved, contiguous, depth_le, peak_le⟩
  | write | writeWindow =>
    refine ⟨reservation_le, ?_, ?_, contiguous, depth_le, peak_le⟩
    · simpa [Machine.apply] using room
    · simpa [Machine.apply] using saved
  | reenter found =>
    exact ⟨callee_reservation_le small found, room, saved, contiguous, depth_le, peak_le⟩
  | enter found depth space =>
    refine ⟨callee_reservation_le small found, space, ?_, ?_, ?_, ?_⟩
    · intro f hf
      rcases Array.mem_push.1 hf with hf | rfl
      · exact saved f hf
      · exact ⟨reservation_le, room⟩
    · rw [Machine.apply, Array.toList_push, contiguous_concat]
      exact ⟨contiguous, rfl⟩
    · simp only [Machine.apply, Machine.depth, Array.size_push]
      omega
    · simp only [Machine.apply]
      omega
  | leave latest =>
    rename_i caller
    obtain ⟨rest, hrest⟩ := Array.back?_eq_some_iff.1 latest
    have hpop : m.stack.pop = rest := by rw [hrest, Array.pop_push]
    rw [hrest] at saved contiguous
    refine ⟨(saved caller Array.mem_push_self).1, (saved caller Array.mem_push_self).2, ?_, ?_, ?_,
      peak_le⟩
    · intro f hf
      rw [Machine.apply, hpop] at hf
      exact saved f (Array.mem_push_of_mem _ hf)
    · rw [Array.toList_push, contiguous_concat] at contiguous
      rw [Machine.apply, hpop]
      exact contiguous.1
    · simp only [Machine.apply, Machine.depth, Array.size_pop] at depth_le ⊢
      omega

/-- No step breaks the frames. -/
theorem Framed.step (small : img.Small) (h : m.Framed limits) :
    (m.step img limits).1.Framed limits := by
  rcases step_state img limits m with ⟨steps, status, heq⟩ | ⟨effect, allowed, heq⟩
  · rw [heq]
    exact ⟨h.reservation_le, h.room, h.saved, h.contiguous, h.depth_le, h.peak_le⟩
  · rw [heq]
    exact h.apply small allowed

/-- The frames of a machine stay in order whatever is asked of it. -/
theorem Reachable.framed (small : img.Small) (h : m.Reachable img limits) : m.Framed limits :=
  h.preserves (framed_start small) (fun _ h => h.step small) fun _ h => h.reset small

/-! ## Accesses -/

/-- Every register that an instruction can name is in the file, in the frame and in the window. -/
theorem Framed.index_lt (h : m.Framed limits) (r : UInt8) :
    m.base + r.toNat < m.registers.size ∧ m.window r < m.registers.size := by
  have hr := r.toNat_lt
  have := h.room
  have := h.reservation_le
  unfold window
  omega

/-- Set a register, if there is such a register. -/
def writeChecked (m : Machine) (index : Nat) (value : Int64) : Option (Except FaultKind Effect) :=
  if index < m.registers.size then some (.ok (.write index value)) else none

/-- Compute with two registers of the frame and set a third, if there are such registers. -/
def computeChecked (m : Machine) (i : Instruction) (f : Int64 → Int64 → Except FaultKind Int64) :
    Option (Except FaultKind Effect) := do
  let x ← m.registers[m.base + i.a.toNat]?
  let y ← m.registers[m.base + i.b.toNat]?
  match f x y with
  | .error e => some (.error e)
  | .ok value => m.writeChecked (m.base + i.c.toNat) value

/-- Copy a register, if there are such registers. -/
def copyChecked (m : Machine) (src dst : Nat) : Option (Except FaultKind Effect) := do
  m.writeChecked dst (← m.registers[src]?)

/-- What an instruction does when each access to a register is checked: nothing at all if one of
them is outside the file. -/
def planChecked (img : Image) (limits : Limits) (m : Machine) (op : Opcode) (i : Instruction) :
    Option (Except FaultKind Effect) :=
  match op with
  | .addi => m.computeChecked i fun x y => .ok (x + y)
  | .subi => m.computeChecked i fun x y => .ok (x - y)
  | .muli => m.computeChecked i fun x y => .ok (x * y)
  | .divi => m.computeChecked i quotient
  | .gt => m.computeChecked i fun x y => .ok (if y < x then 1 else 0)
  | .loadi =>
    match m.constant img i.constIndex with
    | .error e => some (.error e)
    | .ok word => m.writeChecked (m.base + i.a.toNat) word.toInt64
  | .jmpc =>
    match m.jumpTarget img i.constIndex with
    | .error e => some (.error e)
    | .ok target => do
      let x ← m.registers[m.base + i.a.toNat]?
      return .ok (if x = 0 then .jump target else .proceed)
  | .mov =>
    match i.moveMode? with
    | none => some (.error (.invalidMoveMode i.c))
    | some .frame => m.copyChecked (m.base + i.a.toNat) (m.base + i.b.toNat)
    | some .toWindow => m.copyChecked (m.base + i.a.toNat) (m.window i.b)
    | some .fromWindow => m.copyChecked (m.window i.a) (m.base + i.b.toNat)
  | .halt => do
    let _ ← m.registers[0]?
    return .ok .stop
  | .nop | .calli | .calle | .lcalli | .lcalle | .ret | .jmp => some (m.plan img limits op i)

theorem getElem?_registers {index : Nat} (h : index < m.registers.size) :
    m.registers[index]? = some (m.register index) := by
  simp [register, Array.getD, h]

theorem writeChecked_eq {index : Nat} (h : index < m.registers.size) (value : Int64) :
    m.writeChecked index value = some (.ok (.write index value)) := if_pos h

theorem Framed.computeChecked_eq (h : m.Framed limits) (i : Instruction)
    (f : Int64 → Int64 → Except FaultKind Int64) :
    m.computeChecked i f =
      match f (m.reg i.a) (m.reg i.b) with
      | .error e => some (.error e)
      | .ok value => some (.ok (m.writeReg i.c value)) := by
  have frame (r : UInt8) := (h.index_lt r).1
  simp only [computeChecked, getElem?_registers (frame _), Option.bind_eq_bind, Option.bind_some,
    writeChecked_eq (frame _), reg, writeReg]

theorem copyChecked_eq {src dst : Nat} (hsrc : src < m.registers.size)
    (hdst : dst < m.registers.size) :
    m.copyChecked src dst = some (.ok (.write dst (m.register src))) := by
  simp only [copyChecked, getElem?_registers hsrc, Option.bind_eq_bind, Option.bind_some,
    writeChecked_eq hdst]

/-- Where all frames have room, no access of any instruction is outside the file. -/
theorem Framed.planChecked_eq (h : m.Framed limits) (op : Opcode) (i : Instruction) :
    m.planChecked img limits op i = some (m.plan img limits op i) := by
  have frame (r : UInt8) := (h.index_lt r).1
  have window (r : UInt8) := (h.index_lt r).2
  cases op with
  | addi | subi | muli | gt => simp only [planChecked, h.computeChecked_eq, plan]
  | divi =>
    simp only [planChecked, h.computeChecked_eq, plan]
    cases quotient (m.reg i.a) (m.reg i.b) <;> rfl
  | loadi =>
    simp only [planChecked, plan]
    cases m.constant img i.constIndex with
    | error e => rfl
    | ok word => exact writeChecked_eq (frame _) _
  | jmpc =>
    simp only [planChecked, plan, reg, getElem?_registers (frame _)]
    cases m.jumpTarget img i.constIndex <;> rfl
  | mov =>
    simp only [planChecked, plan, planMove]
    cases i.moveMode? with
    | none => rfl
    | some mode =>
      cases mode with
      | frame => exact copyChecked_eq (frame _) (frame _)
      | toWindow => exact copyChecked_eq (frame _) (window _)
      | fromWindow => exact copyChecked_eq (window _) (frame _)
  | halt =>
    have first : 0 < m.registers.size := by
      have := h.room
      omega
    simp only [planChecked, getElem?_registers first, plan]
    rfl
  | nop | calli | calle | lcalli | lcalle | ret | jmp => rfl

/-- On any image of built modules and whatever is asked of a machine, its frames are in order, and
no instruction with any operands finds a register outside the file. -/
theorem registers_safe {ms : List Module} (built : ∀ module ∈ ms, module.Built)
    (linked : Image.link ms = .ok img) (reachable : m.Reachable img limits) :
    m.Framed limits ∧ ∀ op i, m.planChecked img limits op i = some (m.plan img limits op i) := by
  have framed := reachable.framed (Image.small_of_link built linked)
  exact ⟨framed, framed.planChecked_eq⟩

/-- A module that calls itself over and over, and writes the end of its window before each call. -/
def restless : Module :=
  .ofParts "restless" #[⟨"again", some 0, [.int], 7⟩] #[]
    #[⟨14, 255, 255, 1⟩, ⟨1, 0, 0, 0⟩, ⟨14, 255, 255, 2⟩, ⟨200, 1, 2, 3⟩]

/-- Limits with room for three calls of it. -/
def restlessLimits : Limits where
  registerFileSize := 1024

/-- A machine that ran, was reset and has taken four steps since. Two calls are pending. -/
def restlessMachine (img : Image) : Machine :=
  [.run 5, .reset, .step, .step, .step, .step].foldl (act img restlessLimits)
    (start img restlessLimits)

theorem registers_safe_restless :
    ∃ img : Image, (∀ module ∈ [restless], module.Built) ∧ Image.link [restless] = .ok img ∧
      (restlessMachine img).Reachable img restlessLimits ∧
      (restlessMachine img).stack = #[⟨2, 0, 0, 0⟩, ⟨2, 0, 0, 256⟩] ∧
      (restlessMachine img).base = 256 ∧
      (restlessMachine img).Framed restlessLimits ∧
        ∀ op i, (restlessMachine img).planChecked img restlessLimits op i =
          some ((restlessMachine img).plan img restlessLimits op i) := by
  have built : ∀ module ∈ [restless], module.Built := by
    intro module h
    rw [List.mem_singleton.1 h]
    exact .ofParts _ _ _ _
  have evaluated : (Image.link [restless]).toOption.map (fun img =>
      ((restlessMachine img).stack, (restlessMachine img).base)) =
        some (#[⟨2, 0, 0, 0⟩, ⟨2, 0, 0, 256⟩], 256) := by decide +kernel
  cases linked : Image.link [restless] with
  | error e =>
    rw [linked] at evaluated
    cases evaluated
  | ok img =>
    rw [linked] at evaluated
    obtain ⟨stack, base⟩ := Prod.mk.inj (Option.some.inj evaluated)
    have reachable : (restlessMachine img).Reachable img restlessLimits := ⟨_, rfl⟩
    have ⟨framed, checked⟩ := registers_safe built linked reachable
    exact ⟨img, built, rfl, reachable, stack, base, framed, checked⟩

end Machine

end RegLisp
