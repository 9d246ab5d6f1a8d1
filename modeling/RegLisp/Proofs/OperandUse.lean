import RegLisp.Proofs.StepEffects

/-!
# Registers that instructions use

Which registers an instruction reads and writes, and where control goes behind it, said by its
opcode and operands alone. In a machine an instruction does no more than that: it writes the
registers that it is said to write, and what it does depends on the registers that it is said to
read. So two machines that agree on these do the same, and agree on what was written.
-/

namespace RegLisp

namespace Instruction

/-- The registers of its frame that an instruction reads. -/
def reads (i : Instruction) : List Nat :=
  match i.op? with
  | some .addi | some .subi | some .muli | some .divi | some .gt => [i.a.toNat, i.b.toNat]
  | some .jmpc => [i.a.toNat]
  | some .mov =>
    match i.moveMode? with
    | some .frame | some .toWindow => [i.a.toNat]
    | some .fromWindow | none => []
  | _ => []

/-- The registers of its frame that an instruction writes. -/
def writes (i : Instruction) : List Nat :=
  match i.op? with
  | some .addi | some .subi | some .muli | some .divi | some .gt => [i.c.toNat]
  | some .loadi => [i.a.toNat]
  | some .mov =>
    match i.moveMode? with
    | some .frame | some .fromWindow => [i.b.toNat]
    | some .toWindow | none => []
  | _ => []

/-- The registers of the window that an instruction reads. -/
def windowReads (i : Instruction) : List Nat :=
  match i.op?, i.moveMode? with
  | some .mov, some .fromWindow => [i.a.toNat]
  | _, _ => []

/-- Whether control can go on behind an instruction. Behind a call it does when the callee has
returned. -/
def falls (i : Instruction) : Bool :=
  i.op?.any fun op => op != .jmp && !op.isTailCall && !op.isTerminator

/-- Whether an instruction can send control to the address in a slot of the constant pool. -/
def jumps (i : Instruction) : Bool := i.op?.any Opcode.isJump

section

variable {i : Instruction} {op : Opcode}

theorem falls_eq (decoded : i.op? = some op) :
    i.falls = (op != .jmp && !op.isTailCall && !op.isTerminator) := by
  rw [falls, decoded, Option.any_some]

theorem jumps_eq (decoded : i.op? = some op) : i.jumps = op.isJump := by
  rw [jumps, decoded, Option.any_some]

end

end Instruction

namespace Machine

variable {img : Image} {limits : Limits} {m m' : Machine} {i : Instruction} {op : Opcode}

/-! ## What an instruction does -/

/-- The effects that an instruction can have in a state, by what it writes and where it leads. -/
inductive Performs (img : Image) (m : Machine) (i : Instruction) : Effect → Prop
  | write {r : Nat} {value : Int64} (writes_eq : i.writes = [r]) (falls : i.falls = true) :
      Performs img m i (.write (m.base + r) value)
  | writeWindow {r : UInt8} {value : Int64} (writes_eq : i.writes = []) (falls : i.falls = true) :
      Performs img m i (.write (m.window r) value)
  | proceed (writes_eq : i.writes = []) (falls : i.falls = true) : Performs img m i .proceed
  | jump {word : UInt64} (writes_eq : i.writes = []) (jumps : i.jumps = true)
      (found : img.constant m.module i.constIndex = some word) :
      Performs img m i (.jump (word.toNat + img.codeOffset m.module))
  | enter {callee : Callee} (writes_eq : i.writes = []) (falls : i.falls = true) :
      Performs img m i (.enter callee)
  /-- A return, a call in the frame of the caller, or the end of the program. -/
  | away {effect : Effect} (writes_eq : i.writes = []) (falls : i.falls = false)
      (jumps : i.jumps = false) : Performs img m i effect

theorem planCall_performs {external : Bool} {index : Nat} {effect : Effect}
    (writes_eq : i.writes = []) (falls : i.falls = true)
    (h : m.planCall img limits external index = .ok effect) : m.Performs img i effect := by
  unfold planCall at h
  repeat' split at h
  all_goals cases h
  exact .enter writes_eq falls

theorem planMove_performs {effect : Effect} (decoded : i.op? = some .mov)
    (h : m.planMove i = .ok effect) : m.Performs img i effect := by
  have falls : i.falls = true := Instruction.falls_eq decoded
  unfold planMove at h
  split at h <;> cases h
  · exact .write (by simp [Instruction.writes, *]) falls
  · exact .writeWindow (by simp [Instruction.writes, *]) falls
  · exact .write (by simp [Instruction.writes, *]) falls

theorem jumpTarget_eq_ok {index target : Nat} (h : m.jumpTarget img index = .ok target) :
    ∃ word, img.constant m.module index = some word ∧
      target = word.toNat + img.codeOffset m.module := by
  unfold jumpTarget constant at h
  cases found : img.constant m.module index with
  | none => simp [found] at h
  | some word =>
    simp only [found] at h
    split at h <;> cases h
    exact ⟨word, rfl, rfl⟩

/-- What an instruction does is what its opcode and operands say. -/
theorem plan_performs {effect : Effect} (decoded : i.op? = some op)
    (h : m.plan img limits op i = .ok effect) : m.Performs img i effect := by
  cases op with
  | mov => exact planMove_performs decoded h
  | calli | calle =>
    exact planCall_performs (by simp [Instruction.writes, decoded]) (Instruction.falls_eq decoded) h
  | lcalli | lcalle | ret | halt =>
    exact .away (by simp [Instruction.writes, decoded]) (Instruction.falls_eq decoded)
      (Instruction.jumps_eq decoded)
  | nop =>
    cases h
    exact .proceed (by simp [Instruction.writes, decoded]) (Instruction.falls_eq decoded)
  | addi | subi | muli | gt =>
    cases h
    exact .write (by simp [Instruction.writes, decoded]) (Instruction.falls_eq decoded)
  | divi | loadi =>
    simp only [plan] at h
    split at h <;> cases h
    exact .write (by simp [Instruction.writes, decoded]) (Instruction.falls_eq decoded)
  | jmp =>
    simp only [plan] at h
    split at h <;> cases h
    obtain ⟨word, found, rfl⟩ := jumpTarget_eq_ok ‹_›
    exact .jump (by simp [Instruction.writes, decoded]) (Instruction.jumps_eq decoded) found
  | jmpc =>
    have writes_eq : i.writes = [] := by simp [Instruction.writes, decoded]
    simp only [plan] at h
    split at h <;> cases h
    obtain ⟨word, found, rfl⟩ := jumpTarget_eq_ok ‹_›
    split
    · exact .jump writes_eq (Instruction.jumps_eq decoded) found
    · exact .proceed writes_eq (Instruction.falls_eq decoded)

/-! ## Machines that agree -/

/-- The machines are in the same state, but for registers that are not shown. -/
structure Agree (shown : Nat → Prop) (m m' : Machine) : Prop where
  rest_eq : m' = { m with registers := m'.registers }
  size_eq : m'.registers.size = m.registers.size
  shown_eq : ∀ x, shown x → m'.registers[x]? = m.registers[x]?

/-- Where the registers that an instruction reads lie in the file. -/
def sources (m : Machine) (i : Instruction) : List Nat :=
  i.reads.map (m.base + ·) ++ i.windowReads.map (m.base + m.reservation + ·)

namespace Agree

variable {shown shown' : Nat → Prop}

theorem mono (h : Agree shown m m') (sub : ∀ x, shown' x → shown x) : Agree shown' m m' :=
  ⟨h.rest_eq, h.size_eq, fun x seen => h.shown_eq x (sub x seen)⟩

theorem register_eq (h : Agree shown m m') {x : Nat} (seen : shown x) :
    m'.register x = m.register x := by
  simp only [register, Array.getD_eq_getD_getElem?, h.shown_eq x seen]

/-- Machines that agree on the sources of an instruction make the same of it. -/
theorem plan_eq (h : Agree shown m m') (decoded : i.op? = some op)
    (seen : ∀ x ∈ m.sources i, shown x) : m'.plan img limits op i = m.plan img limits op i := by
  have base_eq : m'.base = m.base := by rw [h.rest_eq]
  have reservation_eq : m'.reservation = m.reservation := by rw [h.rest_eq]
  have module_eq : m'.module = m.module := by rw [h.rest_eq]
  have stack_eq : m'.stack = m.stack := by rw [h.rest_eq]
  have read : ∀ r : UInt8, r.toNat ∈ i.reads → m'.reg r = m.reg r := by
    intro r mem
    rw [reg, reg, base_eq]
    exact h.register_eq (seen _ (List.mem_append_left _ (List.mem_map_of_mem mem)))
  have readWindow : ∀ r : UInt8, r.toNat ∈ i.windowReads →
      m'.register (m'.window r) = m.register (m.window r) := by
    intro r mem
    rw [window, window, base_eq, reservation_eq]
    exact h.register_eq (seen _ (List.mem_append_right _ (List.mem_map_of_mem mem)))
  cases op with
  | nop | halt => rfl
  | calli | calle =>
    simp only [plan, planCall, callee, module_eq, stack_eq, base_eq, reservation_eq, h.size_eq]
  | lcalli | lcalle => simp only [plan, planTailCall, callee, module_eq]
  | ret => simp only [plan, stack_eq]
  | loadi => simp only [plan, constant, writeReg, module_eq, base_eq]
  | jmp => simp only [plan, jumpTarget, constant, module_eq]
  | jmpc =>
    simp only [plan, jumpTarget, constant, module_eq,
      read i.a (by simp [Instruction.reads, decoded])]
  | addi | subi | muli | divi | gt =>
    simp only [plan, writeReg, base_eq, read i.a (by simp [Instruction.reads, decoded]),
      read i.b (by simp [Instruction.reads, decoded])]
  | mov =>
    simp only [plan, planMove, writeReg]
    split
    · rfl
    · rw [base_eq, read i.a (by simp [Instruction.reads, *])]
    · rw [window, window, base_eq, reservation_eq, read i.a (by simp [Instruction.reads, *])]
    · rw [base_eq, readWindow i.a (by simp [Instruction.windowReads, *])]

/-- What both machines write, they agree on. -/
theorem apply_write (h : Agree shown m m') (index : Nat) (value : Int64) :
    Agree (fun x => shown x ∨ x = index) (m.apply (.write index value))
      (m'.apply (.write index value)) where
  rest_eq := by
    rw [h.rest_eq]
    rfl
  size_eq := by simpa [Machine.apply] using h.size_eq
  shown_eq x seen := by
    simp only [Machine.apply, Array.getElem?_setIfInBounds, h.size_eq]
    by_cases same : index = x
    · simp only [same, ↓reduceIte]
    · rw [if_neg same, if_neg same]
      exact h.shown_eq x (seen.resolve_right (Ne.symm same))

/-- One effect keeps machines in agreement. -/
theorem apply (h : Agree shown m m') (effect : Effect) :
    Agree shown (m.apply effect) (m'.apply effect) := by
  cases effect with
  | write index value => exact (h.apply_write index value).mono fun _ seen => .inl seen
  | proceed | jump | enter | reenter | leave | stop =>
    refine ⟨?_, h.size_eq, h.shown_eq⟩
    rw [h.rest_eq]
    rfl

end Agree

/-- The machines are at the same point of a run. -/
structure SamePoint (m m' : Machine) : Prop where
  status_eq : m'.status = m.status
  steps_eq : m'.steps = m.steps
  pc_eq : m'.pc = m.pc

/-- Whether an instruction is executed, and which one, depends on the point of the run alone. -/
theorem step_branch (img : Image) (limits : Limits) (m : Machine) :
    (∀ m', SamePoint m m' → m'.step img limits = (m', .done m'.result)) ∨
      (∃ kind byte, ∀ m', SamePoint m m' → m'.step img limits = m'.stopOn kind byte) ∨
        ∃ i op, img.code[m.pc]? = some i ∧ i.op? = some op ∧
          ∀ m', SamePoint m m' → m'.step img limits = m'.execute img limits op i := by
  cases status : m.status with
  | halted =>
    left
    intro m' same
    simp only [step, same.status_eq, status]
  | faulted =>
    refine .inr (.inl ⟨.notRunning, none, fun m' same => ?_⟩)
    simp only [step, same.status_eq, status]
  | running =>
    right
    by_cases spent : limits.maxSteps ≠ 0 ∧ limits.maxSteps ≤ m.steps
    · refine .inl ⟨.stepLimit limits.maxSteps, none, fun m' same => ?_⟩
      simp only [step, same.status_eq, status, same.steps_eq, if_pos spent]
    cases fetched : img.code[m.pc]? with
    | none =>
      refine .inl ⟨.pcOutOfBounds, none, fun m' same => ?_⟩
      simp only [step, same.status_eq, status, same.steps_eq, if_neg spent, same.pc_eq, fetched]
    | some i =>
      cases decoded : i.op? with
      | none =>
        refine .inl ⟨.invalidOpcode i.opcode, some i.opcode, fun m' same => ?_⟩
        simp only [step, same.status_eq, status, same.steps_eq, if_neg spent, same.pc_eq, fetched,
          decoded]
      | some op =>
        refine .inr ⟨i, op, rfl, decoded, fun m' same => ?_⟩
        simp only [step, same.status_eq, status, same.steps_eq, if_neg spent, same.pc_eq, fetched,
          decoded]

theorem execute_of_error {kind : FaultKind} (planned : m.plan img limits op i = .error kind) :
    (m.execute img limits op i).1 = { m with steps := m.steps + 1, status := .faulted } := by
  rw [execute, planned]
  rfl

theorem execute_of_ok {effect : Effect} (planned : m.plan img limits op i = .ok effect) :
    (m.execute img limits op i).1 = m.apply effect := by
  rw [execute, planned]
  cases effect <;> rfl

/-- Two machines do the same in a step: what the instruction says, or nothing. -/
inductive Alike (img : Image) (limits : Limits) (m m' : Machine) : Prop
  | stay (steps : Nat) (status : Status) (left : (m.step img limits).1 = { m with steps, status })
      (right : (m'.step img limits).1 = { m' with steps, status })
  | perform {i : Instruction} {effect : Effect} (fetched : img.code[m.pc]? = some i)
      (performs : m.Performs img i effect) (left : (m.step img limits).1 = m.apply effect)
      (right : (m'.step img limits).1 = m'.apply effect)

theorem Alike.agree {shown : Nat → Prop} (alike : Alike img limits m m') (h : Agree shown m m') :
    Agree shown (m.step img limits).1 (m'.step img limits).1 := by
  cases alike with
  | stay steps status left right =>
    rw [left, right]
    refine ⟨?_, h.size_eq, h.shown_eq⟩
    rw [h.rest_eq]
  | perform fetched performs left right =>
    rw [left, right]
    exact h.apply _

/-- Machines that agree on the sources of the next instruction step alike. -/
theorem Agree.step {shown : Nat → Prop} (h : Agree shown m m') (limits : Limits)
    (seen : ∀ i, img.code[m.pc]? = some i → ∀ x ∈ m.sources i, shown x) :
    Alike img limits m m' := by
  have same : SamePoint m m' := by
    rw [h.rest_eq]
    exact ⟨rfl, rfl, rfl⟩
  have itself : SamePoint m m := ⟨rfl, rfl, rfl⟩
  rcases step_branch img limits m with
    halted | ⟨kind, byte, stops⟩ | ⟨i, op, fetched, decoded, executes⟩
  · refine .stay m.steps m.status ?_ ?_
    · rw [halted m itself]
    · rw [halted m' same, ← same.steps_eq, ← same.status_eq]
  · refine .stay m.steps .faulted ?_ ?_
    · rw [stops m itself]
      rfl
    · rw [stops m' same, ← same.steps_eq]
      rfl
  · have left := executes m itself
    have right := executes m' same
    have plan_eq : m'.plan img limits op i = m.plan img limits op i :=
      h.plan_eq decoded (seen i fetched)
    cases planned : m.plan img limits op i with
    | error kind =>
      rw [planned] at plan_eq
      refine .stay (m.steps + 1) .faulted ?_ ?_
      · rw [left, execute_of_error planned]
      · rw [right, execute_of_error plan_eq, same.steps_eq]
    | ok effect =>
      rw [planned] at plan_eq
      refine .perform fetched (plan_performs decoded planned) ?_ ?_
      · rw [left, execute_of_ok planned]
      · rw [right, execute_of_ok plan_eq]

end Machine

end RegLisp
