import RegLisp.Proofs.CodeRanges
import RegLisp.Proofs.Faults
import RegLisp.Proofs.FrameIsolation
import RegLisp.Proofs.OperandUse
import RegLisp.Proofs.RegisterSafety

/-!
# How far instructions reach

An instruction is looked at twice. The size of a frame is derived from the shapes of opcodes, and a
machine goes by the opcodes themselves. Both mean the same registers: the greatest one by the shape
is the greatest one that is read or written. Beyond it there is only the window, into which a `mov`
passes an argument and out of which it fetches a result. So a function that runs in a frame of its
own size writes nothing behind that frame, apart from the arguments that it passes.
-/

namespace RegLisp

/-! ## Registers by shape and by opcode -/

namespace Instruction

variable {i : Instruction}

/-- The greatest register by the shape of an instruction is the greatest one that it uses. -/
theorem maxLocalRegister_eq_max? (i : Instruction) :
    i.maxLocalRegister = (i.reads ++ i.writes).max? := by
  unfold maxLocalRegister reads writes
  cases i.op? with
  | none => rfl
  | some op =>
    cases op with
    | mov =>
      cases i.moveMode? with
      | none => rfl
      | some mode => cases mode <;> rfl
    | nop | calli | calle | lcalli | lcalle | ret | addi | subi | muli | divi | gt | loadi | jmpc
    | jmp | halt => rfl

theorem exists_maxLocalRegister {r : Nat} (mem : r ∈ i.reads ++ i.writes) :
    ∃ top, i.maxLocalRegister = some top ∧ r ≤ top := by
  rw [maxLocalRegister_eq_max?]
  obtain ⟨top, found⟩ := Option.isSome_iff_exists.1 (List.isSome_max?_of_mem mem)
  exact ⟨top, found, (List.max?_eq_some_iff.1 found).2 r mem⟩

end Instruction

namespace Machine

variable {img : Image} {limits : Limits} {m m' : Machine} {i : Instruction} {op : Opcode} {x : Nat}

/-- A register of the current frame, up to the greatest one that an instruction names there. -/
def Local (m : Machine) (i : Instruction) (x : Nat) : Prop :=
  ∃ top k, i.maxLocalRegister = some top ∧ k ≤ top ∧ x = m.base + k

/-- The register of the window that an instruction passes an argument in. -/
def Passes (m : Machine) (i : Instruction) (x : Nat) : Prop :=
  i.op? = some .mov ∧ i.moveMode? = some .toWindow ∧ x = m.window i.b

/-- The register of the window that an instruction fetches a result from. -/
def Fetches (m : Machine) (i : Instruction) (x : Nat) : Prop :=
  i.op? = some .mov ∧ i.moveMode? = some .fromWindow ∧ x = m.window i.a

theorem local_of_mem {r : Nat} (mem : r ∈ i.reads ++ i.writes) : m.Local i (m.base + r) := by
  obtain ⟨top, named, le⟩ := Instruction.exists_maxLocalRegister mem
  exact ⟨top, r, named, le, rfl⟩

/-- What an instruction reads is local or in the window. -/
theorem of_mem_sources (mem : x ∈ m.sources i) : m.Local i x ∨ m.Fetches i x := by
  rcases List.mem_append.1 mem with mem | mem
  · obtain ⟨r, read, rfl⟩ := List.mem_map.1 mem
    exact .inl (local_of_mem (List.mem_append_left _ read))
  · obtain ⟨r, read, rfl⟩ := List.mem_map.1 mem
    unfold Instruction.windowReads at read
    split at read
    · rename_i decoded mode
      rw [List.mem_singleton.1 read]
      exact .inr ⟨decoded, mode, rfl⟩
    · cases read

/-- An instruction that names no register of its frame does not use the window either. -/
theorem not_reached (none_eq : i.maxLocalRegister = none) :
    ¬ m.Local i x ∧ ¬ m.Passes i x ∧ ¬ m.Fetches i x := by
  refine ⟨?_, ?_, ?_⟩
  · rintro ⟨top, k, named, -⟩
    rw [none_eq] at named
    cases named
  · rintro ⟨decoded, mode, -⟩
    simp [Instruction.maxLocalRegister, decoded, mode, Opcode.shape] at none_eq
  · rintro ⟨decoded, mode, -⟩
    simp [Instruction.maxLocalRegister, decoded, mode, Opcode.shape] at none_eq

/-! ## Effects by operands -/

/-- The effects that an instruction can ask for. A register is set only as an operand says, and
only `halt` ends the program. -/
inductive Asks (m : Machine) (i : Instruction) : Effect → Prop
  | write {r : Nat} {value : Int64} (written : r ∈ i.writes) : Asks m i (.write (m.base + r) value)
  | pass {x : Nat} {value : Int64} (passes : m.Passes i x) : Asks m i (.write x value)
  | stop (halts : i.op? = some .halt) : Asks m i .stop
  | proceed : Asks m i .proceed
  | jump {target : Nat} : Asks m i (.jump target)
  | enter {callee : Callee} : Asks m i (.enter callee)
  | reenter {callee : Callee} : Asks m i (.reenter callee)
  | leave {caller : Frame} : Asks m i (.leave caller)

theorem planMove_asks {effect : Effect} (decoded : i.op? = some .mov)
    (h : m.planMove i = .ok effect) : m.Asks i effect := by
  unfold planMove at h
  split at h <;> cases h
  · exact .write (by simp [Instruction.writes, *])
  · exact .pass ⟨decoded, ‹_›, rfl⟩
  · exact .write (by simp [Instruction.writes, *])

theorem plan_asks {effect : Effect} (decoded : i.op? = some op)
    (h : m.plan img limits op i = .ok effect) : m.Asks i effect := by
  cases op with
  | mov => exact planMove_asks decoded h
  | calli | calle =>
    obtain ⟨callee, rfl⟩ := planCall_enters h
    exact .enter
  | lcalli | lcalle =>
    simp only [plan, planTailCall] at h
    split at h <;> cases h
    exact .reenter
  | ret =>
    simp only [plan] at h
    split at h <;> cases h
    exact .leave
  | nop =>
    cases h
    exact .proceed
  | halt =>
    cases h
    exact .stop decoded
  | addi | subi | muli | gt =>
    cases h
    exact .write (by simp [Instruction.writes, decoded])
  | divi | loadi =>
    simp only [plan] at h
    split at h <;> cases h
    exact .write (by simp [Instruction.writes, decoded])
  | jmp =>
    simp only [plan] at h
    split at h <;> cases h
    exact .jump
  | jmpc =>
    simp only [plan] at h
    split at h <;> cases h
    split
    · exact .jump
    · exact .proceed

/-! ## Registers that a step sets -/

/-- The next step sets a register of the file: its instruction asks for that, and it is done. -/
def Sets (img : Image) (limits : Limits) (m : Machine) (x : Nat) : Prop :=
  ∃ i op value, img.code[m.pc]? = some i ∧ i.op? = some op ∧
    m.plan img limits op i = .ok (.write x value) ∧
    m.step img limits = (m.apply (.write x value), .next)

/-- What is set is local or in the window. -/
theorem Sets.reached (h : m.Sets img limits x) (fetched : img.code[m.pc]? = some i) :
    m.Local i x ∨ m.Passes i x := by
  obtain ⟨j, op, value, found, decoded, planned, -⟩ := h
  obtain rfl : i = j := Option.some.inj (fetched.symm.trans found)
  cases plan_asks decoded planned with
  | write written => exact .inl (local_of_mem (List.mem_append_right _ written))
  | pass passes => exact .inr passes

/-- A step that ends the program or faults sets nothing. -/
theorem not_sets {m₁ : Machine} {flow : Flow} (step_eq : m.step img limits = (m₁, flow))
    (ends : flow ≠ .next) : ¬ m.Sets img limits x := by
  rintro ⟨i, op, value, -, -, -, stepped⟩
  rw [step_eq] at stepped
  exact ends (Prod.mk.inj stepped).2

/-- A step that executes an instruction sets what its plan says. -/
theorem sets_iff_of_execute (fetched : img.code[m.pc]? = some i) (decoded : i.op? = some op)
    (step_eq : m.step img limits = m.execute img limits op i) :
    m.Sets img limits x ↔ ∃ value, m.plan img limits op i = .ok (.write x value) := by
  constructor
  · rintro ⟨j, op', value, found, decoded', planned, -⟩
    obtain rfl : i = j := Option.some.inj (fetched.symm.trans found)
    obtain rfl : op = op' := Option.some.inj (decoded.symm.trans decoded')
    exact ⟨value, planned⟩
  · rintro ⟨value, planned⟩
    exact ⟨i, op, value, fetched, decoded, planned,
      step_eq.trans (execute_of_goes planned Effect.noConfusion)⟩

/-- A register that a step does not set is as it was. -/
theorem kept_of_not_sets (unset : ¬ m.Sets img limits x) :
    (m.step img limits).1.registers[x]? = m.registers[x]? := by
  have itself : SamePoint m m := ⟨rfl, rfl, rfl⟩
  rcases step_branch img limits m with
    halted | ⟨kind, byte, stops⟩ | ⟨i, op, fetched, decoded, executes⟩
  · rw [halted m itself]
  · rw [stops m itself]
    rfl
  · have step_eq := executes m itself
    cases planned : m.plan img limits op i with
    | error kind => rw [step_eq, execute_of_error planned]
    | ok effect =>
      rw [step_eq, execute_of_ok planned]
      cases effect with
      | write index value =>
        have other : index ≠ x := by
          rintro rfl
          exact unset ((sets_iff_of_execute fetched decoded step_eq).2 ⟨value, planned⟩)
        exact Array.getElem?_setIfInBounds_ne other
      | proceed | jump | enter | reenter | leave | stop => rfl

/-! ## Registers that a step depends on -/

/-- Two machines do the same in a step that comes to an instruction: the same with all but the
registers, and they set the same registers to the same values. They answer the same too, but for
the result that a program ends with. -/
structure SameStep (img : Image) (limits : Limits) (i : Instruction) (m m' : Machine) : Prop where
  rest_eq : (m'.step img limits).1 =
    { (m.step img limits).1 with registers := (m'.step img limits).1.registers }
  sets_iff : ∀ x, m'.Sets img limits x ↔ m.Sets img limits x
  set_eq : ∀ x, m.Sets img limits x →
    (m'.step img limits).1.registers[x]? = (m.step img limits).1.registers[x]?
  flow_eq : m'.result = m.result ∨ m.status = .running ∧ i.op? ≠ some .halt →
    (m'.step img limits).2 = (m.step img limits).2

/-- Steps that end the program or fault are the same if they leave the same and answer the same. -/
theorem SameStep.of_ends {m₁ m₁' : Machine} {flow flow' : Flow}
    (left : m.step img limits = (m₁, flow)) (right : m'.step img limits = (m₁', flow'))
    (ends : flow ≠ .next) (ends' : flow' ≠ .next)
    (rest_eq : m₁' = { m₁ with registers := m₁'.registers })
    (flow_eq : m'.result = m.result ∨ m.status = .running ∧ i.op? ≠ some .halt → flow' = flow) :
    SameStep img limits i m m' where
  rest_eq := by rwa [left, right]
  sets_iff _ := iff_of_false (not_sets right ends') (not_sets left ends)
  set_eq _ sets := absurd sets (not_sets left ends)
  flow_eq := by rwa [left, right]

/-- Machines that execute an instruction on whose sources they agree do the same. -/
theorem Agree.sameStep_of_execute {shown : Nat → Prop} (h : Agree shown m m')
    (fetched : img.code[m.pc]? = some i) (decoded : i.op? = some op)
    (seen : ∀ x ∈ m.sources i, shown x) (left : m.step img limits = m.execute img limits op i)
    (right : m'.step img limits = m'.execute img limits op i) : SameStep img limits i m m' := by
  have pc_eq : m'.pc = m.pc := by rw [h.rest_eq]
  have plan_eq : m'.plan img limits op i = m.plan img limits op i := h.plan_eq decoded seen
  cases planned : m.plan img limits op i with
  | error kind =>
    rw [execute, planned] at left
    rw [execute, plan_eq, planned] at right
    refine .of_ends left right Flow.noConfusion Flow.noConfusion ?_ ?_
    · rw [h.rest_eq]
    · rw [pc_eq]
      exact fun _ => rfl
  | ok effect =>
    by_cases stops : effect = .stop
    · subst stops
      rw [execute, planned] at left
      rw [execute, plan_eq, planned] at right
      refine .of_ends left right Flow.noConfusion Flow.noConfusion (h.apply .stop).rest_eq ?_
      rintro (result_eq | ⟨-, goes⟩)
      · rw [result_eq]
      · cases plan_asks decoded planned with
        | stop halts => exact absurd halts goes
    · have sets_iff (x : Nat) := sets_iff_of_execute (x := x) fetched decoded left
      have sets_iff' (x : Nat) :=
        sets_iff_of_execute (x := x) (pc_eq ▸ fetched) decoded right
      rw [execute_of_goes planned stops] at left
      rw [execute_of_goes (plan_eq.trans planned) stops] at right
      refine ⟨?_, fun x => ?_, fun x sets => ?_, fun _ => ?_⟩
      · rw [left, right]
        exact (h.apply effect).rest_eq
      · rw [sets_iff, sets_iff', plan_eq]
      · obtain ⟨value, writes⟩ := (sets_iff x).1 sets
        obtain rfl := Except.ok.inj (planned.symm.trans writes)
        rw [left, right]
        exact (h.apply_write x value).shown_eq x (.inr rfl)
      · rw [left, right]

/-- Machines that agree on the sources of the next instruction do the same. -/
theorem Agree.sameStep {shown : Nat → Prop} (h : Agree shown m m')
    (fetched : img.code[m.pc]? = some i) (seen : ∀ x ∈ m.sources i, shown x) :
    SameStep img limits i m m' := by
  have same : SamePoint m m' := by
    rw [h.rest_eq]
    exact ⟨rfl, rfl, rfl⟩
  have itself : SamePoint m m := ⟨rfl, rfl, rfl⟩
  rcases step_branch img limits m with
    halted | ⟨kind, byte, stops⟩ | ⟨j, op, found, decoded, executes⟩
  · have left := halted m itself
    refine .of_ends left (halted m' same) Flow.noConfusion Flow.noConfusion h.rest_eq ?_
    rintro (result_eq | ⟨running, -⟩)
    · rw [result_eq]
    · have := (halted_of_step left).1
      rw [running] at this
      cases this
  · refine .of_ends (stops m itself) (stops m' same) Flow.noConfusion Flow.noConfusion ?_ ?_
    · rw [h.rest_eq]
    · rw [same.pc_eq]
      exact fun _ => rfl
  · obtain rfl : i = j := Option.some.inj (fetched.symm.trans found)
    exact h.sameStep_of_execute fetched decoded seen (executes m itself) (executes m' same)

end Machine

/-! ## Frames of functions -/

/-- The frames of a built module are measured on the code that runs in them. -/
theorem Module.Built.frameOf_eq {mod : Module} (built : mod.Built) :
    ∀ r ∈ mod.codeRanges, mod.frameOf r.owner = some (frameSize mod.code r.start r.stop) := by
  induction built with
  | ofParts name functions constants code =>
    exact fun r => frameOf_ofParts name functions constants code
  | decoded h =>
    obtain ⟨functions, constants, code, rfl⟩ := eq_ofParts_of_decode h
    exact fun r => frameOf_ofParts _ functions constants code
  | moved offsets _ ih => exact ih

/-- A frame has every register that the code of its section names. -/
theorem Module.Built.lt_reservation {mod : Module} (built : mod.Built) {r : CodeRange} {a n : Nat}
    {i : Instruction} (mem : r ∈ mod.codeRanges) (inside : a ∈ r.addresses)
    (found : mod.code[a]? = some i) (sized : mod.frameOf r.owner = some n) {top : Nat}
    (named : i.maxLocalRegister = some top) : top < n := by
  obtain ⟨start_le, lt_stop⟩ := CodeRange.mem_addresses.1 inside
  rw [built.frameOf_eq r mem, Option.some.injEq] at sized
  rw [← sized]
  exact lt_frameSize_of_fetch start_le lt_stop found named

namespace Machine

variable {img : Image} {limits : Limits} {m : Machine} {i : Instruction}

/-- A step that comes to an instruction keeps to the registers that the instruction names. -/
structure WithinReach (img : Image) (limits : Limits) (m : Machine) (i : Instruction) : Prop where
  /-- It sets local registers, and that of the window in which it passes an argument. -/
  reached : ∀ x, m.Sets img limits x → m.Local i x ∨ m.Passes i x
  kept : ∀ x, ¬ m.Sets img limits x →
    (m.step img limits).1.registers[x]? = m.registers[x]?
  /-- It depends on local registers, and on that of the window from which it fetches a result. -/
  depends : ∀ m', m.Agree (fun x => m.Local i x ∨ m.Fetches i x) m' → SameStep img limits i m m'
  /-- With no local register, it uses no register at all. -/
  untouched : i.maxLocalRegister = none →
    (∀ x, ¬ m.Sets img limits x) ∧ (m.step img limits).1.registers = m.registers ∧
      ∀ m', m.Agree (fun _ => False) m' → SameStep img limits i m m'
  /-- In a frame of the size that its section is given, it sets nothing behind the frame other than
  an argument that it passes. -/
  framed : ∀ (mod : Module) (r : CodeRange) (a : Nat), mod.Built → r ∈ mod.codeRanges →
    a ∈ r.addresses → mod.code[a]? = some i → mod.frameOf r.owner = some m.reservation →
      ∀ x, m.base + m.reservation ≤ x → m.Sets img limits x → m.Passes i x

/-- Whatever an instruction is, what a machine makes of it stays within the greatest register that
its frame is sized by. -/
theorem step_withinReach (fetched : img.code[m.pc]? = some i) : m.WithinReach img limits i where
  reached x sets := sets.reached fetched
  kept x := kept_of_not_sets
  depends m' agree := agree.sameStep fetched fun x => of_mem_sources
  untouched none_eq := by
    have unset (x : Nat) : ¬ m.Sets img limits x := by
      intro sets
      obtain ⟨not_local, not_passed, -⟩ := not_reached (m := m) (x := x) none_eq
      exact (sets.reached fetched).elim not_local not_passed
    refine ⟨unset, Array.ext_getElem? fun x => kept_of_not_sets (unset x), ?_⟩
    intro m' agree
    refine agree.sameStep fetched fun x source => ?_
    obtain ⟨not_local, -, not_fetched⟩ := not_reached (m := m) (x := x) none_eq
    exact (of_mem_sources source).elim not_local not_fetched
  framed mod r a built mem inside found sized x behind sets := by
    rcases sets.reached fetched with ⟨top, k, named, le, rfl⟩ | passes
    · have := built.lt_reservation mem inside found sized named
      omega
    · exact passes

/-- A function that passes its register three in register five of the window. -/
def sendingModule : Module :=
  .ofParts "sending" #[⟨"send", some 1, [], 0⟩] #[]
    #[.nullary .halt, .mov 3 5 .toWindow, .nullary .ret]

def sendingImage : Image where
  functions := #[⟨"send", 1, 0, 4, []⟩]
  constants := #[]
  code := sendingModule.code
  modules := #[sendingModule.span]

/-- A machine at the start of the function, whose frame is at register two, with something stale in
the frame of the caller. -/
def sendingMachine (stale : Int64) : Machine :=
  { registers := ((Array.replicate 520 0).setIfInBounds 5 7).setIfInBounds 1 stale
    stack := #[⟨0, 0, 0, 2⟩]
    pc := 1
    base := 2
    reservation := 4 }

theorem sending_agree (stale : Int64) :
    (sendingMachine 0).Agree
      (fun x => (sendingMachine 0).Local (.mov 3 5 .toWindow) x ∨
        (sendingMachine 0).Fetches (.mov 3 5 .toWindow) x) (sendingMachine stale) where
  rest_eq := by simp only [sendingMachine]
  size_eq := by simp only [sendingMachine, Array.size_setIfInBounds]
  shown_eq x seen := by
    have other : 1 ≠ x := by
      rcases seen with ⟨top, k, -, -, rfl⟩ | ⟨-, -, rfl⟩
      · simp only [sendingMachine]
        omega
      · simp only [sendingMachine, window]
        omega
    simp only [sendingMachine, Array.getElem?_setIfInBounds_ne other]

theorem step_withinReach_sending :
    sendingImage.code[1]? = some (.mov 3 5 .toWindow) ∧
      sendingModule.frameOf (some 0) = some 4 ∧
      (∀ x, 6 ≤ x → (sendingMachine 0).Sets sendingImage {} x → x = 11) ∧
      ∀ stale, ((sendingMachine stale).step sendingImage {}).1.registers[11]? = some 7 := by
  have fetched : sendingImage.code[(sendingMachine 0).pc]? = some (.mov 3 5 .toWindow) := by
    decide +kernel
  have within : (sendingMachine 0).WithinReach sendingImage {} (.mov 3 5 .toWindow) :=
    step_withinReach fetched
  refine ⟨fetched, by decide +kernel, fun x behind sets => ?_, fun stale => ?_⟩
  · have passes := within.framed sendingModule ⟨some 0, 1, 3⟩ 1 (.ofParts _ _ _ _)
      (by decide +kernel) (by decide +kernel) fetched (by decide +kernel) x behind sets
    exact passes.2.2
  · have same := within.depends _ (sending_agree stale)
    have executes : (sendingMachine 0).step sendingImage {} =
        (sendingMachine 0).execute sendingImage {} .mov (.mov 3 5 .toWindow) := by
      unfold step
      rw [fetched]
      rfl
    have sets : (sendingMachine 0).Sets sendingImage {} 11 :=
      (sets_iff_of_execute fetched rfl executes).2 ⟨7, by decide +kernel⟩
    rw [same.set_eq 11 sets]
    decide +kernel

end Machine

end RegLisp
