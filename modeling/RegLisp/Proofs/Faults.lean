import RegLisp.Proofs.StepEffects

/-!
# Faults

A step that faults changes nothing but the status of the machine and, once the instruction is
known, the count of instructions. This is not only due to `plan` and `apply` being apart: an
instruction that works on the machine in place, one field after the other, with the count and the
program counter already moved on, finds every fault before it has changed anything. A machine that
has stopped, by a fault or by the end of its program, stays as it is until it is reset.
-/

namespace RegLisp

namespace Machine

variable {img : Image} {limits : Limits} {m : Machine}

/-! ## Instructions in place -/

/-- Work on a machine in place. What is changed before a fault stays changed. -/
abbrev InPlace := EStateM FaultKind Machine

namespace InPlace

/-- Read the machine, and fail if what is looked for is not there. -/
def look {α : Type} (read : Machine → Except FaultKind α) : InPlace α := fun m =>
  match read m with
  | .error kind => .error kind m
  | .ok a => .ok a m

def setReg (r : UInt8) (value : Int64) : InPlace Unit :=
  modify fun m => { m with registers := m.registers.setIfInBounds (m.base + r.toNat) value }

def setWindow (r : UInt8) (value : Int64) : InPlace Unit :=
  modify fun m => { m with registers := m.registers.setIfInBounds (m.window r) value }

/-- Compute with two registers of the frame and set a third. -/
def compute (i : Instruction) (f : Int64 → Int64 → Int64) : InPlace Unit := do
  let x := (← get).reg i.a
  let y := (← get).reg i.b
  setReg i.c (f x y)

/-- Continue in a callee. -/
def goTo (callee : Callee) : InPlace Unit := do
  modify ({ · with reservation := callee.reservation })
  modify ({ · with module := callee.module })
  modify ({ · with pc := callee.address })

/-- Push the caller, and continue in a callee behind its frame. -/
def enter (callee : Callee) : InPlace Unit := do
  let base := (← get).base + (← get).reservation
  modify fun m => { m with stack := m.stack.push ⟨m.pc, m.base, m.module, m.reservation⟩ }
  modify fun m => { m with peak := max m.peak m.stack.size }
  modify ({ · with base })
  goTo callee

def call (img : Image) (limits : Limits) (external : Bool) (index : Nat) : InPlace Unit := do
  let callee ← look (·.callee img external index)
  let m ← get
  if limits.maxCallStack ≤ m.stack.size ∨
      m.registers.size < m.base + m.reservation + minRegisters then
    throw .stackOverflow
  else enter callee

/-- Take the latest caller from the stack, which may be empty. -/
def popCaller : InPlace (Option Frame) := do
  let latest := (← get).stack.back?
  modify fun m => { m with stack := m.stack.pop }
  return latest

def leave : InPlace Unit := do
  match ← popCaller with
  | none => throw .returnWithEmptyStack
  | some caller =>
    modify ({ · with pc := caller.returnPc })
    modify ({ · with base := caller.base })
    modify ({ · with module := caller.module })
    modify ({ · with reservation := caller.reservation })

def move (i : Instruction) : InPlace Unit := do
  match i.moveMode? with
  | none => throw (.invalidMoveMode i.c)
  | some .frame => setReg i.b ((← get).reg i.a)
  | some .toWindow => setWindow i.b ((← get).reg i.a)
  | some .fromWindow =>
    let m ← get
    setReg i.b (m.register (m.window i.a))

/-- Execute an instruction in place, behind which the program counter already stands. The value is
the result of the program if it ends here. -/
def perform (img : Image) (limits : Limits) (op : Opcode) (i : Instruction) :
    InPlace (Option Int64) := do
  match op with
  | .nop => pure ()
  | .calli => call img limits false i.callIndex
  | .calle => call img limits true i.callIndex
  | .lcalli => goTo (← look (·.callee img false i.callIndex))
  | .lcalle => goTo (← look (·.callee img true i.callIndex))
  | .ret => leave
  | .addi => compute i (· + ·)
  | .subi => compute i (· - ·)
  | .muli => compute i (· * ·)
  | .divi => setReg i.c (← look fun m => quotient (m.reg i.a) (m.reg i.b))
  | .gt => compute i fun x y => if y < x then 1 else 0
  | .loadi => setReg i.a (← look (·.constant img i.constIndex)).toInt64
  | .jmpc =>
    let target ← look (·.jumpTarget img i.constIndex)
    if (← get).reg i.a = 0 then modify ({ · with pc := target })
  | .jmp =>
    let target ← look (·.jumpTarget img i.constIndex)
    modify ({ · with pc := target })
  | .mov => move i
  | .halt =>
    modify ({ · with status := .halted })
    return some (← get).result
  return none

end InPlace

/-- The machine with the instruction at its program counter counted and passed. -/
def passed (m : Machine) : Machine := { m with pc := m.pc + 1, steps := m.steps + 1 }

/-- Execute a decoded instruction in place. On a fault the program counter is set back, and nothing
else is. -/
def executeInPlace (img : Image) (limits : Limits) (m : Machine) (op : Opcode) (i : Instruction) :
    Machine × Flow :=
  match InPlace.perform img limits op i m.passed with
  | .ok none m' => (m', .next)
  | .ok (some result) m' => (m', .done result)
  | .error kind m' => { m' with pc := m.pc }.stopOn kind (some i.opcode)

namespace InPlace

/-- What an instruction does in place if it is planned as given: all of the effect, or a fault and
nothing else. -/
def outcome (m : Machine) :
    Except FaultKind Effect → EStateM.Result FaultKind Machine (Option Int64)
  | .error kind => .error kind m.passed
  | .ok .stop => .ok (some m.result) (m.apply .stop)
  | .ok effect => .ok none (m.apply effect)

theorem bind_of_ok {α β : Type} {x : InPlace α} {a : α} {m' : Machine} (h : x m = .ok a m')
    (next : α → InPlace β) : (x >>= next) m = next a m' := by
  simp only [bind, EStateM.bind, h]

theorem bind_look {α β : Type} {read : Machine → Except FaultKind α} (next : α → InPlace β) :
    (look read >>= next) m =
      match read m with
      | .error kind => .error kind m
      | .ok a => next a m := by
  cases found : read m <;> simp [look, found, bind, EStateM.bind]

theorem bind_get {α : Type} (next : Machine → InPlace α) : (get >>= next) m = next m m := rfl

theorem enter_passed (callee : Callee) :
    enter callee m.passed = .ok () (m.apply (.enter callee)) := by
  have size : (m.stack.push ⟨m.pc + 1, m.base, m.module, m.reservation⟩).size =
      m.stack.size + 1 := Array.size_push _
  simp only [apply, ← size]
  rfl

/-- A call looks for its callee and for room before it pushes the caller. -/
theorem call_eq (external : Bool) (index : Nat) :
    (call img limits external index >>= fun _ => pure none) m.passed =
      outcome m (m.planCall img limits external index) := by
  have same : m.passed.callee img external index = m.callee img external index := rfl
  simp only [call, bind_assoc, bind_look, bind_get, planCall, same]
  cases m.callee img external index with
  | error kind => rfl
  | ok callee =>
    dsimp only
    by_cases room : m.stack.size < limits.maxCallStack ∧
        m.base + m.reservation + minRegisters ≤ m.registers.size
    · rw [if_neg (by simp only [passed]; omega), if_pos room, bind_of_ok (enter_passed callee)]
      rfl
    · rw [if_pos (by simp only [passed]; omega), if_neg room]
      rfl

theorem tailCall_eq (external : Bool) (index : Nat) :
    (look (·.callee img external index) >>= fun callee => goTo callee >>= fun _ => pure none)
        m.passed = outcome m (m.planTailCall img external index) := by
  have same : m.passed.callee img external index = m.callee img external index := rfl
  simp only [bind_look, planTailCall, same]
  cases m.callee img external index <;> rfl

/-- A return takes the caller from the stack before it knows that there is one: what it takes from
an empty stack is nothing. -/
theorem leave_eq :
    (leave >>= fun _ => pure none) m.passed =
      outcome m
        (match m.stack.back? with
        | none => .error .returnWithEmptyStack
        | some caller => .ok (.leave caller)) := by
  have popped : popCaller m.passed =
      .ok m.stack.back? { m.passed with stack := m.stack.pop } := rfl
  rw [leave, bind_assoc, bind_of_ok popped]
  cases latest : m.stack.back? with
  | none =>
    -- the one change before a fault, and it changes nothing
    have empty : m.stack.pop = m.stack := by rw [Array.back?_eq_none_iff.1 latest]; rfl
    rw [empty]
    rfl
  | some caller => rfl

theorem perform_eq (op : Opcode) (i : Instruction) :
    perform img limits op i m.passed = outcome m (m.plan img limits op i) := by
  cases op with
  | nop | addi | subi | muli | gt | halt => rfl
  | calli => exact call_eq false i.callIndex
  | calle => exact call_eq true i.callIndex
  | lcalli => exact tailCall_eq false i.callIndex
  | lcalle => exact tailCall_eq true i.callIndex
  | ret => exact leave_eq
  | divi =>
    have same (r : UInt8) : m.passed.reg r = m.reg r := rfl
    simp only [perform, bind_look, plan, same]
    cases quotient (m.reg i.a) (m.reg i.b) <;> rfl
  | loadi =>
    have same : m.passed.constant img i.constIndex = m.constant img i.constIndex := rfl
    simp only [perform, bind_look, plan, same]
    cases m.constant img i.constIndex <;> rfl
  | jmpc =>
    have same : m.passed.jumpTarget img i.constIndex = m.jumpTarget img i.constIndex := rfl
    have same' : m.passed.reg i.a = m.reg i.a := rfl
    simp only [perform, bind_look, bind_get, plan, same, same']
    cases m.jumpTarget img i.constIndex with
    | error kind => rfl
    | ok target =>
      dsimp only
      split <;> rfl
  | jmp =>
    have same : m.passed.jumpTarget img i.constIndex = m.jumpTarget img i.constIndex := rfl
    simp only [perform, bind_look, plan, same]
    cases m.jumpTarget img i.constIndex <;> rfl
  | mov =>
    simp only [perform, move, plan, planMove]
    cases i.moveMode? with
    | none => rfl
    | some mode => cases mode <;> rfl

end InPlace

/-- Working in place and working by plan come to the same. -/
theorem executeInPlace_eq (op : Opcode) (i : Instruction) :
    m.executeInPlace img limits op i = m.execute img limits op i := by
  rw [executeInPlace, InPlace.perform_eq, execute]
  cases m.plan img limits op i with
  | error kind => rfl
  | ok effect => cases effect <;> rfl

/-! ## A step that faults -/

end Machine

/-- The faults that arise before there is an instruction to execute. -/
def FaultKind.isEarly : FaultKind → Bool
  | stepLimit _ | pcOutOfBounds | invalidOpcode _ => true
  | _ => false

namespace Machine

variable {img : Image} {limits : Limits} {m : Machine}

/-- The count has not reached its limit, and there is an instruction that can be decoded. -/
def Decodes (img : Image) (limits : Limits) (m : Machine) : Prop :=
  ¬ (limits.maxSteps ≠ 0 ∧ limits.maxSteps ≤ m.steps) ∧
    ∃ i op, img.code[m.pc]? = some i ∧ i.op? = some op

/-- What a step from `m` that faults leaves. -/
structure Faults (img : Image) (limits : Limits) (m m' : Machine) (cause : Fault) : Prop where
  /-- Registers, stack, program counter, frame, module and peak are those of `m`. -/
  kept : m' = { m with status := .faulted, steps := m'.steps }
  address_eq : cause.address = m.pc
  counted : m.Decodes img limits → m'.steps = m.steps + 1 ∧ cause.kind.isEarly = false
  uncounted : ¬ m.Decodes img limits → m'.steps = m.steps ∧ cause.kind.isEarly = true

theorem callee_error {external : Bool} {index : Nat} {kind : FaultKind}
    (h : m.callee img external index = .error kind) : kind.isEarly = false := by
  unfold callee at h
  split at h <;> cases h
  rfl

theorem constant_error {index : Nat} {kind : FaultKind}
    (h : m.constant img index = .error kind) : kind.isEarly = false := by
  unfold constant at h
  split at h <;> cases h
  rfl

theorem jumpTarget_error {index : Nat} {kind : FaultKind}
    (h : m.jumpTarget img index = .error kind) : kind.isEarly = false := by
  unfold jumpTarget at h
  split at h
  · cases h
    exact constant_error ‹_›
  · dsimp only at h
    split at h <;> cases h
    rfl

theorem quotient_error {x y : Int64} {kind : FaultKind} (h : quotient x y = .error kind) :
    kind.isEarly = false := by
  unfold quotient at h
  repeat' split at h
  all_goals cases h
  all_goals rfl

theorem planCall_error {external : Bool} {index : Nat} {kind : FaultKind}
    (h : m.planCall img limits external index = .error kind) : kind.isEarly = false := by
  unfold planCall at h
  split at h
  · cases h
    exact callee_error ‹_›
  · split at h <;> cases h
    rfl

theorem planTailCall_error {external : Bool} {index : Nat} {kind : FaultKind}
    (h : m.planTailCall img external index = .error kind) : kind.isEarly = false := by
  unfold planTailCall at h
  split at h <;> cases h
  exact callee_error ‹_›

/-- The faults of an instruction are those of its execution. -/
theorem plan_error {op : Opcode} {i : Instruction} {kind : FaultKind}
    (h : m.plan img limits op i = .error kind) : kind.isEarly = false := by
  cases op with
  | nop | addi | subi | muli | gt | halt => cases h
  | calli | calle => exact planCall_error h
  | lcalli | lcalle => exact planTailCall_error h
  | ret =>
    simp only [plan] at h
    split at h <;> cases h
    rfl
  | divi =>
    simp only [plan] at h
    split at h <;> cases h
    exact quotient_error ‹_›
  | loadi =>
    simp only [plan] at h
    split at h <;> cases h
    exact constant_error ‹_›
  | jmpc | jmp =>
    simp only [plan] at h
    split at h <;> cases h
    exact jumpTarget_error ‹_›
  | mov =>
    simp only [plan, planMove] at h
    split at h <;> cases h
    rfl

/-- A step faults early, or by executing an instruction. -/
theorem faults_of_step {m' : Machine} {cause : Fault} (running : m.status = .running)
    (h : m.step img limits = (m', .fault cause)) : m.Faults img limits m' cause := by
  simp only [step, running] at h
  split at h
  · rename_i reached
    cases h
    exact ⟨rfl, rfl, fun decodes => absurd reached decodes.1, fun _ => ⟨rfl, rfl⟩⟩
  · rename_i below
    split at h
    · rename_i outside
      cases h
      refine ⟨rfl, rfl, ?_, fun _ => ⟨rfl, rfl⟩⟩
      rintro ⟨-, i, op, fetched, -⟩
      rw [outside] at fetched
      cases fetched
    · rename_i i fetched
      split at h
      · rename_i unknown
        cases h
        refine ⟨rfl, rfl, ?_, fun _ => ⟨rfl, rfl⟩⟩
        rintro ⟨-, i', op, fetched', known⟩
        rw [fetched, Option.some.injEq] at fetched'
        rw [← fetched', unknown] at known
        cases known
      · rename_i op known
        have decodes : m.Decodes img limits := ⟨below, i, op, fetched, known⟩
        unfold execute at h
        split at h
        · rename_i kind planned
          cases h
          exact ⟨rfl, rfl, fun _ => ⟨rfl, plan_error planned⟩, fun not => absurd decodes not⟩
        · cases h
        · cases h

/-! ## Machines that have stopped -/

/-- How a step ends that gives the given answer. -/
def answering : Except Fault Int64 → Flow
  | .ok result => .done result
  | .error cause => .fault cause

/-- What a machine answers once it has stopped with the given answer: a result again, or that it
is not running. -/
def repeated : Except Fault Int64 → Except Fault Int64
  | .ok result => .ok result
  | .error cause => .error ⟨.notRunning, cause.address, none⟩

/-- The machine stays as it is and gives the same answer, whatever is asked of it except a
reset. -/
structure Stopped (img : Image) (limits : Limits) (m : Machine) (answer : Except Fault Int64) :
    Prop where
  kept : ∀ actions : List Action, .reset ∉ actions → actions.foldl (act img limits) m = m
  step_eq : m.step img limits = (m, answering answer)
  run_eq : ∀ fuel, m.run img limits (fuel + 1) = (m, some answer)

theorem run_of_step {m' : Machine} {answer : Except Fault Int64}
    (h : m.step img limits = (m', answering answer)) (fuel : Nat) :
    m.run img limits (fuel + 1) = (m', some answer) := by
  rw [run, h]
  cases answer <;> rfl

/-- A machine that a step leaves as it is has stopped. -/
theorem stopped_of_step {answer : Except Fault Int64}
    (h : m.step img limits = (m, answering answer)) : m.Stopped img limits answer where
  step_eq := h
  run_eq := run_of_step h
  kept := by
    intro actions
    induction actions with
    | nil => exact fun _ => rfl
    | cons action actions ih =>
      intro noReset
      rw [List.mem_cons, not_or] at noReset
      have same : m.act img limits action = m := by
        cases action with
        | step => rw [act, h]
        | run fuel =>
          cases fuel with
          | zero => rfl
          | succ fuel => rw [act, run_of_step h]
        | reset => exact absurd rfl noReset.1
      rw [List.foldl_cons, same]
      exact ih noReset.2

theorem step_of_faulted (faulted : m.status = .faulted) :
    m.step img limits = (m, .fault ⟨.notRunning, m.pc, none⟩) := by
  obtain ⟨registers, stack, pc, base, reservation, module, status, steps, peak⟩ := m
  cases faulted
  rfl

theorem step_of_halted (halted : m.status = .halted) :
    m.step img limits = (m, .done m.result) := by
  simp only [step, halted]

/-- A fault leaves the machine faulted at the address of the fault. -/
theorem faulted_of_step {m' : Machine} {cause : Fault}
    (h : m.step img limits = (m', .fault cause)) :
    m'.status = .faulted ∧ m'.pc = cause.address := by
  cases status : m.status with
  | running =>
    have faults := faults_of_step status h
    rw [faults.address_eq, faults.kept]
    exact ⟨rfl, rfl⟩
  | halted =>
    rw [step_of_halted status] at h
    cases h
  | faulted =>
    rw [step_of_faulted status] at h
    cases h
    exact ⟨status, rfl⟩

/-- The end of a program leaves the machine halted, with the result still in its register. -/
theorem halted_of_step {m' : Machine} {result : Int64}
    (h : m.step img limits = (m', .done result)) : m'.status = .halted ∧ m'.result = result := by
  unfold step at h
  split at h
  · rename_i halted
    cases h
    exact ⟨halted, rfl⟩
  · cases h
  · split at h
    · cases h
    · split at h
      · cases h
      · split at h
        · cases h
        · unfold execute at h
          split at h
          · cases h
          · cases h
            exact ⟨rfl, rfl⟩
          · cases h

/-- A step that gives an answer stops the machine. -/
theorem stopped_after_step {m' : Machine} {answer : Except Fault Int64}
    (h : m.step img limits = (m', answering answer)) :
    m'.Stopped img limits (repeated answer) := by
  apply stopped_of_step
  cases answer with
  | ok result =>
    obtain ⟨halted, rfl⟩ := halted_of_step h
    exact step_of_halted halted
  | error cause =>
    obtain ⟨faulted, address⟩ := faulted_of_step h
    rw [repeated, ← address]
    exact step_of_faulted faulted

/-- A run that gives an answer stops the machine. -/
theorem stopped_after_run {fuel : Nat} {answer : Except Fault Int64} :
    ∀ {m m' : Machine}, m.run img limits fuel = (m', some answer) →
      m'.Stopped img limits (repeated answer) := by
  induction fuel with
  | zero => exact fun h => by cases h
  | succ fuel ih =>
    intro m m' h
    rw [run] at h
    split at h
    · exact ih h
    · rename_i stepped
      cases h
      exact stopped_after_step stepped
    · rename_i stepped
      cases h
      exact stopped_after_step stepped

/-- Faults are atomic, also for instructions that work in place, and stopping is final. A step of a
running machine that faults keeps all of the machine except its status and the count, which grows
if and only if there was an instruction to execute. Once a step or a run has given an answer, the
machine stays as it is and repeats its answer until it is reset. -/
theorem faults_atomic_and_final (img : Image) (limits : Limits) (m : Machine) :
    (∀ op i, m.executeInPlace img limits op i = m.execute img limits op i) ∧
      (∀ m' cause, m.status = .running → m.step img limits = (m', .fault cause) →
        m.Faults img limits m' cause) ∧
      (∀ m' answer, m.step img limits = (m', answering answer) →
        m'.Stopped img limits (repeated answer)) ∧
      (∀ fuel m' answer, m.run img limits fuel = (m', some answer) →
        m'.Stopped img limits (repeated answer)) ∧
      (m.reset img).status = .running :=
  ⟨executeInPlace_eq, fun _ _ => faults_of_step, fun _ _ => stopped_after_step,
    fun _ _ _ => stopped_after_run, rfl⟩

/-- A call of a function that divides by a register nothing was written to. -/
def dividing : Image where
  functions := #[⟨"divide", 2, 0, 4, [.int]⟩]
  constants := #[7]
  code := #[⟨1, 0, 0, 0⟩, ⟨15, 0, 0, 0⟩, ⟨11, 1, 0, 0⟩, ⟨9, 1, 2, 3⟩]
  modules := #[⟨"dividing", {}, 1, 1, 4, 0⟩]

theorem faults_atomic_and_final_dividing :
    ∃ (limits : Limits) (m m' : Machine), m.Reachable dividing limits ∧
      m.status = .running ∧ m.depth = 1 ∧
      m.step dividing limits = (m', .fault ⟨.divisionByZero, 3, some 9⟩) ∧
      m' = { m with status := .faulted, steps := 3 } ∧
      m'.Stopped dividing limits (.error ⟨.notRunning, 3, none⟩) := by
  let small : Limits := { registerFileSize := 600 }
  let m := (start dividing small).act dividing small (.run 2)
  have running : m.status = .running := by decide +kernel
  have steps : m.steps = 2 := by decide +kernel
  have divides : (m.step dividing small).2 = .fault ⟨.divisionByZero, 3, some 9⟩ := by
    decide +kernel
  have stepped : m.step dividing small =
      ((m.step dividing small).1, .fault ⟨.divisionByZero, 3, some 9⟩) := by rw [← divides]
  have ⟨_, atomic, final, _⟩ := faults_atomic_and_final dividing small m
  have faults := atomic _ _ running stepped
  have decodes : m.Decodes dividing small :=
    ⟨by decide +kernel, ⟨9, 1, 2, 3⟩, .divi, by decide +kernel, rfl⟩
  have kept := faults.kept
  rw [(faults.counted decodes).1, steps] at kept
  exact ⟨small, m, _, ⟨[.run 2], rfl⟩, running, by decide +kernel, stepped, kept,
    final _ (.error _) stepped⟩

end Machine

end RegLisp
