import RegLisp.Proofs.RegisterSafety

/-!
# Limits only cut runs short

A machine with more registers and wider limits does the same steps as a machine without, until
the latter reaches one of its limits. So every other end of a run is its end under all wider limits
too. A run without a limit on its steps is the run with any limit that it does not reach.
-/

namespace RegLisp

/-- The second limits are as wide as the first ones. -/
structure Limits.Within (l l' : Limits) : Prop where
  registerFileSize_le : l.registerFileSize ≤ l'.registerFileSize
  maxCallStack_le : l.maxCallStack ≤ l'.maxCallStack
  maxSteps_le : l'.maxSteps = 0 ∨ l.maxSteps ≠ 0 ∧ l.maxSteps ≤ l'.maxSteps

/-- A fault that is due to the limits of a run. -/
def Fault.AtLimit (cause : Fault) : Prop :=
  cause.kind = .stackOverflow ∨ ∃ limit, cause.kind = .stepLimit limit

namespace Machine

variable {img : Image} {l l' : Limits} {m : Machine}

/-- Add registers at the end of the file. -/
def extend (m : Machine) (more : Array Int64) : Machine :=
  { m with registers := m.registers ++ more }

/-! ## One step -/

theorem register_extend {index : Nat} (h : index < m.registers.size) (more : Array Int64) :
    (m.extend more).register index = m.register index := by
  simp only [register, extend, Array.getD_eq_getD_getElem?, Array.getElem?_append_left h]

theorem Framed.reg_extend (framed : m.Framed l) (more : Array Int64) (r : UInt8) :
    (m.extend more).reg r = m.reg r := register_extend (framed.index_lt r).1 more

theorem Framed.register_window_extend (framed : m.Framed l) (more : Array Int64) (r : UInt8) :
    (m.extend more).register (m.window r) = m.register (m.window r) :=
  register_extend (framed.index_lt r).2 more

theorem planCall_extend (within : l.Within l') (more : Array Int64) (external : Bool)
    (index : Nat) :
    m.planCall img l external index = .error .stackOverflow ∨
      (m.extend more).planCall img l' external index = m.planCall img l external index := by
  have same : (m.extend more).callee img external index = m.callee img external index := rfl
  simp only [planCall, same]
  cases m.callee img external index with
  | error e => exact .inr rfl
  | ok callee =>
    by_cases room : m.stack.size < l.maxCallStack ∧
        m.base + m.reservation + minRegisters ≤ m.registers.size
    · right
      have room' : (m.extend more).stack.size < l'.maxCallStack ∧
          (m.extend more).base + (m.extend more).reservation + minRegisters ≤
            (m.extend more).registers.size := by
        have := within.maxCallStack_le
        simp only [extend, Array.size_append]
        omega
      simp only [if_pos room, if_pos room']
    · exact .inl (if_neg room)

/-- What an instruction does depends neither on the limits nor on the registers behind those that
a frame can reach, unless it finds no room for a call. -/
theorem Framed.plan_extend (framed : m.Framed l) (within : l.Within l') (more : Array Int64)
    (op : Opcode) (i : Instruction) :
    m.plan img l op i = .error .stackOverflow ∨
      (m.extend more).plan img l' op i = m.plan img l op i := by
  cases op with
  | calli | calle => exact planCall_extend within more _ _
  | addi | subi | muli | divi | gt =>
    right
    simp only [plan, framed.reg_extend]
    rfl
  | jmpc =>
    right
    simp only [plan, framed.reg_extend]
    rfl
  | mov =>
    right
    have window (r : UInt8) : (m.extend more).window r = m.window r := rfl
    simp only [plan, planMove, framed.reg_extend, window, framed.register_window_extend]
    rfl
  | nop | lcalli | lcalle | ret | loadi | jmp | halt => exact .inr rfl

theorem Framed.apply_extend (framed : m.Framed l) {effect : Effect}
    (allowed : m.Allows img l effect) (more : Array Int64) :
    (m.extend more).apply effect = (m.apply effect).extend more := by
  cases allowed with
  | write r value =>
    simp only [Machine.apply, extend, Array.setIfInBounds_append_left (framed.index_lt r).1]
  | writeWindow r value =>
    simp only [Machine.apply, extend, Array.setIfInBounds_append_left (framed.index_lt r).2]
  | proceed | jump | enter | reenter | leave | stop => rfl

theorem Framed.result_extend (framed : m.Framed l) (more : Array Int64) :
    (m.extend more).result = m.result :=
  register_extend (by have := framed.room; omega) more

theorem Framed.execute_extend (framed : m.Framed l) (within : l.Within l') (more : Array Int64)
    (op : Opcode) (i : Instruction) :
    (∃ cause, (m.execute img l op i).2 = .fault cause ∧ cause.AtLimit) ∨
      (m.extend more).execute img l' op i =
        ((m.execute img l op i).1.extend more, (m.execute img l op i).2) := by
  simp only [execute]
  rcases framed.plan_extend within more op i with overflow | same
  · left
    rw [overflow]
    exact ⟨_, rfl, .inl rfl⟩
  · right
    rw [same]
    cases planned : m.plan img l op i with
    | error kind => rfl
    | ok effect =>
      have applied := framed.apply_extend (plan_allows planned) more
      cases effect with
      | stop => simp only [applied, framed.result_extend]
      | proceed | write | jump | enter | reenter | leave => simp only [applied]

/-- A step does not depend on the limits unless it is at one of them. -/
theorem Framed.step_extend (img : Image) (framed : m.Framed l) (within : l.Within l')
    (more : Array Int64) :
    (∃ cause, (m.step img l).2 = .fault cause ∧ cause.AtLimit) ∨
      (m.extend more).step img l' = ((m.step img l).1.extend more, (m.step img l).2) := by
  have status_eq : (m.extend more).status = m.status := rfl
  have pc_eq : (m.extend more).pc = m.pc := rfl
  simp only [Machine.step, status_eq, pc_eq]
  cases m.status with
  | halted =>
    right
    simp only [framed.result_extend]
  | faulted => exact .inr rfl
  | running =>
    by_cases reached : l.maxSteps ≠ 0 ∧ l.maxSteps ≤ m.steps
    · left
      simp only [if_pos reached]
      exact ⟨_, rfl, .inr ⟨_, rfl⟩⟩
    · have notReached : ¬ (l'.maxSteps ≠ 0 ∧ l'.maxSteps ≤ (m.extend more).steps) := by
        have := within.maxSteps_le
        simp only [extend]
        omega
      simp only [if_neg reached, if_neg notReached]
      cases img.code[m.pc]? with
      | none => exact .inr rfl
      | some i =>
        dsimp only
        cases i.op? with
        | none => exact .inr rfl
        | some op => exact framed.execute_extend within more op i

/-! ## Whole runs -/

/-- A run does not depend on the limits unless it ends at one of them. -/
theorem Framed.run_extend (small : img.Small) (within : l.Within l') (more : Array Int64)
    (fuel : Nat) : ∀ {m : Machine}, m.Framed l →
      (∃ cause, (m.run img l fuel).2 = some (.error cause) ∧ cause.AtLimit) ∨
        (m.extend more).run img l' fuel =
          ((m.run img l fuel).1.extend more, (m.run img l fuel).2) := by
  induction fuel with
  | zero => exact fun _ => .inr rfl
  | succ fuel ih =>
    intro m framed
    have after := framed.step small
    simp only [run]
    rcases framed.step_extend img within more with ⟨cause, faulted, atLimit⟩ | same
    · left
      cases stepped : m.step img l with
      | mk m₁ flow =>
        rw [stepped] at faulted
        cases faulted
        exact ⟨cause, rfl, atLimit⟩
    · rw [same]
      cases stepped : m.step img l with
      | mk m₁ flow =>
        rw [stepped] at after
        cases flow with
        | next => exact ih after
        | done result => exact .inr rfl
        | fault cause => exact .inr rfl

theorem start_extend (img : Image) (within : l.Within l') :
    ∃ more, start img l' = (start img l).extend more := by
  have le := within.registerFileSize_le
  have sum : max l'.registerFileSize minRegisters = max l.registerFileSize minRegisters +
      (max l'.registerFileSize minRegisters - max l.registerFileSize minRegisters) := by
    omega
  refine ⟨Array.replicate
    (max l'.registerFileSize minRegisters - max l.registerFileSize minRegisters) 0, ?_⟩
  simp only [start, extend, Array.replicate_append_replicate]
  rw [← sum]

end Machine

/-- The outcome of a run does not depend on the limits unless it is at one of them. -/
theorem Image.run_within {img : Image} (small : img.Small) {l l' : Limits} (within : l.Within l')
    (fuel : Nat) :
    (∃ cause, img.run l fuel = some (.error cause) ∧ cause.AtLimit) ∨
      img.run l' fuel = img.run l fuel := by
  obtain ⟨more, extended⟩ := Machine.start_extend img within
  rcases (Machine.framed_start small).run_extend small within more fuel with atLimit | same
  · exact .inl atLimit
  · right
    rw [Image.run, extended, same]
    rfl

/-! ## Counting steps -/

namespace Machine

variable {img : Image} {l : Limits} {m : Machine}

theorem steps_apply (m : Machine) (effect : Effect) : (m.apply effect).steps = m.steps + 1 := by
  cases effect <;> rfl

/-- A machine that can go on has counted one instruction. -/
theorem steps_of_step {m' : Machine} (h : m.step img l = (m', .next)) :
    m'.steps = m.steps + 1 := by
  obtain ⟨-, effect, -, rfl⟩ := exists_effect_of_next h
  exact steps_apply m effect

/-- A limit on the steps that is not reached makes no difference. -/
theorem run_maxSteps (limit fuel : Nat) : ∀ {m : Machine}, m.steps + fuel ≤ limit →
    m.run img { l with maxSteps := limit } fuel = m.run img { l with maxSteps := 0 } fuel := by
  induction fuel with
  | zero => exact fun _ => rfl
  | succ fuel ih =>
    intro m below
    have same : m.step img { l with maxSteps := limit } =
        m.step img { l with maxSteps := 0 } := by
      unfold step
      have notReached : ¬ (limit ≠ 0 ∧ limit ≤ m.steps) := by omega
      simp only [ne_eq, notReached, not_true_eq_false, false_and, ↓reduceIte]
      rfl
    simp only [run, same]
    cases stepped : m.step img { l with maxSteps := 0 } with
    | mk m₁ flow =>
      cases flow with
      | next =>
        have := steps_of_step stepped
        exact ih (by omega)
      | done result => rfl
      | fault cause => rfl

/-- A run that has ended is not continued. -/
theorem run_add_of_ended {fuel : Nat} {outcome : Except Fault Int64} :
    ∀ {m : Machine}, (m.run img l fuel).2 = some outcome →
      ∀ more, m.run img l (fuel + more) = m.run img l fuel := by
  induction fuel with
  | zero => exact nofun
  | succ fuel ih =>
    intro m ended more
    rw [Nat.add_right_comm]
    simp only [run] at ended ⊢
    cases stepped : m.step img l with
    | mk m₁ flow =>
      rw [stepped] at ended
      cases flow with
      | next => exact ih ended more
      | done result => rfl
      | fault cause => rfl

/-! ## Ends of runs -/

/-- A step counts one instruction or none, and none when the count has reached its limit. -/
theorem steps_step (img : Image) (l : Limits) (m : Machine) :
    (m.step img l).1.steps = m.steps ∨
      (l.maxSteps = 0 ∨ m.steps < l.maxSteps) ∧ (m.step img l).1.steps = m.steps + 1 := by
  unfold step
  split
  · exact .inl rfl
  · exact .inl rfl
  · split
    · exact .inl rfl
    · rename_i notReached
      have below : l.maxSteps = 0 ∨ m.steps < l.maxSteps := by omega
      split
      · exact .inl rfl
      · split
        · exact .inl rfl
        · refine .inr ⟨below, ?_⟩
          unfold execute
          split
          · rfl
          · exact steps_apply _ _
          · exact steps_apply _ _

theorem steps_step_le (img : Image) (bounded : l.maxSteps ≠ 0) (below : m.steps ≤ l.maxSteps) :
    (m.step img l).1.steps ≤ l.maxSteps := by
  rcases steps_step img l m with same | ⟨notReached, counted⟩
  · omega
  · omega

/-- A run with a limit on its steps ends before it has fuel for one more. -/
theorem run_ends_of_maxSteps (img : Image) (bounded : l.maxSteps ≠ 0) (fuel : Nat) :
    ∀ {m : Machine}, m.steps ≤ l.maxSteps → l.maxSteps < m.steps + fuel →
      ∃ outcome, (m.run img l fuel).2 = some outcome := by
  induction fuel with
  | zero =>
    intro m below enough
    omega
  | succ fuel ih =>
    intro m below enough
    have after := steps_step_le img bounded below
    simp only [run]
    cases stepped : m.step img l with
    | mk m₁ flow =>
      rw [stepped] at after
      cases flow with
      | next =>
        have counted := steps_of_step stepped
        exact ih after (by omega)
      | done result => exact ⟨_, rfl⟩
      | fault cause => exact ⟨_, rfl⟩

/-- On any image of built modules, a run that does not end at a limit ends in the same way under
all wider limits, after as many instructions, at the same depth and with the same greatest depth.
A run with a limit on its steps ends, and it never executes more instructions than that. -/
theorem limits_cut_runs_short {ms : List Module} (built : ∀ module ∈ ms, module.Built)
    (linked : Image.link ms = .ok img) :
    (∀ l l' : Limits, l.Within l' → ∀ fuel m outcome,
      (start img l).run img l fuel = (m, some outcome) →
      (∀ cause, outcome = .error cause → ¬ cause.AtLimit) →
      ∃ m', (start img l').run img l' fuel = (m', some outcome) ∧
        m'.steps = m.steps ∧ m'.depth = m.depth ∧ m'.peak = m.peak) ∧
    ∀ l : Limits, l.maxSteps ≠ 0 →
      (∃ fuel m outcome, (start img l).run img l fuel = (m, some outcome)) ∧
        ∀ fuel, ((start img l).run img l fuel).1.steps ≤ l.maxSteps := by
  have small := Image.small_of_link built linked
  constructor
  · intro l l' within fuel m outcome ended notAtLimit
    obtain ⟨more, extended⟩ := start_extend img within
    rcases (framed_start small).run_extend small within more fuel with
      ⟨cause, faulted, atLimit⟩ | same
    · rw [ended, Option.some.injEq] at faulted
      exact absurd atLimit (notAtLimit cause faulted)
    · rw [ended] at same
      exact ⟨m.extend more, by rw [extended, same], rfl, rfl, rfl⟩
  · intro l bounded
    have below : (start img l).steps ≤ l.maxSteps := Nat.zero_le _
    constructor
    · obtain ⟨outcome, ended⟩ :=
        run_ends_of_maxSteps img bounded (l.maxSteps + 1) below (by omega)
      exact ⟨_, _, outcome, Prod.ext rfl ended⟩
    · intro fuel
      refine run_preserves (P := fun m => m.steps ≤ l.maxSteps) ?_ fuel _ below
      exact fun m => steps_step_le img bounded

/-- A module that calls a function for its result. -/
def errand : Module :=
  .ofParts "errand" #[⟨"seven", some 3, [.int], 0⟩] #[7]
    #[⟨1, 0, 0, 0⟩, ⟨14, 0, 0, 2⟩, ⟨15, 0, 0, 0⟩, ⟨11, 0, 0, 0⟩, ⟨5, 0, 0, 0⟩]

theorem limits_cut_runs_short_errand :
    ∃ (img : Image) (m m' : Machine),
      (∀ module ∈ [errand], module.Built) ∧ Image.link [errand] = .ok img ∧
        Limits.Within ⟨600, 1, 5, false⟩ ⟨700, 2, 9, true⟩ ∧
        (start img ⟨600, 1, 5, false⟩).run img ⟨600, 1, 5, false⟩ 5 = (m, some (.ok 7)) ∧
        (start img ⟨700, 2, 9, true⟩).run img ⟨700, 2, 9, true⟩ 5 = (m', some (.ok 7)) ∧
        m'.steps = m.steps ∧ m'.depth = m.depth ∧ m'.peak = m.peak := by
  have built : ∀ module ∈ [errand], module.Built := by
    intro module h
    rw [List.mem_singleton.1 h]
    exact .ofParts _ _ _ _
  have ends : (Image.link [errand]).toOption.any (fun img =>
      ((start img ⟨600, 1, 5, false⟩).run img ⟨600, 1, 5, false⟩ 5).2 = some (.ok 7)) = true := by
    decide +kernel
  have within : Limits.Within ⟨600, 1, 5, false⟩ ⟨700, 2, 9, true⟩ :=
    ⟨by decide, by decide, by decide⟩
  cases linked : Image.link [errand] with
  | error e => simp [linked, Except.toOption] at ends
  | ok img =>
    have ended :
        ((start img ⟨600, 1, 5, false⟩).run img ⟨600, 1, 5, false⟩ 5).2 = some (.ok 7) := by
      simpa [linked, Except.toOption] using ends
    obtain ⟨m', same⟩ := (limits_cut_runs_short built linked).1 _ _ within 5 _ (.ok 7)
      (Prod.ext rfl ended) nofun
    exact ⟨img, _, m', built, rfl, within, Prod.ext rfl ended, same⟩

end Machine

end RegLisp
