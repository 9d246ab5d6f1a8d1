import RegLisp.Machine.Step

/-!
# What a step can do

Every step either leaves all but the status and the count of instructions as it is, or applies one
effect that the state allows. What a run preserves is derived from this, without opening the
instructions again.
-/

namespace RegLisp.Machine

variable {img : Image} {limits : Limits} {m : Machine}

/-- The effects that instructions can have in a state. -/
inductive Allows (img : Image) (limits : Limits) (m : Machine) : Effect → Prop
  | proceed : Allows img limits m .proceed
  | write (r : UInt8) (value : Int64) : Allows img limits m (.write (m.base + r.toNat) value)
  | writeWindow (r : UInt8) (value : Int64) : Allows img limits m (.write (m.window r) value)
  | jump (target : Nat) : Allows img limits m (.jump target)
  | enter {external : Bool} {index : Nat} {callee : Callee}
      (found : m.callee img external index = .ok callee)
      (depth : m.stack.size < limits.maxCallStack)
      (room : m.base + m.reservation + minRegisters ≤ m.registers.size) :
      Allows img limits m (.enter callee)
  | reenter {external : Bool} {index : Nat} {callee : Callee}
      (found : m.callee img external index = .ok callee) : Allows img limits m (.reenter callee)
  | leave {caller : Frame} (latest : m.stack.back? = some caller) :
      Allows img limits m (.leave caller)
  | stop : Allows img limits m .stop

theorem planCall_allows {external : Bool} {index : Nat} {effect : Effect}
    (h : m.planCall img limits external index = .ok effect) : m.Allows img limits effect := by
  unfold planCall at h
  split at h
  · cases h
  · rename_i callee found
    split at h
    · rename_i room
      cases h
      exact .enter found room.1 room.2
    · cases h

theorem planTailCall_allows {external : Bool} {index : Nat} {effect : Effect}
    (h : m.planTailCall img external index = .ok effect) : m.Allows img limits effect := by
  unfold planTailCall at h
  split at h
  · cases h
  · rename_i callee found
    cases h
    exact .reenter found

theorem planMove_allows {i : Instruction} {effect : Effect} (h : m.planMove i = .ok effect) :
    m.Allows img limits effect := by
  unfold planMove at h
  split at h <;> cases h
  · exact .write _ _
  · exact .writeWindow _ _
  · exact .write _ _

/-- Whatever an instruction does, the state allows it. -/
theorem plan_allows {op : Opcode} {i : Instruction} {effect : Effect}
    (h : m.plan img limits op i = .ok effect) : m.Allows img limits effect := by
  cases op with
  | calli => exact planCall_allows h
  | calle => exact planCall_allows h
  | lcalli => exact planTailCall_allows h
  | lcalle => exact planTailCall_allows h
  | mov => exact planMove_allows h
  | nop => cases h; exact .proceed
  | halt => cases h; exact .stop
  | addi => cases h; exact .write _ _
  | subi => cases h; exact .write _ _
  | muli => cases h; exact .write _ _
  | gt => cases h; exact .write _ _
  | ret =>
    simp only [plan] at h
    split at h <;> cases h
    exact .leave ‹_›
  | divi =>
    simp only [plan] at h
    split at h <;> cases h
    exact .write _ _
  | loadi =>
    simp only [plan] at h
    split at h <;> cases h
    exact .write _ _
  | jmp =>
    simp only [plan] at h
    split at h <;> cases h
    exact .jump _
  | jmpc =>
    simp only [plan] at h
    split at h <;> cases h
    split
    · exact .jump _
    · exact .proceed

/-- An instruction that does not end the program has its effect, and the machine can go on. -/
theorem execute_of_goes {op : Opcode} {i : Instruction} {effect : Effect}
    (planned : m.plan img limits op i = .ok effect) (goes : effect ≠ .stop) :
    m.execute img limits op i = (m.apply effect, .next) := by
  rw [execute, planned]
  cases effect with
  | stop => exact absurd rfl goes
  | proceed | write | jump | enter | reenter | leave => rfl

/-- What executing an instruction leaves: the state of a fault, or that of an effect. -/
theorem execute_state (op : Opcode) (i : Instruction) :
    (∃ steps status, (m.execute img limits op i).1 = { m with steps, status }) ∨
      ∃ effect, m.Allows img limits effect ∧ (m.execute img limits op i).1 = m.apply effect := by
  unfold execute
  split
  · exact .inl ⟨_, _, rfl⟩
  · exact .inr ⟨.stop, .stop, rfl⟩
  · rename_i effect _ h
    exact .inr ⟨effect, plan_allows h, rfl⟩

/-- What a step leaves: the state that it found, but for the status and the count of
instructions, or that of an effect. -/
theorem step_state (img : Image) (limits : Limits) (m : Machine) :
    (∃ steps status, (m.step img limits).1 = { m with steps, status }) ∨
      ∃ effect, m.Allows img limits effect ∧ (m.step img limits).1 = m.apply effect := by
  unfold step
  split
  · exact .inl ⟨_, _, rfl⟩
  · exact .inl ⟨_, _, rfl⟩
  · split
    · exact .inl ⟨_, _, rfl⟩
    · split
      · exact .inl ⟨_, _, rfl⟩
      · split
        · exact .inl ⟨_, _, rfl⟩
        · exact execute_state _ _

/-- A machine goes on only from a running state, by an effect other than to stop. -/
theorem exists_effect_of_next {m' : Machine} (h : m.step img limits = (m', .next)) :
    m.status = .running ∧ ∃ effect, effect ≠ .stop ∧ m' = m.apply effect := by
  unfold step at h
  split at h
  · cases h
  · cases h
  · rename_i running
    refine ⟨running, ?_⟩
    split at h
    · cases h
    · split at h
      · cases h
      · split at h
        · cases h
        · unfold execute at h
          split at h
          · cases h
          · cases h
          · rename_i goes _
            cases h
            exact ⟨_, goes, rfl⟩

theorem status_apply {effect : Effect} (goes : effect ≠ .stop) :
    (m.apply effect).status = m.status := by
  cases effect with
  | stop => exact absurd rfl goes
  | proceed | write | jump | enter | reenter | leave => rfl

/-- A property that no step destroys holds after a run of any length. -/
theorem run_preserves {P : Machine → Prop} (hstep : ∀ m, P m → P (m.step img limits).1)
    (fuel : Nat) : ∀ m, P m → P (m.run img limits fuel).1 := by
  induction fuel with
  | zero => exact fun m h => h
  | succ fuel ih =>
    intro m h
    have after := hstep m h
    unfold run
    split <;> rename_i heq <;> rw [heq] at after
    · exact ih _ after
    · exact after
    · exact after

/-! ## Use of a machine -/

/-- What can be asked of a machine. -/
inductive Action where
  | step
  /-- Run, with at most `fuel` instructions. -/
  | run (fuel : Nat)
  | reset
  deriving DecidableEq, Repr

/-- Do what is asked. -/
def act (img : Image) (limits : Limits) (m : Machine) : Action → Machine
  | .step => (m.step img limits).1
  | .run fuel => (m.run img limits fuel).1
  | .reset => m.reset img

/-- The states that a machine on an image can be brought to. -/
def Reachable (img : Image) (limits : Limits) (m : Machine) : Prop :=
  ∃ actions : List Action, actions.foldl (act img limits) (start img limits) = m

/-- What holds at the start and is destroyed by no step and no reset holds whatever is asked of a
machine. -/
theorem Reachable.preserves {P : Machine → Prop} (h : m.Reachable img limits)
    (hstart : P (start img limits)) (hstep : ∀ m, P m → P (m.step img limits).1)
    (hreset : ∀ m, P m → P (m.reset img)) : P m := by
  obtain ⟨actions, rfl⟩ := h
  suffices ∀ m : Machine, P m → P (actions.foldl (Machine.act img limits) m) from this _ hstart
  induction actions with
  | nil => exact fun m h => h
  | cons action actions ih =>
    intro m h
    apply ih
    cases action with
    | step => exact hstep m h
    | run fuel => exact run_preserves hstep fuel m h
    | reset => exact hreset m h

end RegLisp.Machine
