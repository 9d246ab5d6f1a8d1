import RegLisp.Proofs.StepEffects

/-!
# A reset machine is a new one

Nothing that is asked of a machine changes the number of its registers, and a reset restores all
else. So a machine that is reset equals one that has just been made, whatever was asked of it
before, and whether its program had ended, had faulted or was in the middle of a call. What it
answers from then on is what a new machine answers.
-/

namespace RegLisp.Machine

variable {img : Image} {limits : Limits}

/-! ## Resetting in place -/

/-- Restore one field after the other. The registers are cleared and none is added or removed. -/
def resetInPlace (img : Image) : StateM Machine Unit := do
  let (address, reservation) := img.entry
  modify fun m => { m with registers := m.registers.map fun _ => 0 }
  modify ({ · with stack := #[] })
  modify ({ · with pc := address })
  modify ({ · with base := 0 })
  modify ({ · with reservation })
  modify ({ · with module := 0 })
  modify ({ · with status := .running })
  modify ({ · with steps := 0 })
  modify ({ · with peak := 0 })

/-- Make a machine that is nowhere yet, and reset it. -/
def make (img : Image) (limits : Limits) : Machine :=
  let blank : Machine :=
    { registers := Array.replicate (max limits.registerFileSize minRegisters) 0
      pc := 0
      reservation := 0 }
  ((resetInPlace img).run blank).2

theorem resetInPlace_eq (img : Image) (m : Machine) :
    (resetInPlace img).run m = ((), m.reset img) := by
  have cleared : (m.registers.map fun _ => (0 : Int64)) = Array.replicate m.registers.size 0 :=
    Array.map_const'
  rw [reset, ← cleared]
  rfl

theorem make_eq (img : Image) (limits : Limits) : make img limits = start img limits := by
  rw [make, resetInPlace_eq]
  simp [reset, start]

/-! ## The number of registers -/

theorem size_apply (m : Machine) (effect : Effect) :
    (m.apply effect).registers.size = m.registers.size := by
  cases effect with
  | write index value => exact Array.size_setIfInBounds
  | proceed | jump | enter | reenter | leave | stop => rfl

theorem size_step (img : Image) (limits : Limits) (m : Machine) :
    (m.step img limits).1.registers.size = m.registers.size := by
  rcases step_state img limits m with ⟨steps, status, state⟩ | ⟨effect, -, state⟩
  · rw [state]
  · rw [state, size_apply]

/-- A machine keeps the number of registers that it was made with. -/
theorem Reachable.size_eq {m : Machine} (h : m.Reachable img limits) :
    m.registers.size = max limits.registerFileSize minRegisters := by
  refine h.preserves (P := fun m => m.registers.size = _) ?_ ?_ ?_
  · exact Array.size_replicate
  · intro m size
    rw [size_step, size]
  · intro m size
    rw [reset, Array.size_replicate, size]

theorem Reachable.reset_eq {m : Machine} (h : m.Reachable img limits) :
    m.reset img = start img limits := by
  rw [reset, start, h.size_eq]

/-! ## What can be seen of a machine -/

/-- What a machine answers. -/
inductive Answer where
  | flow (flow : Flow)
  /-- How a run ended, if it did. -/
  | outcome (outcome : Option (Except Fault Int64))
  | cleared

/-- The answer to what is asked. -/
def answer (img : Image) (limits : Limits) (m : Machine) : Action → Answer
  | .step => .flow (m.step img limits).2
  | .run fuel => .outcome (m.run img limits fuel).2
  | .reset => .cleared

/-- The state after all that is asked. -/
def after (img : Image) (limits : Limits) (m : Machine) (actions : List Action) : Machine :=
  actions.foldl (act img limits) m

/-- All that can be seen of a machine while it is used: each answer, and the state behind it. -/
def transcript (img : Image) (limits : Limits) (m : Machine) : List Action → List (Answer × Machine)
  | [] => []
  | action :: actions =>
    (m.answer img limits action, m.act img limits action) ::
      transcript img limits (m.act img limits action) actions

theorem transcript_append (m : Machine) (past later : List Action) :
    m.transcript img limits (past ++ later) =
      m.transcript img limits past ++ (m.after img limits past).transcript img limits later := by
  induction past generalizing m with
  | nil => rfl
  | cons action past ih =>
    rw [List.cons_append, transcript, ih]
    rfl

/-! ## Forgetting the past -/

/-- A reset leaves nothing of what was asked of the machine before it. -/
structure Forgets (img : Image) (limits : Limits) (past later : List Action) : Prop where
  reset_eq : ((start img limits).after img limits past).reset img = start img limits
  /-- Also field by field, the machine that is reset is the one that is newly made. -/
  in_place : (resetInPlace img).run ((start img limits).after img limits past) =
    ((), make img limits)
  made : make img limits = start img limits
  /-- What is seen from the reset on is what is seen of a new machine. -/
  seen : (start img limits).transcript img limits (past ++ .reset :: later) =
    (start img limits).transcript img limits past ++
      (.cleared, start img limits) :: (start img limits).transcript img limits later

/-- A reset erases the past of a machine, whatever that was. -/
theorem reset_forgets (img : Image) (limits : Limits) (past later : List Action) :
    Forgets img limits past later := by
  have reached : ((start img limits).after img limits past).Reachable img limits := ⟨past, rfl⟩
  refine ⟨reached.reset_eq, ?_, make_eq img limits, ?_⟩
  · rw [resetInPlace_eq, reached.reset_eq, make_eq]
  · rw [transcript_append, transcript, answer, act, reached.reset_eq]

end RegLisp.Machine
