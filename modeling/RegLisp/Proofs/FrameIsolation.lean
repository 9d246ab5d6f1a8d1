import RegLisp.Proofs.StepEffects

/-!
# Isolation of frames

From a call up to the return that belongs to it, no register below the frame of the callee changes,
and the return brings back the caller's own state. Calls and tail calls in between may nest in any
way: all frames that they save start at or above the frame of the callee, so that the frame of the
caller is reached only by the return that belongs to it.
-/

namespace RegLisp.Machine

variable {img : Image} {limits : Limits} {m : Machine}

/-- The machine after so many steps. -/
def advance (img : Image) (limits : Limits) (m : Machine) : Nat → Machine
  | 0 => m
  | n + 1 => ((advance img limits m n).step img limits).1

/-- The next step carries out a call, which leads to the state `entered`. -/
def Calls (img : Image) (limits : Limits) (m entered : Machine) : Prop :=
  ∃ i, m.status = .running ∧ img.code[m.pc]? = some i ∧
    (i.op? = some .calli ∨ i.op? = some .calle) ∧ m.step img limits = (entered, .next)

theorem planCall_enters {external : Bool} {index : Nat} {effect : Effect}
    (h : m.planCall img limits external index = .ok effect) : ∃ callee, effect = .enter callee := by
  unfold planCall at h
  repeat' split at h
  all_goals cases h
  exact ⟨_, rfl⟩

/-- A call that is carried out enters the callee. -/
theorem Calls.enters {entered : Machine} (h : m.Calls img limits entered) :
    ∃ callee, entered = m.apply (.enter callee) := by
  obtain ⟨i, running, fetched, op, stepped⟩ := h
  have decoded : ∃ op, i.op? = some op ∧
      ∀ effect, m.plan img limits op i = .ok effect → ∃ callee, effect = .enter callee := by
    rcases op with op | op
    · exact ⟨_, op, fun _ => planCall_enters⟩
    · exact ⟨_, op, fun _ => planCall_enters⟩
  obtain ⟨op, hop, enters⟩ := decoded
  simp only [step, running, fetched, hop] at stepped
  split at stepped
  · simp [stopOn] at stepped
  · unfold execute at stepped
    cases planned : m.plan img limits op i with
    | error kind => simp [planned, stopOn] at stepped
    | ok effect =>
      obtain ⟨callee, rfl⟩ := enters effect planned
      simp only [planned, Prod.mk.injEq, and_true] at stepped
      exact ⟨callee, stepped.symm⟩

/-- A call on top of `callers` is still going on. The frames saved since then start at `floor` or
above, as the current one does, and the registers below are those of `file`. -/
structure Inside (callers : List Frame) (floor : Nat) (file : Array Int64) (m : Machine) :
    Prop where
  saved : ∃ rest, m.stack.toList = callers ++ rest ∧ ∀ f ∈ rest, floor ≤ f.base
  base_le : floor ≤ m.base
  kept : ∀ index < floor, m.registers[index]? = file[index]?

/-- A call on top of `callers` has returned to `caller`, and the registers below `floor` are those
of `file`. -/
structure Returned (callers : List Frame) (caller : Frame) (floor : Nat) (file : Array Int64)
    (m : Machine) : Prop where
  stack : m.stack.toList = callers
  pc : m.pc = caller.returnPc
  base : m.base = caller.base
  module : m.module = caller.module
  reservation : m.reservation = caller.reservation
  kept : ∀ index < floor, m.registers[index]? = file[index]?

variable {callers : List Frame} {caller : Frame} {floor : Nat} {file : Array Int64}

/-- One effect keeps a call going or returns from it. -/
theorem Inside.apply (h : m.Inside (callers ++ [caller]) floor file) {effect : Effect}
    (allowed : m.Allows img limits effect) :
    (m.apply effect).Inside (callers ++ [caller]) floor file ∨
      (m.apply effect).Returned callers caller floor file := by
  obtain ⟨⟨rest, split, above⟩, base_le, kept⟩ := h
  -- A write never goes below the frame in which it is executed.
  have written : ∀ index value, m.base ≤ index →
      ∀ k < floor, (m.registers.setIfInBounds index value)[k]? = file[k]? := by
    intro index value le k hk
    rw [Array.getElem?_setIfInBounds_ne (by omega), kept k hk]
  cases allowed with
  | proceed => exact .inl ⟨⟨rest, split, above⟩, base_le, kept⟩
  | jump => exact .inl ⟨⟨rest, split, above⟩, base_le, kept⟩
  | stop => exact .inl ⟨⟨rest, split, above⟩, base_le, kept⟩
  | reenter => exact .inl ⟨⟨rest, split, above⟩, base_le, kept⟩
  | write r value => exact .inl ⟨⟨rest, split, above⟩, base_le, written _ _ (by omega)⟩
  | writeWindow r value =>
    exact .inl ⟨⟨rest, split, above⟩, base_le, written _ _ (by unfold window; omega)⟩
  | enter =>
    refine .inl ⟨⟨rest ++ [⟨m.pc + 1, m.base, m.module, m.reservation⟩], ?_, ?_⟩, ?_, kept⟩
    · rw [Machine.apply, Array.toList_push, split, List.append_assoc]
    · intro f hf
      rcases List.mem_append.1 hf with hf | hf
      · exact above f hf
      · rw [List.mem_singleton.1 hf]
        exact base_le
    · exact Nat.le_trans base_le (Nat.le_add_right _ _)
  | leave latest =>
    rename_i back
    obtain ⟨older, hpush⟩ := Array.back?_eq_some_iff.1 latest
    have hpop : m.stack.pop = older := by rw [hpush, Array.pop_push]
    rw [hpush, Array.toList_push] at split
    rcases List.eq_nil_or_concat rest with rfl | ⟨rest, last, rfl⟩
    · -- Nothing is saved above the caller: this is the return that belongs to the call.
      rw [List.append_nil] at split
      obtain ⟨rfl, rfl⟩ := List.append_singleton_inj.1 split
      exact .inr ⟨by rw [Machine.apply, hpop], rfl, rfl, rfl, rfl, kept⟩
    · rw [List.concat_eq_append, ← List.append_assoc] at split
      obtain ⟨below, rfl⟩ := List.append_singleton_inj.1 split
      refine .inl ⟨⟨rest, by rw [Machine.apply, hpop, below], ?_⟩, ?_, kept⟩
      · exact fun f hf => above f (by simp [hf])
      · exact above back (by simp)

theorem Inside.step (h : m.Inside (callers ++ [caller]) floor file) :
    (m.step img limits).1.Inside (callers ++ [caller]) floor file ∨
      (m.step img limits).1.Returned callers caller floor file := by
  rcases step_state img limits m with ⟨steps, status, heq⟩ | ⟨effect, allowed, heq⟩
  · rw [heq]
    exact .inl ⟨h.saved, h.base_le, h.kept⟩
  · rw [heq]
    exact h.apply allowed

/-- The frame of a caller is above all frames saved before the call. -/
theorem Inside.depth_lt (h : m.Inside (callers ++ [caller]) floor file) :
    callers.length < m.depth := by
  obtain ⟨rest, split, -⟩ := h.saved
  have length := congrArg List.length split
  simp only [Array.length_toList, List.length_append, List.length_singleton] at length
  rw [depth]
  omega

/-- As long as the depth has not come back to that before the call, the call goes on; when it
does, the call has returned. -/
theorem Inside.advance (h : m.Inside (callers ++ [caller]) floor file) (n : Nat)
    (deep : ∀ k < n, callers.length < (m.advance img limits k).depth) :
    (m.advance img limits n).Inside (callers ++ [caller]) floor file ∨
      (m.advance img limits n).Returned callers caller floor file := by
  induction n with
  | zero => exact .inl h
  | succ n ih =>
    rcases ih (fun k hk => deep k (by omega)) with inside | returned
    · exact inside.step
    · have := deep n (by omega)
      rw [depth, ← Array.length_toList, returned.stack] at this
      omega

theorem inside_enter (m : Machine) (callee : Callee) :
    (m.apply (.enter callee)).Inside
      (m.stack.toList ++ [⟨m.pc + 1, m.base, m.module, m.reservation⟩])
      (m.apply (.enter callee)).base (m.apply (.enter callee)).registers where
  saved := ⟨[], by simp [Machine.apply], by simp⟩
  base_le := Nat.le_refl _
  kept _ _ := rfl

/-- After a call and up to the return that belongs to it, which is the first step to bring the
depth back, no register below the frame of the callee changes; and right after that return the
caller goes on behind the call with its own frame and module. -/
theorem caller_kept_until_return {entered : Machine} (call : m.Calls img limits entered) (n : Nat)
    (deep : ∀ k < n, m.depth < (entered.advance img limits k).depth) :
    (∀ index < entered.base,
        (entered.advance img limits n).registers[index]? = entered.registers[index]?) ∧
      ((entered.advance img limits n).depth = m.depth →
        (entered.advance img limits n).pc = m.pc + 1 ∧
        (entered.advance img limits n).base = m.base ∧
        (entered.advance img limits n).module = m.module ∧
        (entered.advance img limits n).reservation = m.reservation) := by
  obtain ⟨callee, rfl⟩ := call.enters
  have depth_eq : m.depth = m.stack.toList.length := Array.length_toList.symm
  rw [depth_eq] at deep ⊢
  rcases (inside_enter m callee).advance n deep with inside | returned
  · refine ⟨inside.kept, fun shallow => ?_⟩
    have := inside.depth_lt
    omega
  · exact ⟨returned.kept, fun _ =>
      ⟨returned.pc, returned.base, returned.module, returned.reservation⟩⟩

/-- A call of a function that hands over to another one, which writes its result. -/
def relay : Image where
  functions := #[⟨"first", 3, 0, 0, [.int]⟩, ⟨"second", 4, 0, 1, [.int]⟩]
  constants := #[7]
  code := #[⟨1, 0, 0, 0⟩, ⟨14, 0, 0, 2⟩, ⟨15, 0, 0, 0⟩, ⟨3, 1, 0, 0⟩, ⟨11, 0, 0, 0⟩, ⟨5, 0, 0, 0⟩]
  modules := #[⟨"relay", {}, 2, 1, 6, 1⟩]

theorem caller_kept_until_return_relay :
    ∃ limits m entered, Calls relay limits m entered ∧
      (∀ k < 3, m.depth < (entered.advance relay limits k).depth) ∧
      (entered.advance relay limits 3).depth = m.depth ∧
      (∀ index < entered.base,
        (entered.advance relay limits 3).registers[index]? = entered.registers[index]?) ∧
      (entered.advance relay limits 3).pc = m.pc + 1 := by
  let small : Limits := { registerFileSize := 600 }
  have next : ((start relay small).step relay small).2 = .next := by decide +kernel
  have call : Calls relay small (start relay small) ((start relay small).step relay small).1 :=
    ⟨⟨1, 0, 0, 0⟩, rfl, rfl, .inl rfl, by rw [← next]⟩
  have deep : ∀ k < 3, (start relay small).depth <
      (((start relay small).step relay small).1.advance relay small k).depth := by decide +kernel
  have shallow : (((start relay small).step relay small).1.advance relay small 3).depth =
      (start relay small).depth := by decide +kernel
  have ⟨kept, back⟩ := caller_kept_until_return call 3 deep
  exact ⟨_, _, _, call, deep, shallow, kept, (back shallow).1⟩

end RegLisp.Machine
