import RegLisp.Proofs.CodeLayout
import RegLisp.Proofs.InstructionForms
import RegLisp.Proofs.Limits
import RegLisp.Proofs.PendingCalls

/-!
# Segments of a run

A run is followed in segments, each of which does what one piece of code is for. A segment that
computes what an evaluation gives ends with the value, or in a fault; when the evaluation is cut
off, the segment takes at least as many steps as calls were allowed. Where calls are counted, the
greatest depth of the stack is that of the evaluation. The code that only moves values is followed
here.
-/

namespace RegLisp

/-- The fault that an error becomes. Errors about names never arise in linked programs. -/
def EvalError.kind? : EvalError → Option FaultKind
  | divisionByZero => some .divisionByZero
  | arithmeticOverflow => some .arithmeticOverflow
  | unboundVariable _ | undefinedFunction _ | wrongArity _ => none

namespace Machine

variable {img : Image} {limits : Limits} {m m' m'' : Machine} {depth : Nat}

/-- The machine comes to the second state in so many steps. -/
def Reaches (img : Image) (limits : Limits) (count : Nat) (m m' : Machine) : Prop :=
  ∀ fuel, m.run img limits (count + fuel) = m'.run img limits fuel

theorem Reaches.refl (img : Image) (limits : Limits) (m : Machine) :
    Reaches img limits 0 m m := by
  intro fuel
  rw [Nat.zero_add]

theorem Reaches.trans {count count' : Nat} (h : Reaches img limits count m m')
    (h' : Reaches img limits count' m' m'') : Reaches img limits (count + count') m m'' := by
  intro fuel
  rw [Nat.add_assoc, h, h']

theorem reaches_of_step (h : m.step img limits = (m', .next)) : Reaches img limits 1 m m' := by
  intro fuel
  rw [Nat.add_comm, run, h]

/-- The machine comes to the second state in so many steps, and none of them is a call that has to
come back. -/
structure Proceeds (img : Image) (limits : Limits) (count : Nat) (m m' : Machine) : Prop where
  reaches : Reaches img limits count m m'
  peak_eq : m'.peak = m.peak

theorem Proceeds.refl (img : Image) (limits : Limits) (m : Machine) :
    Proceeds img limits 0 m m := ⟨.refl img limits m, rfl⟩

theorem Proceeds.trans {count count' : Nat} (h : Proceeds img limits count m m')
    (h' : Proceeds img limits count' m' m'') : Proceeds img limits (count + count') m m'' :=
  ⟨h.reaches.trans h'.reaches, h'.peak_eq.trans h.peak_eq⟩

/-- A segment that starts at `m` computes what an evaluation gives. -/
inductive Agrees {α : Type} (img : Image) (limits : Limits) (depth : Nat) (m : Machine)
    (post : α → Machine → Prop) : Eval α → Prop
  | tooDeep {count : Nat} {m' : Machine} (long : depth ≤ count)
      (reaches : Reaches img limits count m m') : Agrees img limits depth m post .tooDeep
  | error {count : Nat} {m' : Machine} {cause : Fault} {e : EvalError}
      (faults : ∀ fuel, m.run img limits (count + fuel) = (m', some (.error cause)))
      (kind_eq : e.kind? = some cause.kind) : Agrees img limits depth m post (throw e)
  | value {count : Nat} {m' : Machine} {v : α} (reaches : Reaches img limits count m m')
      (after : post v m') : Agrees img limits depth m post (pure v)

namespace Agrees

variable {α β : Type} {post : α → Machine → Prop} {post' : β → Machine → Prop} {x : Eval α}

/-- A segment can start with steps that compute nothing. They count as much as calls do. -/
theorem of_reaches {count depth' : Nat} (reaches : Reaches img limits count m m')
    (long : depth ≤ count + depth') (h : Agrees img limits depth' m' post x) :
    Agrees img limits depth m post x := by
  cases h with
  | tooDeep long' reaches' => exact .tooDeep (by omega) (reaches.trans reaches')
  | value reaches' after => exact .value (reaches.trans reaches') after
  | @error count' stopped cause _ faults kind_eq =>
    have faults' : ∀ fuel, m.run img limits (count + count' + fuel) =
        (stopped, some (.error cause)) := by
      intro fuel
      rw [Nat.add_assoc, reaches, faults]
    exact .error faults' kind_eq

/-- Segments follow each other as evaluations do. -/
theorem bind {f : α → Eval β} (h : Agrees img limits depth m post x)
    (next : ∀ v m', post v m' → Agrees img limits depth m' post' (f v)) :
    Agrees img limits depth m post' (x >>= f) := by
  cases h with
  | tooDeep long reaches => exact .tooDeep long reaches
  | error faults kind_eq => exact .error faults kind_eq
  | value reaches after => exact (next _ _ after).of_reaches reaches (Nat.le_add_left _ _)

/-- A segment can end with steps that only bring its value to its place. -/
theorem extend {post' : α → Machine → Prop} (h : Agrees img limits depth m post x)
    (next : ∀ v m', post v m' → ∃ count m'', Reaches img limits count m' m'' ∧ post' v m'') :
    Agrees img limits depth m post' x := by
  have bound := h.bind (f := pure) fun v m' after => by
    obtain ⟨count, m'', reaches, after'⟩ := next v m' after
    exact Agrees.value reaches after'
  rwa [bind_pure] at bound

theorem imp {post' : α → Machine → Prop} (h : Agrees img limits depth m post x)
    (next : ∀ v m', post v m' → post' v m') : Agrees img limits depth m post' x :=
  h.extend fun v m' after => ⟨0, m', .refl _ _ _, next v m' after⟩

theorem map {f : α → β} (h : Agrees img limits depth m post x)
    (next : ∀ v m', post v m' → post' (f v) m') : Agrees img limits depth m post' (f <$> x) := by
  rw [map_eq_pure_bind]
  exact h.bind fun v m' after => .value (.refl _ _ m') (next v m' after)

end Agrees

/-- A segment that starts at `m` computes what a counted evaluation gives, and the greatest depth
of the stack becomes what the evaluation makes of it. -/
def Follows {α : Type} (img : Image) (limits : Limits) (depth : Nat) (m : Machine)
    (post : α → Machine → Prop) (x : Counted α) : Prop :=
  Agrees img limits depth m (fun r m' => m'.peak = r.2 ∧ post r.1 m') (x.run m.peak)

namespace Follows

variable {α β : Type} {post : α → Machine → Prop} {post' : β → Machine → Prop} {x : Counted α}

theorem of_proceeds {count depth' : Nat} (proceeds : Proceeds img limits count m m')
    (long : depth ≤ count + depth') (h : Follows img limits depth' m' post x) :
    Follows img limits depth m post x := by
  unfold Follows at h
  rw [proceeds.peak_eq] at h
  exact h.of_reaches proceeds.reaches long

/-- A segment can start with a step that makes the stack deeper. -/
theorem of_enter {pending depth' : Nat} (reaches : Reaches img limits 1 m m')
    (peak_eq : m'.peak = max m.peak pending) (long : depth ≤ 1 + depth')
    (h : Follows img limits depth' m' post x) :
    Follows img limits depth m post (do Counted.enter pending; x) := by
  unfold Follows at h
  rw [peak_eq] at h
  exact h.of_reaches reaches long

theorem tooDeep (long : depth = 0) : Follows img limits depth m post Counted.tooDeep :=
  Agrees.tooDeep (Nat.le_of_eq long) (.refl img limits m)

theorem value {count : Nat} {v : α} (proceeds : Proceeds img limits count m m')
    (after : post v m') : Follows img limits depth m post (pure v) :=
  Agrees.value proceeds.reaches ⟨proceeds.peak_eq, after⟩

/-- What is computed without calls does not make the stack deeper. -/
theorem lift {x : Eval α} (h : Agrees img limits depth m post x)
    (peak_eq : ∀ v m', post v m' → m'.peak = m.peak) :
    Follows img limits depth m post (liftM x) :=
  h.bind fun v m' after => .value (.refl img limits m') ⟨peak_eq v m' after, after⟩

theorem bind {f : α → Counted β} (h : Follows img limits depth m post x)
    (next : ∀ v m', post v m' → Follows img limits depth m' post' (f v)) :
    Follows img limits depth m post' (x >>= f) := by
  unfold Follows
  rw [StateT.run_bind]
  refine Agrees.bind h ?_
  rintro ⟨v, peak⟩ m' ⟨peak_eq, after⟩
  have follows := next v m' after
  unfold Follows at follows
  rwa [peak_eq] at follows

theorem extend {post' : α → Machine → Prop} (h : Follows img limits depth m post x)
    (next : ∀ v m', post v m' → ∃ count m'', Proceeds img limits count m' m'' ∧ post' v m'') :
    Follows img limits depth m post' x := by
  refine Agrees.extend h ?_
  rintro ⟨v, peak⟩ m' ⟨peak_eq, after⟩
  obtain ⟨count, m'', proceeds, after'⟩ := next v m' after
  exact ⟨count, m'', proceeds.reaches, proceeds.peak_eq.trans peak_eq, after'⟩

theorem imp {post' : α → Machine → Prop} (h : Follows img limits depth m post x)
    (next : ∀ v m', post v m' → post' v m') : Follows img limits depth m post' x :=
  h.extend fun v m' after => ⟨0, m', .refl _ _ _, next v m' after⟩

end Follows

/-! ## Single instructions -/

/-- A running machine that no limit can stop while at most `depth` calls are nested. -/
structure Ready (limits : Limits) (depth : Nat) (m : Machine) : Prop where
  unlimited : limits.maxSteps = 0
  running : m.status = .running
  callers_le : m.stack.size + depth ≤ limits.maxCallStack
  room : m.base + 256 * depth + 512 ≤ m.registers.size
  reservation_le : m.reservation ≤ 256

theorem Ready.step_eq {op : Opcode} {i : Instruction} (ready : Ready limits depth m)
    (fetched : img.code[m.pc]? = some i) (decoded : i.op? = some op) :
    m.step img limits = m.execute img limits op i := by
  simp [Machine.step, ready.running, ready.unlimited, fetched, decoded]

theorem Ready.reaches_apply {op : Opcode} {i : Instruction} {effect : Effect}
    (ready : Ready limits depth m) (fetched : img.code[m.pc]? = some i)
    (decoded : i.op? = some op) (planned : m.plan img limits op i = .ok effect)
    (goes : effect ≠ .stop := by simp) : Reaches img limits 1 m (m.apply effect) := by
  apply reaches_of_step
  rw [ready.step_eq fetched decoded, execute_of_goes planned goes]

theorem Ready.proceeds_apply {op : Opcode} {i : Instruction} {effect : Effect}
    (ready : Ready limits depth m) (fetched : img.code[m.pc]? = some i)
    (decoded : i.op? = some op) (planned : m.plan img limits op i = .ok effect)
    (goes : effect ≠ .stop := by simp) (peak_eq : (m.apply effect).peak = m.peak := by rfl) :
    Proceeds img limits 1 m (m.apply effect) :=
  ⟨ready.reaches_apply fetched decoded planned goes, peak_eq⟩

theorem Ready.run_of_error {op : Opcode} {i : Instruction} {kind : FaultKind}
    (ready : Ready limits depth m) (fetched : img.code[m.pc]? = some i)
    (decoded : i.op? = some op) (planned : m.plan img limits op i = .error kind) (fuel : Nat) :
    m.run img limits (1 + fuel) =
      ({ m with steps := m.steps + 1, status := .faulted },
        some (.error ⟨kind, m.pc, some i.opcode⟩)) := by
  rw [Nat.add_comm, run, ready.step_eq fetched decoded, execute, planned]
  rfl

theorem Ready.frame_lt {r : Nat} (ready : Ready limits depth m) (small : r < 256) :
    m.base + r < m.registers.size := by
  have := ready.room
  omega

theorem Ready.window_lt {r : Nat} (ready : Ready limits depth m) (small : r < 256) :
    m.base + m.reservation + r < m.registers.size := by
  have := ready.room
  have := ready.reservation_le
  omega

/-- The second machine is in the same frame as the first. -/
structure SameFrame (m m' : Machine) : Prop where
  stack_eq : m'.stack = m.stack
  base_eq : m'.base = m.base
  reservation_eq : m'.reservation = m.reservation
  module_eq : m'.module = m.module
  status_eq : m'.status = m.status
  size_eq : m'.registers.size = m.registers.size

theorem SameFrame.refl (m : Machine) : SameFrame m m := ⟨rfl, rfl, rfl, rfl, rfl, rfl⟩

theorem SameFrame.trans (h : SameFrame m m') (h' : SameFrame m' m'') : SameFrame m m'' :=
  ⟨h'.stack_eq.trans h.stack_eq, h'.base_eq.trans h.base_eq,
    h'.reservation_eq.trans h.reservation_eq, h'.module_eq.trans h.module_eq,
    h'.status_eq.trans h.status_eq, h'.size_eq.trans h.size_eq⟩

theorem Ready.same (ready : Ready limits depth m) (same : SameFrame m m') :
    Ready limits depth m' := by
  refine ⟨ready.unlimited, same.status_eq.trans ready.running, ?_, ?_, ?_⟩
  · rw [same.stack_eq]
    exact ready.callers_le
  · rw [same.base_eq, same.size_eq]
    exact ready.room
  · rw [same.reservation_eq]
    exact ready.reservation_le

/-- In the same frame, all registers below the given one are as they were. -/
structure Kept (lo : Nat) (m m' : Machine) : Prop extends SameFrame m m' where
  register_eq : ∀ x, x < m.base + lo → x < m.base + m.reservation → m'.register x = m.register x

theorem Kept.refl (lo : Nat) (m : Machine) : Kept lo m m := ⟨.refl m, fun _ _ _ => rfl⟩

theorem Kept.trans {lo lo' : Nat} (h : Kept lo m m') (h' : Kept lo' m' m'') (le : lo ≤ lo') :
    Kept lo m m'' := by
  refine ⟨h.toSameFrame.trans h'.toSameFrame, ?_⟩
  intro x below inside
  rw [h'.register_eq x (by rw [h.base_eq]; omega) (by rw [h.base_eq, h.reservation_eq]; omega)]
  exact h.register_eq x below inside

theorem Kept.mono {lo lo' : Nat} (h : Kept lo' m m') (le : lo ≤ lo') : Kept lo m m' :=
  (Kept.refl lo m).trans h le

theorem register_write {index : Nat} (inside : index < m.registers.size) (value : Int64)
    (x : Nat) :
    (m.apply (.write index value)).register x = if x = index then value else m.register x := by
  simp only [register, apply, Array.getD_eq_getD_getElem?, Array.getElem?_setIfInBounds]
  by_cases same : index = x
  · subst same
    simp [inside]
  · simp [same, Ne.symm same]

theorem sameFrame_write (m : Machine) (index : Nat) (value : Int64) :
    SameFrame m (m.apply (.write index value)) :=
  ⟨rfl, rfl, rfl, rfl, rfl, by simp [apply]⟩

theorem kept_write {index lo : Nat} (inside : index < m.registers.size) (value : Int64)
    (above : m.base + lo ≤ index) : Kept lo m (m.apply (.write index value)) := by
  refine ⟨sameFrame_write m index value, ?_⟩
  intro x below _
  rw [register_write inside, if_neg (by omega)]

end Machine

/-! ## Code in an image -/

section

variable {α : Type} {P : Nat → α → Prop} {xs ys : List α} {k : Nat} {x : α}

/-- What holds of every position of two lists in a row holds of those of the first. -/
theorem of_getElem?_left (h : ∀ k x, (xs ++ ys)[k]? = some x → P k x) (found : xs[k]? = some x) :
    P k x := by
  have lt := (List.getElem?_eq_some_iff.1 found).1
  exact h k x (by rwa [List.getElem?_append_left lt])

/-- What holds of every position of two lists in a row holds of those of the second, which come
behind the first. -/
theorem of_getElem?_right (h : ∀ k x, (xs ++ ys)[k]? = some x → P k x) (found : ys[k]? = some x) :
    P (xs.length + k) x := by
  refine h (xs.length + k) x ?_
  rwa [List.getElem?_append_right (Nat.le_add_right _ _), Nat.add_sub_cancel_left]

end

/-- The image has the code at the given address, and its registers are in the frame. -/
structure Holds (img : Image) (reservation pc : Nat) (code : List Instruction) : Prop where
  fetch : ∀ (k : Nat) (i : Instruction), code[k]? = some i → img.code[pc + k]? = some i
  locals : ∀ i ∈ code, ∀ r, i.maxLocalRegister = some r → r < reservation

namespace Holds

variable {img : Image} {reservation pc : Nat} {i : Instruction} {is is' : List Instruction}

theorem left (h : Holds img reservation pc (is ++ is')) : Holds img reservation pc is := by
  refine ⟨?_, fun i mem => h.locals i (List.mem_append_left _ mem)⟩
  exact fun k i found => of_getElem?_left h.fetch found

theorem right (h : Holds img reservation pc (is ++ is')) :
    Holds img reservation (pc + is.length) is' := by
  refine ⟨?_, fun i mem => h.locals i (List.mem_append_right _ mem)⟩
  intro k i found
  have fetched := of_getElem?_right h.fetch found
  rwa [← Nat.add_assoc] at fetched

theorem cast {pc' : Nat} (h : Holds img reservation pc is) (eq : pc = pc') :
    Holds img reservation pc' is := eq ▸ h

theorem head (h : Holds img reservation pc (i :: is)) : img.code[pc]? = some i :=
  h.fetch 0 i rfl

theorem head_lt (h : Holds img reservation pc (i :: is)) {r : Nat}
    (local_eq : i.maxLocalRegister = some r) : r < reservation :=
  h.locals i (List.mem_cons_self) r local_eq

theorem single (h : Holds img reservation pc (i :: is)) : Holds img reservation pc [i] := by
  have split : Holds img reservation pc ([i] ++ is) := h
  exact split.left

theorem tail (h : Holds img reservation pc (i :: is)) : Holds img reservation (pc + 1) is := by
  have split : Holds img reservation pc ([i] ++ is) := h
  exact split.right

end Holds

/-! ## Moves -/

theorem byte_toNat {n : Nat} (small : n < 256) : (UInt8.ofNat n).toNat = n :=
  UInt8.toNat_ofNat_of_lt' small

theorem maxLocalRegister_mov_frame {src dst : Nat} (hsrc : src < 256) (hdst : dst < 256) :
    (movCode .frame src dst).maxLocalRegister = some (max src dst) := by
  simp only [Instruction.maxLocalRegister, Instruction.op?_movCode, Opcode.shape,
    Instruction.moveMode?_movCode]
  simp only [movCode, Instruction.mov, byte_toNat hsrc, byte_toNat hdst]

theorem maxLocalRegister_mov_toWindow {src : Nat} (hsrc : src < 256) (dst : Nat) :
    (movCode .toWindow src dst).maxLocalRegister = some src := by
  simp only [Instruction.maxLocalRegister, Instruction.op?_movCode, Opcode.shape,
    Instruction.moveMode?_movCode]
  simp only [movCode, Instruction.mov, byte_toNat hsrc]

namespace Machine

variable {img : Image} {limits : Limits} {m : Machine} {depth src dst : Nat}

theorem plan_mov_frame (hsrc : src < 256) (hdst : dst < 256) :
    m.plan img limits .mov (movCode .frame src dst) =
      .ok (.write (m.base + dst) (m.register (m.base + src))) := by
  simp only [plan, planMove, Instruction.moveMode?_movCode]
  simp only [writeReg, reg, movCode, Instruction.mov, byte_toNat hsrc, byte_toNat hdst]

theorem plan_mov_toWindow (hsrc : src < 256) (hdst : dst < 256) :
    m.plan img limits .mov (movCode .toWindow src dst) =
      .ok (.write (m.base + m.reservation + dst) (m.register (m.base + src))) := by
  simp only [plan, planMove, Instruction.moveMode?_movCode]
  simp only [window, reg, movCode, Instruction.mov, byte_toNat hsrc, byte_toNat hdst]

theorem plan_mov_fromWindow (hsrc : src < 256) (hdst : dst < 256) :
    m.plan img limits .mov (movCode .fromWindow src dst) =
      .ok (.write (m.base + dst) (m.register (m.base + m.reservation + src))) := by
  simp only [plan, planMove, Instruction.moveMode?_movCode]
  simp only [window, writeReg, movCode, Instruction.mov, byte_toNat hsrc, byte_toNat hdst]

/-- A value is brought from one register of the frame to another. -/
theorem Ready.moves (ready : Ready limits depth m) (hsrc : src < 256) (hdst : dst < 256)
    (holds : Holds img m.reservation m.pc (moveCode src dst)) :
    ∃ count m', Proceeds img limits count m m' ∧ Kept dst m m' ∧
      m'.pc = m.pc + moveSize src dst ∧
        m'.register (m.base + dst) = m.register (m.base + src) ∧
          (src ≠ dst → src < m.reservation) := by
  by_cases same : src = dst
  · subst same
    exact ⟨0, m, .refl _ _ _, .refl _ _, by simp [moveSize], rfl, fun h => absurd rfl h⟩
  · rw [moveCode, if_neg same] at holds
    have inside := ready.frame_lt hdst
    refine ⟨1, _, ready.proceeds_apply holds.head rfl (plan_mov_frame hsrc hdst),
      kept_write inside _ (Nat.le_refl _), ?_, ?_, ?_⟩
    · rw [moveSize, if_neg same]
      rfl
    · rw [register_write inside, if_pos rfl]
    · intro _
      have := holds.head_lt (maxLocalRegister_mov_frame hsrc hdst)
      omega

/-- Where the arguments of a call go: the window, or the frame itself when it is reused. -/
inductive Target (m : Machine) : MoveMode → Nat → Prop
  | frame : Target m .frame m.base
  | window : Target m .toWindow (m.base + m.reservation)

theorem Target.plan_mov {mode : MoveMode} {place : Nat} (target : Target m mode place)
    (hsrc : src < 256) (hdst : dst < 256) :
    m.plan img limits .mov (movCode mode src dst) =
      .ok (.write (place + dst) (m.register (m.base + src))) := by
  cases target with
  | frame => exact plan_mov_frame hsrc hdst
  | window => exact plan_mov_toWindow hsrc hdst

theorem Target.same {mode : MoveMode} {place : Nat} {m' : Machine} (target : Target m mode place)
    (same : SameFrame m m') : Target m' mode place := by
  cases target with
  | frame =>
    rw [← same.base_eq]
    exact .frame
  | window =>
    rw [← same.base_eq, ← same.reservation_eq]
    exact .window

theorem Target.source_lt {mode : MoveMode} {place : Nat} {code : List Instruction}
    (target : Target m mode place) {pc : Nat} (hsrc : src < 256) (hdst : dst < 256)
    (holds : Holds img m.reservation pc (movCode mode src dst :: code)) :
    src < m.reservation := by
  cases target with
  | frame =>
    have := holds.head_lt (maxLocalRegister_mov_frame hsrc hdst)
    omega
  | window => exact holds.head_lt (maxLocalRegister_mov_toWindow hsrc dst)

theorem Target.inside {mode : MoveMode} {place : Nat} (target : Target m mode place)
    (ready : Ready limits depth m) (hdst : dst < 256) : place + dst < m.registers.size := by
  cases target with
  | frame => exact ready.frame_lt hdst
  | window => exact ready.window_lt hdst

theorem passCode_succ (mode : MoveMode) (reg count : Nat) :
    passCode mode reg (count + 1) =
      passCode mode reg count ++ [movCode mode (reg + 1 + count) (1 + count)] := by
  simp [passCode, List.range_succ]

/-- Arguments are copied to the registers from one on. No copy overwrites an argument that is
still to be copied: in the frame each lies above its destination, and the window lies behind all
of them. -/
theorem Ready.passes {mode : MoveMode} {place reg count : Nat} (ready : Ready limits depth m)
    (target : Target m mode place) (small : reg + count < 256)
    (holds : Holds img m.reservation m.pc (passCode mode reg count)) :
    ∃ m', Proceeds img limits count m m' ∧ SameFrame m m' ∧ m'.pc = m.pc + count ∧
      (∀ i < count, reg + 1 + i < m.reservation ∧
        m'.register (place + 1 + i) = m.register (m.base + (reg + 1 + i))) ∧
      ∀ x, x ≤ place ∨ place + count < x → m'.register x = m.register x := by
  induction count with
  | zero => exact ⟨m, .refl _ _ _, .refl m, rfl, nofun, fun _ _ => rfl⟩
  | succ count ih =>
    rw [passCode_succ] at holds
    obtain ⟨m₁, proceeds, same, pc_eq, copied, others⟩ := ih (by omega) holds.left
    have last := holds.right
    rw [length_passCode, ← pc_eq] at last
    have hsrc : reg + 1 + count < 256 := by omega
    have hdst : 1 + count < 256 := by omega
    have source := target.source_lt hsrc hdst last
    have ready₁ := ready.same same
    have inside := (target.same same).inside ready₁ hdst
    have unread : m₁.register (m.base + (reg + 1 + count)) =
        m.register (m.base + (reg + 1 + count)) := by
      apply others
      cases target with
      | frame => exact .inr (by omega)
      | window => exact .inl (by omega)
    have step := ready₁.proceeds_apply last.head rfl ((target.same same).plan_mov hsrc hdst)
    refine ⟨_, proceeds.trans step, same.trans (sameFrame_write _ _ _), ?_, ?_, ?_⟩
    · change m₁.pc + 1 = _
      omega
    · intro i lt
      rw [register_write inside, same.base_eq, unread]
      by_cases latest : i = count
      · subst latest
        exact ⟨source, if_pos (by omega)⟩
      · have before := copied i (by omega)
        rw [if_neg (by omega)]
        exact before
    · intro x outside
      rw [register_write inside, if_neg (by omega)]
      exact others x (by omega)

/-! ## Operations and calls -/

theorem ofInt_tdiv_eq (x y : Int64) : Int64.ofInt (x.toInt.tdiv y.toInt) = x / y := by
  apply Int64.toInt_inj.1
  rw [Int64.toInt_div, Int64.toInt_ofInt]

theorem maxLocalRegister_ternary (op : BinaryOp) {a b c : Nat} (ha : a < 256) (hb : b < 256)
    (hc : c < 256) :
    (Instruction.ternary op.opcode (.ofNat a) (.ofNat b) (.ofNat c)).maxLocalRegister =
      some (max (max a b) c) := by
  simp only [Instruction.maxLocalRegister, Instruction.op?_ternary]
  simp only [Instruction.ternary, byte_toNat ha, byte_toNat hb, byte_toNat hc]
  cases op <;> rfl

/-- An operation on registers gives what it gives on their values. -/
theorem plan_ternary (op : BinaryOp) {a b c : Nat} (ha : a < 256) (hb : b < 256) (hc : c < 256) :
    (∃ v, op.eval (m.register (m.base + a)) (m.register (m.base + b)) = pure v ∧
      m.plan img limits op.opcode (.ternary op.opcode (.ofNat a) (.ofNat b) (.ofNat c)) =
        .ok (.write (m.base + c) v)) ∨
    ∃ e kind, op.eval (m.register (m.base + a)) (m.register (m.base + b)) = throw e ∧
      e.kind? = some kind ∧
        m.plan img limits op.opcode (.ternary op.opcode (.ofNat a) (.ofNat b) (.ofNat c)) =
          .error kind := by
  cases op with
  | add | sub | mul | gt =>
    left
    simp only [BinaryOp.opcode, plan, Instruction.ternary, writeReg, reg, byte_toNat ha,
      byte_toNat hb, byte_toNat hc, BinaryOp.eval]
    exact ⟨_, rfl, rfl⟩
  | div =>
    simp only [BinaryOp.opcode, plan, Instruction.ternary, writeReg, reg, byte_toNat ha,
      byte_toNat hb, byte_toNat hc, BinaryOp.eval, quotient, ofInt_tdiv_eq]
    by_cases zero : m.register (m.base + b) = 0
    · right
      simp only [if_pos zero]
      exact ⟨_, _, rfl, rfl, rfl⟩
    · by_cases overflow : m.register (m.base + a) = Int64.minValue ∧ m.register (m.base + b) = -1
      · right
        simp only [if_neg zero, if_pos overflow]
        exact ⟨_, _, rfl, rfl, rfl⟩
      · left
        simp only [if_neg zero, if_neg overflow]
        exact ⟨_, rfl, rfl⟩

/-- An operation computes its value from two registers and writes it to a third. -/
theorem Ready.operates {op : BinaryOp} {a b c : Nat} (ready : Ready limits depth m)
    (ha : a < 256) (hb : b < 256) (hc : c < 256)
    (fetched : img.code[m.pc]? =
      some (.ternary op.opcode (.ofNat a) (.ofNat b) (.ofNat c))) :
    Agrees img limits depth m (fun v m' => m' = m.apply (.write (m.base + c) v))
      (op.eval (m.register (m.base + a)) (m.register (m.base + b))) := by
  have decoded := Instruction.op?_ternary op.opcode (.ofNat a) (.ofNat b) (.ofNat c)
  rcases plan_ternary op ha hb hc with
    ⟨v, eval_eq, planned⟩ | ⟨error, kind, eval_eq, kind_eq, planned⟩
  · rw [eval_eq]
    exact .value (ready.reaches_apply fetched decoded planned) rfl
  · rw [eval_eq]
    exact .error (ready.run_of_error fetched decoded planned) kind_eq

theorem maxLocalRegister_jmpc {r : Nat} (small : r < 256) (slot : UInt16) :
    (Instruction.const .jmpc (.ofNat r) slot).maxLocalRegister = some r := by
  simp only [Instruction.maxLocalRegister, Instruction.op?_const, Opcode.shape, reduceCtorEq,
    ↓reduceIte]
  simp only [Instruction.const, byte_toNat small]

theorem plan_jmpc {r target : Nat} {slot : UInt16} (small : r < 256)
    (target_eq : m.jumpTarget img (Instruction.const .jmpc (.ofNat r) slot).constIndex =
      .ok target) :
    m.plan img limits .jmpc (.const .jmpc (.ofNat r) slot) =
      .ok (if m.register (m.base + r) = 0 then .jump target else .proceed) := by
  simp only [plan, target_eq]
  simp only [reg, Instruction.const, byte_toNat small]

theorem plan_jmp {r : UInt8} {target : Nat} {slot : UInt16}
    (target_eq : m.jumpTarget img (Instruction.const .jmp r slot).constIndex = .ok target) :
    m.plan img limits .jmp (.const .jmp r slot) = .ok (.jump target) := by
  simp only [plan, target_eq]

theorem kept_jump (lo : Nat) (m : Machine) (target : Nat) :
    Kept lo m (m.apply (.jump target)) :=
  ⟨⟨rfl, rfl, rfl, rfl, rfl, rfl⟩, fun _ _ _ => rfl⟩

theorem kept_proceed (lo : Nat) (m : Machine) : Kept lo m (m.apply .proceed) :=
  ⟨⟨rfl, rfl, rfl, rfl, rfl, rfl⟩, fun _ _ _ => rfl⟩

/-- A call enters its callee in the window. -/
theorem Ready.enters {external : Bool} {index : Nat} {callee : Callee}
    (ready : Ready limits (depth + 1) m)
    (fetched : img.code[m.pc]? = some (.call (.callFor external false) (.ofNat index)))
    (found : ∀ op, m.callee img external (Instruction.call op (.ofNat index)).callIndex =
      .ok callee) (small : callee.reservation ≤ 256) :
    Reaches img limits 1 m (m.apply (.enter callee)) ∧
      Ready limits depth (m.apply (.enter callee)) := by
  obtain ⟨unlimited, running, callers_le, room, reservation_le⟩ := ready
  have space : m.stack.size < limits.maxCallStack ∧
      m.base + m.reservation + minRegisters ≤ m.registers.size := by
    unfold minRegisters
    omega
  have planned : m.plan img limits (.callFor external false)
      (.call (.callFor external false) (.ofNat index)) = .ok (.enter callee) := by
    cases external <;>
      simp only [Opcode.callFor, plan, planCall, found, if_pos space]
  refine ⟨Ready.reaches_apply ⟨unlimited, running, callers_le, room, reservation_le⟩ fetched
    (Instruction.op?_call _ _) planned, unlimited, running, ?_, ?_, small⟩
  · simp only [apply, Array.size_push]
    omega
  · simp only [apply]
    omega

/-- A call in return position enters its callee in the frame of the caller. -/
theorem Ready.reenters {external : Bool} {index : Nat} {callee : Callee}
    (ready : Ready limits (depth + 1) m)
    (fetched : img.code[m.pc]? = some (.call (.callFor external true) (.ofNat index)))
    (found : ∀ op, m.callee img external (Instruction.call op (.ofNat index)).callIndex =
      .ok callee) (small : callee.reservation ≤ 256) :
    Proceeds img limits 1 m (m.apply (.reenter callee)) ∧
      Ready limits depth (m.apply (.reenter callee)) := by
  have planned : m.plan img limits (.callFor external true)
      (.call (.callFor external true) (.ofNat index)) = .ok (.reenter callee) := by
    cases external <;>
      simp only [Opcode.callFor, plan, planTailCall, found]
  refine ⟨ready.proceeds_apply fetched (Instruction.op?_call _ _) planned, ready.unlimited,
    ready.running, ?_, ?_, small⟩
  · have := ready.callers_le
    simp only [apply]
    omega
  · have := ready.room
    simp only [apply]
    omega

end Machine

end RegLisp
