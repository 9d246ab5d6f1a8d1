import RegLisp.Proofs.CodePaths
import RegLisp.Proofs.FrameIsolation

/-!
# Stale registers

A stretch of code that reads only parameters and what it has written, and writes only registers from
a given one on, is executed twice: the second time with other values in the registers of the frame
from the given one on. The two runs go on together, through all calls, and come to the end with the
same value. The registers below the given one stay as they are. Callees may be any code at all: they
reach no register of the frame.
-/

namespace RegLisp

/-- The code of the stretch lies where the machine is about to execute, its registers are in the
frame of the machine, and its jumps find the words of its pool. -/
structure Stretch.Loaded (s : Stretch) (img : Image) (m : Machine) : Prop where
  start_eq : m.pc = s.start + img.codeOffset m.module
  holds : Holds img m.reservation m.pc s.code
  jumps : ∀ i ∈ s.code, i.jumps = true →
    img.constant m.module i.constIndex = s.pool[i.constIndex]?

/-- The machine has come to the end of the stretch, in the frame in which it was begun. -/
def Stretch.Done (s : Stretch) (m m' : Machine) : Prop :=
  m'.depth = m.depth ∧ m'.pc = m.pc + s.code.length

instance (s : Stretch) (m m' : Machine) : Decidable (s.Done m m') :=
  inferInstanceAs (Decidable (_ ∧ _))

namespace Machine

variable {img : Image} {limits : Limits} {s : Stretch} {n value r : Nat} {m m₁ m₂ : Machine}

/-- A register of the frame from the given one on. -/
def Stale (m : Machine) (r x : Nat) : Prop := m.base + r ≤ x ∧ x < m.base + m.reservation

/-- The machine is in the frame of `m`, at the given address. -/
structure InFrame (m : Machine) (pc : Nat) (m₁ : Machine) : Prop where
  stack_eq : m₁.stack = m.stack
  pc_eq : m₁.pc = pc
  base_eq : m₁.base = m.base
  module_eq : m₁.module = m.module
  reservation_eq : m₁.reservation = m.reservation

theorem Returned.inFrame {pc floor : Nat} {file : Array Int64}
    (h : m₁.Returned m.stack.toList ⟨pc, m.base, m.module, m.reservation⟩ floor file) :
    m.InFrame pc m₁ :=
  ⟨Array.toList_inj.1 h.stack, h.pc, h.base, h.module, h.reservation⟩

/-- Where control is: in the frame of `m` at the given address, or in a call that returns there. -/
def Heads (m : Machine) (pc : Nat) (m₁ : Machine) : Prop :=
  m.InFrame pc m₁ ∨
    ∃ file, m₁.Inside (m.stack.toList ++ [⟨pc, m.base, m.module, m.reservation⟩])
      (m.base + m.reservation) file

/-- Two runs over the stretch from `m` go on together. They agree on all but stale registers and on
what has been written, which is all that the rest of the code reads. -/
structure Lockstep (img : Image) (s : Stretch) (n value r : Nat) (m m₁ m₂ : Machine)
    (address : Nat) (W : List Nat) : Prop where
  sound : s.Sound n value address W
  heads : m.Heads (address + img.codeOffset m.module) m₁
  agree : Agree (fun x => ¬ m.Stale r x ∨ ∃ w ∈ W, x = m.base + w) m₁ m₂
  kept : ∀ x, x < m.base + r → x < m.base + m.reservation → m₁.registers[x]? = m.registers[x]?

namespace Lockstep

variable {address : Nat} {W : List Nat} {i : Instruction}

theorem not_stale_of_lt {x : Nat} (lt : x < r) : ¬ m.Stale r (m.base + x) := by
  unfold Stale
  omega

/-- What a register given to the code holds is the same in both runs. -/
theorem seen_of_given (params : n = 0 ∨ n < r) {x : Nat} (given : Given n W x) :
    ¬ m.Stale r (m.base + x) ∨ ∃ w ∈ W, m.base + x = m.base + w := by
  rcases given with ⟨pos, le⟩ | mem
  · exact .inl (not_stale_of_lt (by omega))
  · exact .inr ⟨x, mem, rfl⟩

/-- The next instruction reads what both runs agree on. -/
theorem seen (h : Lockstep img s n value r m m₁ m₂ address W) (params : n = 0 ∨ n < r)
    (frame : m.InFrame (address + img.codeOffset m.module) m₁)
    (fetched : s.fetch address = some i) :
    ∀ x ∈ m₁.sources i, ¬ m.Stale r x ∨ ∃ w ∈ W, x = m.base + w := by
  intro x mem
  rw [sources, frame.base_eq, frame.reservation_eq] at mem
  rcases List.mem_append.1 mem with mem | mem
  · obtain ⟨k, read, rfl⟩ := List.mem_map.1 mem
    exact seen_of_given params (h.sound.reads fetched k read)
  · obtain ⟨k, -, rfl⟩ := List.mem_map.1 mem
    left
    unfold Stale
    omega

/-- One instruction of the stretch keeps the runs together, whether it stays in the frame or enters
a callee. -/
theorem perform (h : Lockstep img s n value r m m₁ m₂ address W)
    (loaded : s.Loaded img m) (within : ∀ i ∈ s.code, i.Within r)
    (frame : m.InFrame (address + img.codeOffset m.module) m₁) (fetched : s.fetch address = some i)
    {effect : Effect} (performs : m₁.Performs img i effect) :
    ∃ address' W', Lockstep img s n value r m (m₁.apply effect) (m₂.apply effect) address' W' := by
  have mem : i ∈ s.code := by
    obtain ⟨k, -, found⟩ := Stretch.exists_of_fetch fetched
    exact List.mem_of_getElem? found
  have inside := within i mem
  obtain ⟨stack_eq, pc_eq, base_eq, module_eq, reservation_eq⟩ := frame
  have pc_succ : m₁.pc + 1 = address + 1 + img.codeOffset m.module := by
    rw [pc_eq]
    omega
  have onwards : ∀ b ∈ s.next address i, i.writes = [] → s.Sound n value b W := by
    intro b leads writes_eq
    have sound := h.sound.next fetched leads
    rwa [writes_eq, List.append_nil] at sound
  cases performs with
  | @write k value writes_eq falls =>
    have above := inside.writes_ge k (by simp [writes_eq])
    have sound := h.sound.next fetched (Stretch.mem_next_of_falls falls)
    rw [writes_eq] at sound
    refine ⟨address + 1, W ++ [k], sound, .inl ⟨stack_eq, pc_succ, base_eq, module_eq,
      reservation_eq⟩, ?_, ?_⟩
    · refine (h.agree.apply_write _ _).mono fun x seen => ?_
      rcases seen with fresh | ⟨w, mem, rfl⟩
      · exact .inl (.inl fresh)
      · rcases List.mem_append.1 mem with mem | mem
        · exact .inl (.inr ⟨w, mem, rfl⟩)
        · rw [List.mem_singleton.1 mem, base_eq]
          exact .inr rfl
    · intro x below framed
      rw [← h.kept x below framed]
      exact Array.getElem?_setIfInBounds_ne (by omega)
  | writeWindow writes_eq falls =>
    refine ⟨address + 1, W, onwards _ (Stretch.mem_next_of_falls falls) writes_eq,
      .inl ⟨stack_eq, pc_succ, base_eq, module_eq, reservation_eq⟩, h.agree.apply _, ?_⟩
    intro x below framed
    rw [← h.kept x below framed]
    exact Array.getElem?_setIfInBounds_ne (by unfold window; omega)
  | proceed writes_eq falls =>
    exact ⟨address + 1, W, onwards _ (Stretch.mem_next_of_falls falls) writes_eq,
      .inl ⟨stack_eq, pc_succ, base_eq, module_eq, reservation_eq⟩, h.agree.apply _, h.kept⟩
  | @jump word writes_eq jumps found =>
    rw [module_eq, loaded.jumps i mem jumps] at found
    refine ⟨word.toNat, W, onwards _ (Stretch.mem_next_of_jumps jumps found) writes_eq,
      .inl ⟨stack_eq, ?_, base_eq, module_eq, reservation_eq⟩, h.agree.apply _, h.kept⟩
    rw [← module_eq]
    rfl
  | @enter callee writes_eq falls =>
    refine ⟨address + 1, W, onwards _ (Stretch.mem_next_of_falls falls) writes_eq,
      .inr ⟨(m₁.apply (.enter callee)).registers, ?_⟩, h.agree.apply _, h.kept⟩
    have entered := inside_enter m₁ callee
    rw [stack_eq, pc_succ, base_eq, module_eq, reservation_eq] at entered
    have floor_eq : (m₁.apply (.enter callee)).base = m.base + m.reservation := by
      rw [← base_eq, ← reservation_eq]
      rfl
    rwa [floor_eq] at entered
  | away writes_eq falls jumps =>
    rcases inside.stays with stays | stays
    · rw [falls] at stays
      cases stays
    · rw [jumps] at stays
      cases stays

/-- In a callee the runs stay together: nothing that it reads is stale, and it writes nothing below
its own frame. -/
theorem step_inside (h : Lockstep img s n value r m m₁ m₂ address W) {file : Array Int64}
    (inside : m₁.Inside
      (m.stack.toList ++ [⟨address + img.codeOffset m.module, m.base, m.module, m.reservation⟩])
      (m.base + m.reservation) file) :
    Lockstep img s n value r m (m₁.step img limits).1 (m₂.step img limits).1 address W := by
  have alike : Alike img limits m₁ m₂ := h.agree.step limits fun i _ x mem => by
    have base_le := inside.base_le
    left
    unfold Stale
    rcases List.mem_append.1 mem with mem | mem
    · obtain ⟨k, -, rfl⟩ := List.mem_map.1 mem
      omega
    · obtain ⟨k, -, rfl⟩ := List.mem_map.1 mem
      omega
  have stepped : (m₁.step img limits).1.Inside _ _ file ∨
      (m₁.step img limits).1.Returned _ _ _ file := inside.step
  refine ⟨h.sound, ?_, alike.agree h.agree, ?_⟩
  · rcases stepped with inside | returned
    · exact .inr ⟨file, inside⟩
    · exact .inl returned.inFrame
  · intro x below framed
    have after : (m₁.step img limits).1.registers[x]? = file[x]? := by
      rcases stepped with inside | returned
      · exact inside.kept x framed
      · exact returned.kept x framed
    rw [after, ← inside.kept x framed, h.kept x below framed]

/-- Until the end of the stretch is reached, every step keeps the runs together. -/
theorem step (h : Lockstep img s n value r m m₁ m₂ address W) (loaded : s.Loaded img m)
    (within : ∀ i ∈ s.code, i.Within r) (params : n = 0 ∨ n < r) (busy : ¬ s.Done m m₁) :
    ∃ address' W', Lockstep img s n value r m (m₁.step img limits).1 (m₂.step img limits).1
      address' W' := by
  rcases h.heads with frame | ⟨file, inside⟩
  · cases fetched : s.fetch address with
    | none =>
      obtain ⟨rfl, -⟩ := h.sound.leaves fetched
      refine absurd ⟨?_, ?_⟩ busy
      · rw [depth, frame.stack_eq, depth]
      · rw [frame.pc_eq, loaded.start_eq, Stretch.stop]
        omega
    | some i =>
      have here : img.code[m₁.pc]? = some i := by
        obtain ⟨k, rfl, found⟩ := Stretch.exists_of_fetch fetched
        rw [← loaded.holds.fetch k i found, frame.pc_eq, loaded.start_eq]
        congr 1
        omega
      have seen : ∀ i', img.code[m₁.pc]? = some i' → ∀ x ∈ m₁.sources i',
          ¬ m.Stale r x ∨ ∃ w ∈ W, x = m.base + w := by
        intro i' found
        obtain rfl := Option.some.inj (here.symm.trans found)
        exact h.seen params frame fetched
      have alike := h.agree.step limits seen
      have agree := alike.agree h.agree
      cases alike with
      | stay steps status left right =>
        refine ⟨address, W, h.sound, ?_, agree, ?_⟩
        · rw [left]
          exact .inl ⟨frame.stack_eq, frame.pc_eq, frame.base_eq, frame.module_eq,
            frame.reservation_eq⟩
        · rw [left]
          exact h.kept
      | perform found performs left right =>
        obtain rfl := Option.some.inj (here.symm.trans found)
        rw [left, right]
        exact h.perform loaded within frame fetched performs
  · exact ⟨address, W, h.step_inside inside⟩

/-- The runs stay together as long as the end of the stretch has not been reached. -/
theorem advance (h : Lockstep img s n value r m m₁ m₂ address W) (loaded : s.Loaded img m)
    (within : ∀ i ∈ s.code, i.Within r) (params : n = 0 ∨ n < r) (k : Nat)
    (busy : ∀ j < k, ¬ s.Done m (m₁.advance img limits j)) :
    ∃ address' W', Lockstep img s n value r m (m₁.advance img limits k) (m₂.advance img limits k)
      address' W' := by
  induction k with
  | zero => exact ⟨address, W, h⟩
  | succ k ih =>
    obtain ⟨address', W', together⟩ := ih fun j lt => busy j (by omega)
    exact together.step loaded within params (busy k (by omega))

/-- At the end of the stretch both runs are back in the frame, with the same value. -/
theorem value_eq (h : Lockstep img s n value r m m₁ m₂ address W) (loaded : s.Loaded img m)
    (params : n = 0 ∨ n < r) (done : s.Done m m₁) :
    m.InFrame (m.pc + s.code.length) m₁ ∧
      m₂.register (m.base + value) = m₁.register (m.base + value) := by
  rcases h.heads with frame | ⟨file, inside⟩
  · have pc_eq := done.2
    have here : address = s.stop := by
      rw [frame.pc_eq, loaded.start_eq] at pc_eq
      rw [Stretch.stop]
      omega
    rw [← pc_eq, frame.pc_eq]
    have given := (h.sound.leaves (here ▸ s.fetch_stop)).2
    exact ⟨frame, h.agree.register_eq (seen_of_given params given)⟩
  · have deeper := inside.depth_lt
    rw [Array.length_toList, done.1, depth] at deeper
    exact absurd deeper (Nat.lt_irrefl _)

end Lockstep

/-- What has become of two runs over the stretch that were begun in `m`, or in a machine that agrees
with it on all but stale registers. -/
structure Unaffected (s : Stretch) (value r : Nat) (m m₁ m₂ : Machine) : Prop where
  /-- The registers below `r` are as they were. -/
  kept : ∀ x, x < m.base + r → x < m.base + m.reservation → m₁.registers[x]? = m.registers[x]?
  /-- The runs have taken the same way, and differ in stale registers only. -/
  agree : Agree (fun x => ¬ m.Stale r x) m₁ m₂
  /-- At the end of the stretch they have the same value. -/
  value_eq : s.Done m m₁ → m.InFrame (m.pc + s.code.length) m₁ ∧
    m₂.register (m.base + value) = m₁.register (m.base + value)

end Machine

/-- The stretch keeps to the registers from `r` on and to those of `n` parameters. -/
structure Stretch.Disciplined (s : Stretch) (n value r : Nat) : Prop where
  writes_ge : ∀ i ∈ s.code, ∀ w ∈ i.writes, r ≤ w
  /-- On every path, what is read is a parameter or was written before on that path. -/
  reads_given : ∀ path a i, s.Walk s.start path a → s.fetch a = some i →
    ∀ x ∈ i.reads, Given n (path.flatMap Instruction.writes) x
  /-- A path leaves the code at its end only, and has `value` then. -/
  value_given : ∀ path a, s.Walk s.start path a → s.fetch a = none →
    a = s.stop ∧ Given n (path.flatMap Instruction.writes) value
  /-- What a run finds in the registers from `r` on has no influence on it. -/
  unaffected : ∀ (img : Image) (limits : Limits) (m m' : Machine), s.Loaded img m →
    m.Agree (fun x => ¬ m.Stale r x) m' → ∀ k, (∀ j < k, ¬ s.Done m (m.advance img limits j)) →
      Machine.Unaffected s value r m (m.advance img limits k) (m'.advance img limits k)

theorem Stretch.Sound.disciplined {s : Stretch} {n value r : Nat}
    (sound : s.Sound n value s.start []) (within : ∀ i ∈ s.code, i.Within r)
    (params : n = 0 ∨ n < r) : s.Disciplined n value r where
  writes_ge i mem := (within i mem).writes_ge
  reads_given path a i walk fetched := by
    have here := sound path a walk
    rwa [fetched] at here
  value_given path a walk fetched := by
    have here := sound path a walk
    rwa [fetched] at here
  unaffected img limits m m' loaded agree k busy := by
    have begun : Machine.Lockstep img s n value r m m m' s.start [] :=
      { sound
        heads := .inl ⟨rfl, loaded.start_eq, rfl, rfl, rfl⟩
        agree := agree.mono fun x seen => seen.resolve_right (by simp)
        kept := fun _ _ _ => rfl }
    obtain ⟨address, W, together⟩ := begun.advance loaded within params k busy
    exact ⟨together.kept, together.agree.mono fun _ => .inl, together.value_eq loaded params⟩

end RegLisp
