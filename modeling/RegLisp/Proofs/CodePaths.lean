import RegLisp.Proofs.OperandUse
import RegLisp.Proofs.Segments

/-!
# Paths through code

The code of a term is followed along every path that control can take in it. If the registers of
the term keep to a discipline, which is said of the term alone, then its code writes no register
below the one that the term starts at, and on no path does it read a register that is neither a
parameter nor written before on that path. Every path that leaves the code does so at its end, with
the value of the term in its register.
-/

namespace RegLisp

/-! ## Stretches of code -/

/-- Instructions from an address on, with the constant pool that their jumps use. -/
structure Stretch where
  start : Nat
  code : List Instruction
  pool : Array UInt64
  deriving DecidableEq, Repr

/-- The register is that of one of `n` parameters, or has been written. -/
def Given (n : Nat) (written : List Nat) (r : Nat) : Prop := 1 ≤ r ∧ r ≤ n ∨ r ∈ written

theorem Given.mono {n r : Nat} {written written' : List Nat} (h : Given n written r)
    (sub : written ⊆ written') : Given n written' r := h.imp_right fun mem => sub mem

namespace Stretch

/-- The address behind the code. -/
def stop (s : Stretch) : Nat := s.start + s.code.length

/-- The instruction at an address. -/
def fetch (s : Stretch) (address : Nat) : Option Instruction :=
  if s.start ≤ address then s.code[address - s.start]? else none

/-- Where control can go from an instruction at the given address. -/
def next (s : Stretch) (address : Nat) (i : Instruction) : List Nat :=
  (if i.falls then [address + 1] else []) ++
    if i.jumps then (s.pool[i.constIndex]?.map UInt64.toNat).toList else []

/-- A path: control can come from one address to another by way of the given instructions. -/
inductive Walk (s : Stretch) : Nat → List Instruction → Nat → Prop
  | nil {a : Nat} : Walk s a [] a
  | cons {a b c : Nat} {i : Instruction} {path : List Instruction} (fetched : s.fetch a = some i)
      (leads : b ∈ s.next a i) (rest : Walk s b path c) : Walk s a (i :: path) c

/-- On every path from the address, whatever is read is given by then, and where the path leaves
the code it does so at its end, with `value` given. -/
def Sound (s : Stretch) (n value address : Nat) (written : List Nat) : Prop :=
  ∀ path address', s.Walk address path address' →
    match s.fetch address' with
    | some i => ∀ r ∈ i.reads, Given n (written ++ path.flatMap Instruction.writes) r
    | none => address' = s.stop ∧ Given n (written ++ path.flatMap Instruction.writes) value

variable {s : Stretch} {n value a b : Nat} {W : List Nat} {i : Instruction}

theorem fetch_add (s : Stretch) (k : Nat) : s.fetch (s.start + k) = s.code[k]? := by
  rw [fetch, if_pos (Nat.le_add_right _ _), Nat.add_sub_cancel_left]

theorem fetch_stop (s : Stretch) : s.fetch s.stop = none := by
  rw [stop, fetch_add, List.getElem?_eq_none (Nat.le_refl _)]

theorem exists_of_fetch (fetched : s.fetch a = some i) :
    ∃ k, a = s.start + k ∧ s.code[k]? = some i := by
  unfold fetch at fetched
  split at fetched
  · rename_i le
    exact ⟨a - s.start, by omega, fetched⟩
  · cases fetched

theorem mem_next_of_falls (falls : i.falls = true) : a + 1 ∈ s.next a i := by
  simp [next, falls]

theorem mem_next_of_jumps {word : UInt64} (jumps : i.jumps = true)
    (found : s.pool[i.constIndex]? = some word) : word.toNat ∈ s.next a i := by
  simp [next, jumps, found]

/-- What is read at an address is given, and from there on the paths are sound. -/
theorem sound_of_next (fetched : s.fetch a = some i) (given : ∀ r ∈ i.reads, Given n W r)
    (after : ∀ b ∈ s.next a i, s.Sound n value b (W ++ i.writes)) : s.Sound n value a W := by
  intro path b walk
  cases walk with
  | nil => simpa [fetched] using given
  | cons fetched' leads rest =>
    obtain rfl := Option.some.inj (fetched.symm.trans fetched')
    have later := after _ leads _ _ rest
    rwa [List.append_assoc, ← List.flatMap_cons] at later

theorem Sound.next (h : s.Sound n value a W) (fetched : s.fetch a = some i)
    (leads : b ∈ s.next a i) : s.Sound n value b (W ++ i.writes) := by
  intro path c walk
  have longer := h _ _ (.cons fetched leads walk)
  rwa [List.flatMap_cons, ← List.append_assoc] at longer

theorem Sound.reads (h : s.Sound n value a W) (fetched : s.fetch a = some i) :
    ∀ r ∈ i.reads, Given n W r := by
  have here := h _ _ .nil
  rw [fetched] at here
  simpa using here

theorem Sound.leaves (h : s.Sound n value a W) (fetched : s.fetch a = none) :
    a = s.stop ∧ Given n W value := by
  have here := h _ _ .nil
  rw [fetched] at here
  simpa using here

/-- At the end nothing more is read. -/
theorem sound_stop (given : Given n W value) : s.Sound n value s.stop W := by
  intro path b walk
  cases walk with
  | nil => simpa [fetch_stop] using given
  | cons fetched =>
    rw [fetch_stop] at fetched
    cases fetched

/-- The code stands at the address. -/
def Has (s : Stretch) (address : Nat) (code : List Instruction) : Prop :=
  ∀ (k : Nat) (i : Instruction), code[k]? = some i → s.fetch (address + k) = some i

namespace Has

variable {is is' : List Instruction}

theorem left (h : s.Has a (is ++ is')) : s.Has a is :=
  fun _ _ found => of_getElem?_left h found

theorem right (h : s.Has a (is ++ is')) : s.Has (a + is.length) is' := by
  intro k i found
  have fetched := of_getElem?_right h found
  rwa [← Nat.add_assoc] at fetched

theorem head (h : s.Has a (i :: is)) : s.fetch a = some i := h 0 i rfl

theorem tail (h : s.Has a (i :: is)) : s.Has (a + 1) is := by
  have split : s.Has a ([i] ++ is) := h
  exact split.right

end Has

/-- The slots hold the addresses. -/
def Points (s : Stretch) (targets : List (Nat × Nat)) : Prop :=
  ∀ x ∈ targets, s.pool[x.1]?.map UInt64.toNat = some x.2

end Stretch

/-! ## Instructions of compiled code -/

namespace Instruction

/-- An instruction behind which control goes on, and the registers that it reads and writes. -/
structure Straight (i : Instruction) (reads writes : List Nat) : Prop where
  reads_eq : i.reads = reads
  writes_eq : i.writes = writes
  falls : i.falls = true
  plain : i.jumps = false

/-- An instruction that stays in its frame, and writes no register of it below the given one. -/
structure Within (r : Nat) (i : Instruction) : Prop where
  writes_ge : ∀ w ∈ i.writes, r ≤ w
  stays : i.falls = true ∨ i.jumps = true

theorem Within.mono {r r' : Nat} {i : Instruction} (h : i.Within r) (le : r' ≤ r) : i.Within r' :=
  ⟨fun w mem => Nat.le_trans le (h.writes_ge w mem), h.stays⟩

theorem Straight.within {i : Instruction} {reads writes : List Nat} {r : Nat}
    (h : i.Straight reads writes) (above : ∀ w ∈ writes, r ≤ w) : i.Within r :=
  ⟨by rwa [h.writes_eq], .inl h.falls⟩

section

variable {src dst reg : Nat}

theorem straight_loadi (small : reg < 256) (slot : UInt16) :
    (const .loadi (.ofNat reg) slot).Straight [] [reg] where
  reads_eq := rfl
  writes_eq := by
    change [(UInt8.ofNat reg).toNat] = [reg]
    rw [byte_toNat small]
  falls := rfl
  plain := rfl

theorem straight_ternary (op : BinaryOp) {a b c : Nat} (ha : a < 256) (hb : b < 256)
    (hc : c < 256) :
    (ternary op.opcode (.ofNat a) (.ofNat b) (.ofNat c)).Straight [a, b] [c] where
  reads_eq := by
    have shape : (ternary op.opcode (.ofNat a) (.ofNat b) (.ofNat c)).reads =
        [(UInt8.ofNat a).toNat, (UInt8.ofNat b).toNat] := by cases op <;> rfl
    rw [shape, byte_toNat ha, byte_toNat hb]
  writes_eq := by
    have shape : (ternary op.opcode (.ofNat a) (.ofNat b) (.ofNat c)).writes =
        [(UInt8.ofNat c).toNat] := by cases op <;> rfl
    rw [shape, byte_toNat hc]
  falls := by cases op <;> rfl
  plain := by cases op <;> rfl

theorem straight_mov_frame (hsrc : src < 256) (hdst : dst < 256) :
    (movCode .frame src dst).Straight [src] [dst] where
  reads_eq := by
    change [(UInt8.ofNat src).toNat] = [src]
    rw [byte_toNat hsrc]
  writes_eq := by
    change [(UInt8.ofNat dst).toNat] = [dst]
    rw [byte_toNat hdst]
  falls := rfl
  plain := rfl

theorem straight_mov_toWindow (hsrc : src < 256) (dst : Nat) :
    (movCode .toWindow src dst).Straight [src] [] where
  reads_eq := by
    change [(UInt8.ofNat src).toNat] = [src]
    rw [byte_toNat hsrc]
  writes_eq := rfl
  falls := rfl
  plain := rfl

theorem straight_mov_fromWindow (src : Nat) (hdst : dst < 256) :
    (movCode .fromWindow src dst).Straight [] [dst] where
  reads_eq := rfl
  writes_eq := by
    change [(UInt8.ofNat dst).toNat] = [dst]
    rw [byte_toNat hdst]
  falls := rfl
  plain := rfl

theorem straight_call (external : Bool) (index : UInt32) :
    (call (.callFor external false) index).Straight [] [] := by
  cases external <;> exact ⟨rfl, rfl, rfl, rfl⟩

theorem reads_jmpc (small : reg < 256) (slot : UInt16) :
    (const .jmpc (.ofNat reg) slot).reads = [reg] := by
  change [(UInt8.ofNat reg).toNat] = [reg]
  rw [byte_toNat small]

end

end Instruction

namespace Stretch

variable {s : Stretch} {n value a : Nat} {W : List Nat}

theorem sound_straight {i : Instruction} {reads writes : List Nat} (fetched : s.fetch a = some i)
    (straight : i.Straight reads writes) (given : ∀ r ∈ reads, Given n W r)
    (after : s.Sound n value (a + 1) (W ++ writes)) : s.Sound n value a W := by
  obtain ⟨rfl, rfl, falls, plain⟩ := straight
  refine sound_of_next fetched given fun b leads => ?_
  simp only [next, falls, plain, ↓reduceIte, Bool.false_eq_true, List.append_nil,
    List.mem_singleton] at leads
  exact leads ▸ after

theorem sound_jmpc {reg slot target : Nat} (small : reg < 256) (slot_lt : slot < UInt16.size)
    (fetched : s.fetch a = some (.const .jmpc (.ofNat reg) (.ofNat slot)))
    (points : s.pool[slot]?.map UInt64.toNat = some target) (given : Given n W reg)
    (onwards : s.Sound n value (a + 1) W) (away : s.Sound n value target W) :
    s.Sound n value a W := by
  have next_eq : s.next a (.const .jmpc (.ofNat reg) (.ofNat slot)) = [a + 1, target] := by
    rw [next, Instruction.constIndex_const _ _ slot_lt, points]
    rfl
  refine sound_of_next fetched ?_ ?_
  · simpa [Instruction.reads_jmpc small] using given
  · have writes_eq : (Instruction.const .jmpc (.ofNat reg) (.ofNat slot)).writes = [] := rfl
    simpa [next_eq, writes_eq] using ⟨onwards, away⟩

theorem sound_jmp {slot target : Nat} (slot_lt : slot < UInt16.size)
    (fetched : s.fetch a = some (.const .jmp 0 (.ofNat slot)))
    (points : s.pool[slot]?.map UInt64.toNat = some target) (away : s.Sound n value target W) :
    s.Sound n value a W := by
  have next_eq : s.next a (.const .jmp 0 (.ofNat slot)) = [target] := by
    rw [next, Instruction.constIndex_const _ _ slot_lt, points]
    rfl
  have reads_eq : (Instruction.const .jmp 0 (.ofNat slot)).reads = [] := rfl
  have writes_eq : (Instruction.const .jmp 0 (.ofNat slot)).writes = [] := rfl
  refine sound_of_next fetched ?_ ?_
  · simp [reads_eq]
  · simpa [next_eq, writes_eq] using away

/-- A move makes its destination given. -/
theorem sound_move {src dst : Nat} (hsrc : src < 256) (hdst : dst < 256)
    (has : s.Has a (moveCode src dst)) (given : Given n W src)
    (after : ∀ W', W ⊆ W' → Given n W' dst → s.Sound n value (a + moveSize src dst) W') :
    s.Sound n value a W := by
  by_cases same : src = dst
  · subst same
    have here := after W (List.Subset.refl W) given
    rwa [moveSize, if_pos rfl] at here
  · rw [moveCode, if_neg same] at has
    rw [moveSize, if_neg same] at after
    refine sound_straight has.head (Instruction.straight_mov_frame hsrc hdst) (by simpa) ?_
    exact after _ (List.subset_append_left _ _) (.inr (by simp))

theorem sound_settle {t : Term} {dst : Nat} (plain : t.isTailCall = false) (hsrc : t.reg < 256)
    (hdst : dst < 256) (has : s.Has a (t.settleCode dst)) (given : Given n W t.reg)
    (after : ∀ W', W ⊆ W' → Given n W' dst → s.Sound n value (a + t.settleSize dst) W') :
    s.Sound n value a W := by
  simp only [Term.settleCode, Term.settleSize, plain, Bool.false_eq_true, ↓reduceIte] at has after
  exact sound_move hsrc hdst has given after

/-- Passing arguments reads their registers. -/
theorem sound_pass {reg count : Nat} (small : reg + count < 256)
    (has : s.Has a (passCode .toWindow reg count)) (given : ∀ k < count, Given n W (reg + 1 + k))
    (after : s.Sound n value (a + count) W) : s.Sound n value a W := by
  induction count with
  | zero => exact after
  | succ count ih =>
    rw [Machine.passCode_succ] at has
    refine ih (by omega) has.left (fun k lt => given k (by omega)) ?_
    have last := has.right
    rw [length_passCode] at last
    refine sound_straight last.head
      (Instruction.straight_mov_toWindow (show reg + 1 + count < 256 by omega) _) ?_ ?_
    · simpa using given count (by omega)
    · rwa [List.append_nil]

end Stretch

/-! ## Terms -/

mutual

/-- The registers of the term start at `reg`, and its variables are among `n` parameters. No call in
it reuses the frame. -/
def Term.Disciplined (n reg : Nat) : Term → Prop
  | .const r _ _ => r = reg ∧ reg < 256
  | .var r _ _ => 1 ≤ r ∧ r ≤ n
  | .binary r _ _ lhs rhs =>
    r = reg ∧ reg < 256 ∧ n < 256 ∧ lhs.Disciplined n (reg + 1) ∧
      ∃ reg', reg < reg' ∧ rhs.Disciplined n reg'
  | .cond r _ joinSlot elseSlot test onTrue onFalse =>
    r = reg ∧ reg < 256 ∧ n < 256 ∧ joinSlot < UInt16.size ∧ elseSlot < UInt16.size ∧
      test.Disciplined n reg ∧ onTrue.Disciplined n reg ∧ onFalse.Disciplined n reg
  | .call r _ tail _ _ args =>
    r = reg ∧ reg < 256 ∧ n < 256 ∧ tail = false ∧ Term.ArgsDisciplined n (reg + 1) args

/-- Each argument starts at its own register. -/
def Term.ArgsDisciplined (n slot : Nat) : List Term → Prop
  | [] => True
  | arg :: args =>
    slot < 256 ∧ arg.Disciplined n slot ∧ Term.ArgsDisciplined n (slot + 1) args

end

section

variable {n : Nat}

theorem Term.Disciplined.reg_lt {t : Term} {reg : Nat} (h : t.Disciplined n reg) (small : n < 256) :
    t.reg < 256 := by
  cases t with
  | var => exact Nat.lt_of_le_of_lt h.2 small
  | const =>
    obtain ⟨rfl, lt⟩ := h
    exact lt
  | binary | cond | call =>
    obtain ⟨rfl, lt, -⟩ := h
    exact lt

theorem Term.Disciplined.not_tail {t : Term} {reg : Nat} (h : t.Disciplined n reg) :
    t.isTailCall = false := by
  cases t with
  | call =>
    obtain ⟨-, -, -, plain, -⟩ := h
    exact plain
  | const | var | binary | cond => rfl

theorem Term.ArgsDisciplined.length_le {args : List Term} {slot : Nat}
    (h : Term.ArgsDisciplined n slot args) (start : slot ≤ 256) : slot + args.length ≤ 256 := by
  induction args generalizing slot with
  | nil => exact start
  | cons arg args ih =>
    have rest := ih h.2.2 h.1
    rw [List.length_cons]
    omega

theorem within_move {src dst reg : Nat} (hsrc : src < 256) (hdst : dst < 256) (above : reg ≤ dst) :
    ∀ i ∈ moveCode src dst, i.Within reg := by
  unfold moveCode
  split
  · simp
  · simpa using (Instruction.straight_mov_frame hsrc hdst).within (by simpa)

theorem within_call {reg index count : Nat} (external : Bool) (small : reg + count < 256) :
    ∀ i ∈ callCode external false reg index count, i.Within reg := by
  simp only [callCode, Bool.false_eq_true, ↓reduceIte, List.forall_mem_append, List.forall_mem_cons,
    List.not_mem_nil, false_implies, implies_true, and_true]
  refine ⟨?_, (Instruction.straight_call external _).within (by simp),
    (Instruction.straight_mov_fromWindow 0 (show reg < 256 by omega)).within (by simp)⟩
  intro i mem
  obtain ⟨k, lt, rfl⟩ := List.mem_map.1 mem
  have lt : k < count := List.mem_range.1 lt
  exact (Instruction.straight_mov_toWindow (show reg + 1 + k < 256 by omega) _).within (by simp)

mutual

/-- The code of a term writes only registers from its own on. -/
theorem Term.Disciplined.within (external : Nat → Bool) : ∀ {t : Term} {reg : Nat},
    t.Disciplined n reg → ∀ i ∈ t.code external, i.Within reg
  | .const _ slot _, reg, ⟨rfl, lt⟩ => by
    simpa [Term.code] using (Instruction.straight_loadi lt (.ofNat slot)).within (by simp)
  | .var _ _ _, _, _ => by simp [Term.code]
  | .binary _ _ op lhs rhs, reg, ⟨rfl, lt, small, left, reg', beyond, right⟩ => by
    simp only [Term.code, List.forall_mem_append]
    refine ⟨⟨?_, ?_⟩, ?_⟩
    · exact fun i mem => (left.within external i mem).mono (by omega)
    · exact fun i mem => (right.within external i mem).mono (by omega)
    · simpa using (Instruction.straight_ternary op (left.reg_lt small) (right.reg_lt small)
        lt).within (by simp)
  | .cond _ _ joinSlot elseSlot test onTrue onFalse, reg,
      ⟨rfl, lt, small, _, _, tested, yes, no⟩ => by
    simp only [Term.code, List.forall_mem_append, List.forall_mem_cons, Term.settleCode,
      yes.not_tail, no.not_tail, Bool.false_eq_true, ↓reduceIte]
    exact ⟨⟨tested.within external, ⟨nofun, .inl rfl⟩, yes.within external,
      within_move (yes.reg_lt small) lt (Nat.le_refl _)⟩, ⟨nofun, .inr rfl⟩, no.within external,
      within_move (no.reg_lt small) lt (Nat.le_refl _)⟩
  | .call _ _ _ _ index args, reg, ⟨rfl, lt, small, rfl, passed⟩ => by
    have length := passed.length_le lt
    simp only [Term.code, List.forall_mem_append]
    refine ⟨?_, within_call _ (by omega)⟩
    exact fun i mem => (passed.within external small i mem).mono (by omega)

theorem Term.ArgsDisciplined.within (external : Nat → Bool) (small : n < 256) :
    ∀ {args : List Term} {slot : Nat}, Term.ArgsDisciplined n slot args →
      ∀ i ∈ Term.argsCode external slot args, i.Within slot
  | [], _, _ => by simp [Term.argsCode]
  | arg :: args, slot, ⟨lt, first, others⟩ => by
    simp only [Term.argsCode, List.forall_mem_append]
    refine ⟨⟨first.within external, within_move (first.reg_lt small) lt (Nat.le_refl _)⟩, ?_⟩
    exact fun i mem => (others.within external small i mem).mono (by omega)

end

end

/-- The parts of a conditional, each at its place. -/
structure Stretch.HasCond (s : Stretch) (external : Nat → Bool) (a reg joinSlot elseSlot : Nat)
    (test onTrue onFalse : Term) (thenStart elseStart : Nat) : Prop where
  tested : s.Has a (test.code external)
  branch : s.fetch (a + test.size) = some (.const .jmpc (.ofNat test.reg) (.ofNat elseSlot))
  first : s.Has thenStart (onTrue.code external ++ onTrue.settleCode reg)
  join : s.fetch (thenStart + (onTrue.size + onTrue.settleSize reg)) =
    some (.const .jmp 0 (.ofNat joinSlot))
  second : s.Has elseStart (onFalse.code external ++ onFalse.settleCode reg)

theorem Stretch.Has.cond {s : Stretch} {external : Nat → Bool} {a reg joinSlot elseSlot : Nat}
    {type : ValueType} {test onTrue onFalse : Term}
    (has : s.Has a ((Term.cond reg type joinSlot elseSlot test onTrue onFalse).code external)) :
    s.HasCond external a reg joinSlot elseSlot test onTrue onFalse (a + test.size + 1)
      (a + test.size + 1 + (onTrue.size + onTrue.settleSize reg) + 1) := by
  rw [Term.code] at has
  have first := has.left.right
  have second := has.right
  have place : a + (test.code external ++ .const .jmpc (.ofNat test.reg) (.ofNat elseSlot) ::
      (onTrue.code external ++ onTrue.settleCode reg)).length =
        a + test.size + 1 + (onTrue.size + onTrue.settleSize reg) := by
    simp only [List.length_append, List.length_cons, Term.length_code, Term.length_settleCode]
    omega
  rw [Term.length_code] at first
  rw [place] at second
  exact ⟨has.left.left, first.head, first.tail, second.head, second.tail⟩

section

variable {s : Stretch} {n value : Nat}

mutual

/-- Code that is sound behind a term, once the register of the term is given, is sound before it. -/
theorem Term.Disciplined.sound (external : Nat → Bool) : ∀ {t : Term} {reg a : Nat} {W : List Nat},
    t.Disciplined n reg → s.Has a (t.code external) → s.Points (t.targets a) →
      (∀ W', W ⊆ W' → Given n W' t.reg → s.Sound n value (a + t.size) W') → s.Sound n value a W
  | .const _ slot _, reg, a, W, ⟨rfl, lt⟩, has, _, after => by
    refine Stretch.sound_straight has.head (Instruction.straight_loadi lt _) nofun ?_
    exact after _ (List.subset_append_left _ _) (.inr (by simp [Term.reg]))
  | .var _ _ _, reg, a, W, bounds, _, _, after =>
    after W (List.Subset.refl W) (.inl bounds)
  | .binary _ _ op lhs rhs, reg, a, W, ⟨rfl, lt, small, left, reg', _, right⟩, has, points,
      after => by
    rw [Term.code] at has
    rw [Term.targets, Stretch.Points, List.forall_mem_append] at points
    have last := has.right.head
    have hasRight := has.left.right
    rw [List.length_append, Term.length_code, Term.length_code] at last
    rw [Term.length_code] at hasRight
    refine left.sound external has.left.left points.1 fun W₁ sub₁ given₁ => ?_
    refine right.sound external hasRight points.2 fun W₂ sub₂ given₂ => ?_
    rw [Nat.add_assoc]
    refine Stretch.sound_straight last
      (Instruction.straight_ternary op (left.reg_lt small) (right.reg_lt small) lt) ?_ ?_
    · simpa using ⟨given₁.mono sub₂, given₂⟩
    · refine after _ ?_ (.inr (by simp [Term.reg]))
      exact fun w mem => List.mem_append_left _ (sub₂ (sub₁ mem))
  | .cond reg type joinSlot elseSlot test onTrue onFalse, _, a, W,
      ⟨rfl, lt, small, hjoin, helse, tested, yes, no⟩, has, points, after => by
    simp only [Term.targets, Stretch.Points, List.forall_mem_append, List.forall_mem_cons,
      List.not_mem_nil, false_implies, implies_true, and_true] at points
    obtain ⟨⟨inTest, inTrue⟩, toElse, inFalse, toJoin⟩ := points
    have parts := has.cond
    have end_eq : a + test.size + 1 + (onTrue.size + onTrue.settleSize reg) + 1 +
        (onFalse.size + onFalse.settleSize reg) =
          a + (Term.cond reg type joinSlot elseSlot test onTrue onFalse).size := by
      rw [Term.size]
      omega
    rw [end_eq] at toJoin
    -- both branches end at the join, with the register of the conditional given
    refine tested.sound external parts.tested inTest fun W₁ sub₁ given₁ => ?_
    refine Stretch.sound_jmpc (tested.reg_lt small) helse parts.branch toElse given₁ ?_ ?_
    · refine yes.sound external parts.first.left inTrue fun W₂ sub₂ given₂ => ?_
      have settled := parts.first.right
      rw [Term.length_code] at settled
      refine Stretch.sound_settle yes.not_tail (yes.reg_lt small) lt settled given₂
        fun W₃ sub₃ given₃ => ?_
      rw [Nat.add_assoc]
      refine Stretch.sound_jmp hjoin parts.join toJoin (after W₃ ?_ given₃)
      exact fun w mem => sub₃ (sub₂ (sub₁ mem))
    · refine no.sound external parts.second.left inFalse fun W₂ sub₂ given₂ => ?_
      have settled := parts.second.right
      rw [Term.length_code] at settled
      refine Stretch.sound_settle no.not_tail (no.reg_lt small) lt settled given₂
        fun W₃ sub₃ given₃ => ?_
      rw [Nat.add_assoc, end_eq]
      exact after W₃ (fun w mem => sub₃ (sub₂ (sub₁ mem))) given₃
  | .call reg type _ callee index args, _, a, W, ⟨rfl, lt, small, rfl, passed⟩, has, points,
      after => by
    have length := passed.length_le lt
    rw [Term.code] at has
    refine passed.sound external small has.left points fun W₁ sub given => ?_
    have calls := has.right
    rw [Term.length_argsCode, callCode, if_neg (by simp)] at calls
    refine Stretch.sound_pass (by omega) calls.left given ?_
    have called := calls.right
    rw [length_passCode] at called
    refine Stretch.sound_straight called.head (Instruction.straight_call _ _) nofun ?_
    refine Stretch.sound_straight called.tail.head (Instruction.straight_mov_fromWindow 0 lt)
      nofun ?_
    have size_eq : a + Term.argsSize (reg + 1) args + args.length + 1 + 1 =
        a + (Term.call reg type false callee index args).size := by
      simp only [Term.size, Bool.false_eq_true, ↓reduceIte]
      omega
    rw [size_eq]
    refine after _ ?_ (.inr (by simp [Term.reg]))
    exact fun w mem => by simp [sub mem]

theorem Term.ArgsDisciplined.sound (external : Nat → Bool) (small : n < 256) :
    ∀ {args : List Term} {slot a : Nat} {W : List Nat}, Term.ArgsDisciplined n slot args →
      s.Has a (Term.argsCode external slot args) → s.Points (Term.argsTargets a slot args) →
        (∀ W', W ⊆ W' → (∀ k < args.length, Given n W' (slot + k)) →
          s.Sound n value (a + Term.argsSize slot args) W') → s.Sound n value a W
  | [], _, _, W, _, _, _, after => after W (List.Subset.refl W) nofun
  | arg :: args, slot, a, W, ⟨lt, first, others⟩, has, points, after => by
    rw [Term.argsCode] at has
    rw [Term.argsTargets, Stretch.Points, List.forall_mem_append] at points
    have moved := has.left.right
    have rest := has.right
    rw [Term.length_code] at moved
    rw [List.length_append, Term.length_code, length_moveCode] at rest
    refine first.sound external has.left.left points.1 fun W₁ sub₁ given₁ => ?_
    refine Stretch.sound_move (first.reg_lt small) lt moved given₁ fun W₂ sub₂ given₂ => ?_
    rw [Nat.add_assoc]
    refine others.sound external small rest points.2 fun W₃ sub₃ given₃ => ?_
    have behind := after W₃ (fun w mem => sub₃ (sub₂ (sub₁ mem))) ?_
    · rwa [Term.argsSize, ← Nat.add_assoc] at behind
    · intro k lt
      cases k with
      | zero => exact given₂.mono sub₃
      | succ k =>
        have := given₃ k (by simpa using lt)
        rwa [Nat.add_assoc, Nat.add_comm 1] at this

end

end

end RegLisp
