import RegLisp.Proofs.CompilerCorrectness

/-!
# The stack is as deep as calls are pending

With registers and steps enough, only the limit on callers is left to stop a run. A run whose stack
never gets deeper than the limit is not changed by it, and every other run ends in an overflow. The
greatest depth of the stack is that of pending calls in the evaluation, so that it is also the least
limit under which the program comes to its value.
-/

namespace RegLisp

namespace Machine

variable {img : Image} {l : Limits} {m : Machine} {callers : Nat}

/-! ## The greatest depth -/

theorem peak_le_apply (m : Machine) (effect : Effect) : m.peak ≤ (m.apply effect).peak := by
  cases effect with
  | enter => exact Nat.le_max_left _ _
  | proceed | write | jump | reenter | leave | stop => exact Nat.le_refl _

theorem peak_le_run (img : Image) (l : Limits) (fuel : Nat) (m : Machine) :
    m.peak ≤ (m.run img l fuel).1.peak := by
  refine run_preserves (P := fun m' => m.peak ≤ m'.peak) ?_ fuel m (Nat.le_refl _)
  intro m' le
  rcases step_state img l m' with ⟨steps, status, state_eq⟩ | ⟨effect, -, state_eq⟩
  · rw [state_eq]
    exact le
  · rw [state_eq]
    exact le.trans (peak_le_apply m' effect)

theorem peak_step_le (img : Image) (low : m.peak ≤ l.maxCallStack) :
    (m.step img l).1.peak ≤ l.maxCallStack := by
  rcases step_state img l m with ⟨steps, status, state_eq⟩ | ⟨effect, allows, state_eq⟩
  · rw [state_eq]
    exact low
  · rw [state_eq]
    cases allows with
    | enter _ depth _ => exact Nat.max_le.2 ⟨low, depth⟩
    | proceed | write | writeWindow | jump | reenter | leave | stop => exact low

/-! ## Fewer callers -/

theorem planCall_maxCallStack (img : Image) (m : Machine) (le : callers ≤ l.maxCallStack)
    (external : Bool) (index : Nat) :
    m.planCall img { l with maxCallStack := callers } external index =
        m.planCall img l external index ∨
      m.planCall img { l with maxCallStack := callers } external index = .error .stackOverflow ∧
        callers ≤ m.stack.size ∧
          ∃ callee, m.planCall img l external index = .ok (.enter callee) := by
  unfold planCall
  cases m.callee img external index with
  | error e => exact .inl rfl
  | ok callee =>
    dsimp only
    by_cases deep : m.stack.size < callers
    · left
      simp only [deep, Nat.lt_of_lt_of_le deep le]
    · by_cases fits : m.stack.size < l.maxCallStack ∧
          m.base + m.reservation + minRegisters ≤ m.registers.size
      · right
        rw [if_neg (fun h => deep h.1), if_pos fits]
        exact ⟨rfl, Nat.le_of_not_lt deep, callee, rfl⟩
      · left
        rw [if_neg (fun h => deep h.1), if_neg fits]

/-- With fewer callers, an instruction does the same, unless it is a call too many. -/
theorem plan_maxCallStack (img : Image) (m : Machine) (le : callers ≤ l.maxCallStack) (op : Opcode)
    (i : Instruction) :
    m.plan img { l with maxCallStack := callers } op i = m.plan img l op i ∨
      m.plan img { l with maxCallStack := callers } op i = .error .stackOverflow ∧
        callers ≤ m.stack.size ∧ ∃ callee, m.plan img l op i = .ok (.enter callee) := by
  cases op with
  | calli => exact planCall_maxCallStack img m le false i.callIndex
  | calle => exact planCall_maxCallStack img m le true i.callIndex
  | nop | lcalli | lcalle | ret | addi | subi | muli | divi | gt | loadi | jmpc | jmp | mov
  | halt => exact .inl rfl

/-- With fewer callers, a step is the same, or it overflows where the stack would have become
deeper than they allow. -/
theorem step_maxCallStack (img : Image) (m : Machine) (le : callers ≤ l.maxCallStack) :
    m.step img { l with maxCallStack := callers } = m.step img l ∨
      ∃ stopped cause m', m.step img { l with maxCallStack := callers } = (stopped, .fault cause) ∧
        cause.kind = .stackOverflow ∧ m.step img l = (m', .next) ∧ callers < m'.peak := by
  unfold step
  cases m.status with
  | halted | faulted => exact .inl rfl
  | running =>
    dsimp only
    split
    · exact .inl rfl
    · cases img.code[m.pc]? with
      | none => exact .inl rfl
      | some i =>
        dsimp only
        cases i.op? with
        | none => exact .inl rfl
        | some op =>
          dsimp only [execute]
          rcases plan_maxCallStack img m le op i with same | ⟨overflow, deep, callee, enters⟩
          · left
            rw [same]
          · right
            rw [overflow, enters]
            exact ⟨_, _, _, rfl, rfl, rfl,
              Nat.lt_of_lt_of_le (Nat.lt_succ_of_le deep) (Nat.le_max_right _ _)⟩

/-- With fewer callers, a run is the same if its stack is never deeper than they allow, and it
overflows otherwise. -/
theorem run_maxCallStack (img : Image) (le : callers ≤ l.maxCallStack) (fuel : Nat) :
    ∀ {m : Machine}, m.peak ≤ callers →
      (m.run img l fuel).1.peak ≤ callers ∧
          m.run img { l with maxCallStack := callers } fuel = m.run img l fuel ∨
        callers < (m.run img l fuel).1.peak ∧
          ∃ stopped cause, cause.kind = .stackOverflow ∧
            m.run img { l with maxCallStack := callers } fuel =
              (stopped, some (.error cause)) := by
  induction fuel with
  | zero => exact fun low => .inl ⟨low, rfl⟩
  | succ fuel ih =>
    intro m low
    have after := peak_step_le (l := { l with maxCallStack := callers }) img low
    simp only [run]
    rcases step_maxCallStack img m le with
      same | ⟨stopped, cause, m', overflows, kind_eq, goes, deep⟩
    · rw [same] at after ⊢
      cases stepped : m.step img l with
      | mk m₁ flow =>
        rw [stepped] at after
        cases flow with
        | next => exact ih after
        | done result => exact .inl ⟨after, rfl⟩
        | fault cause => exact .inl ⟨after, rfl⟩
    · right
      rw [overflows, goes]
      exact ⟨Nat.lt_of_lt_of_le deep (peak_le_run img l fuel m'), stopped, cause, kind_eq, rfl⟩

end Machine

/-! ## Runs of programs -/

open Machine

variable {sources : List Source} {img : Image}

/-- The run comes to the value with an empty stack, after its stack was as deep as given. -/
def Image.HaltsAt (img : Image) (limits : Limits) (v : Int64) (peak : Nat) : Prop :=
  ∃ fuel m, (start img limits).run img limits fuel = (m, some (.ok v)) ∧ m.status = .halted ∧
    m.peak = peak ∧ m.depth = 0

/-- Some limits are wide enough for a program to come to its value. -/
theorem Linked.exists_ample (h : Linked sources img) {v : Int64} {peak : Nat}
    (peaks : Peaks (sources.map Source.program) v peak) :
    ∃ ample : Limits, img.HaltsAt ample v peak := by
  obtain ⟨depth, counted⟩ := peaks
  let ample : Limits :=
    { registerFileSize := 256 * depth + 512, maxCallStack := depth, maxSteps := 0 }
  have agrees : Agrees img ample depth (start img ample) _ _ :=
    h.startCounts rfl (Nat.le_refl _) (Nat.le_refl _)
  rw [counted] at agrees
  generalize result : (pure (v, peak) : Eval (Int64 × Nat)) = x at agrees
  cases agrees with
  | tooDeep => cases result
  | error => cases result
  | @value count m' r reaches after =>
    cases result
    obtain ⟨peak_eq, depth_eq, ready, halt, value_eq⟩ := after
    dsimp only at value_eq
    have stopped := ready.step_eq halt (Instruction.op?_nullary .halt)
    refine ⟨ample, count + 1, m'.apply .stop, ?_, rfl, peak_eq, depth_eq⟩
    rw [reaches, run, stopped, ← value_eq]
    rfl

/-- With registers and steps enough, a program comes to its value under every limit on callers
that is as great as the depth of its calls, and overflows under every other. -/
theorem Linked.run_of_peaks (h : Linked sources img) {v : Int64} {peak : Nat}
    (peaks : Peaks (sources.map Source.program) v peak) :
    ∃ enough, ∀ limits : Limits, enough ≤ limits.registerFileSize →
      (limits.maxSteps = 0 ∨ enough ≤ limits.maxSteps) →
        (peak ≤ limits.maxCallStack → img.HaltsAt limits v peak) ∧
          (limits.maxCallStack < peak → img.Faults limits .stackOverflow) := by
  obtain ⟨ample, fuel, m, ran, status_eq, peak_eq, depth_eq⟩ := h.exists_ample peaks
  refine ⟨ample.registerFileSize + fuel, fun limits registers steps => ?_⟩
  let wide : Limits :=
    { limits with maxCallStack := max limits.maxCallStack ample.maxCallStack, maxSteps := 0 }
  have within : ample.Within wide :=
    ⟨by simp only [wide]; omega, Nat.le_max_right _ _, .inl rfl⟩
  -- More registers and callers than are needed change nothing but the size of the file.
  obtain ⟨more, extended⟩ := start_extend img within
  have ranWide : (start img wide).run img wide fuel = (m.extend more, some (.ok v)) := by
    rcases (framed_start h.small).run_extend h.small within more fuel with
      ⟨cause, faulted, -⟩ | same
    · rw [ran] at faulted
      cases faulted
    · rw [extended, same, ran]
  -- A limit on the steps that the run does not reach can be left out.
  have counted : (start img limits).run img limits fuel =
      (start img limits).run img { limits with maxSteps := 0 } fuel := by
    rcases steps with absent | many
    · rw [← absent]
    · exact run_maxSteps (l := limits) limits.maxSteps fuel (by simp only [start]; omega)
  have lowered := run_maxCallStack (l := wide) (m := start img wide) img
    (Nat.le_max_left limits.maxCallStack ample.maxCallStack) fuel (Nat.zero_le _)
  rw [ranWide] at lowered
  have reached : (m.extend more).peak = peak := peak_eq
  rw [reached] at lowered
  constructor
  · intro low
    rcases lowered with ⟨-, same⟩ | ⟨deep, -⟩
    · exact ⟨fuel, m.extend more, counted.trans same, status_eq, peak_eq, depth_eq⟩
    · omega
  · intro deep
    rcases lowered with ⟨low, -⟩ | ⟨-, stopped, cause, kind_eq, overflows⟩
    · omega
    · refine ⟨fuel, cause, ?_, kind_eq⟩
      exact congrArg Prod.snd (counted.trans overflows)

/-- The greatest depth of the stack is that of pending calls: a program that has a value comes to
it, given registers and steps enough, exactly when that many callers are allowed. Calls that only go
on to each other in return position stay at one depth, however many they are. -/
theorem call_depth_eq_pending_calls (h : Linked sources img) :
    (∀ v, Evaluates (sources.map Source.program) (.ok v) ↔
      ∃ peak, Peaks (sources.map Source.program) v peak) ∧
    (∀ v peak, Peaks (sources.map Source.program) v peak →
      ∃ enough, ∀ limits : Limits, enough ≤ limits.registerFileSize →
        (limits.maxSteps = 0 ∨ enough ≤ limits.maxSteps) →
          (peak ≤ limits.maxCallStack → img.HaltsAt limits v peak) ∧
            (limits.maxCallStack < peak → img.Faults limits .stackOverflow)) ∧
    ∀ chain : String → Bool, Chained (definitionsOf sources) chain →
      (∀ (depth pending : Nat) (name : String) (values : List Int64) (peak : Nat) (v : Int64)
        (peak' : Nat), chain name = true →
          (countCall (definitionsOf sources) depth pending name values).run peak =
            pure (v, peak') → peak' ≤ peak) ∧
      ((∀ e ∈ ((sources.map Source.program).head?.map Program.entries).getD [],
          e.callsOnly (fun _ name => chain name) false = true) →
        ∀ v peak, Peaks (sources.map Source.program) v peak → peak ≤ 1) := by
  refine ⟨fun v => evaluates_iff_peaks, fun v peak => h.run_of_peaks, ?_⟩
  intro chain chained
  constructor
  · intro depth pending name values peak v peak' named
    exact chained.countCall_atMost depth pending peak values named peak v peak' (Nat.le_refl _)
  · intro starts v peak peaks
    exact chained.peak_le starts peaks

/-- Two source texts: `sum` adds after its call has come back, while `even` and `odd`, one in each
text, only go on to each other. -/
def parityTexts : List (String × String) :=
  [("main", "(extern even (int) int) (extern sum (int) int) " ++
      "(def odd (n) (if (> n 0) (even (- n 1)) 0)) (even 9) (sum 3)"),
    ("lib", "(extern odd (int) int) (def even (n) (if (> n 0) (odd (- n 1)) 1)) " ++
      "(def sum (n) (if (> n 0) (+ n (sum (- n 1))) 0))")]

/-- The functions of the texts that only go on to each other. -/
def isParity (name : String) : Bool := name == "even" || name == "odd"

/-- Four calls of `sum` are pending at once; the ten calls of the chain count as one. -/
theorem call_depth_eq_pending_calls_parity :
    ∃ sources img, linkTexts? parityTexts = some (sources, img) ∧ Linked sources img ∧
      (∃ enough, ∀ limits : Limits, enough ≤ limits.registerFileSize →
        (limits.maxSteps = 0 ∨ enough ≤ limits.maxSteps) →
          (4 ≤ limits.maxCallStack → img.HaltsAt limits 6 4) ∧
            (limits.maxCallStack < 4 → img.Faults limits .stackOverflow)) ∧
      Chained (definitionsOf sources) isParity ∧
        (countCall (definitionsOf sources) 10 1 "even" [9]).run 1 = pure (0, 1) ∧
          ∀ depth n v peak, (countCall (definitionsOf sources) depth 1 "even" [n]).run 1 =
            pure (v, peak) → peak ≤ 1 := by
  have evaluated : (linkTexts? parityTexts).any (fun linked =>
      linked.2.code.size ≤ UInt64.size ∧
        (evaluateCounted (linked.1.map Source.program) 11).run = some (.ok (6, 4)) ∧
          Chained (definitionsOf linked.1) isParity ∧
            ((countCall (definitionsOf linked.1) 10 1 "even" [9]).run 1).run =
              some (.ok (0, 1))) = true := by
    decide +kernel
  obtain ⟨⟨sources, img⟩, linked, facts⟩ := (Option.any_eq_true _ _).1 evaluated
  obtain ⟨words, meaning, chained, chain⟩ := of_decide_eq_true facts
  have h := linked_of_linkTexts? linked words
  obtain ⟨-, runs, chains⟩ := call_depth_eq_pending_calls h
  refine ⟨sources, img, linked, h, runs 6 4 ⟨11, meaning⟩, chained, chain, ?_⟩
  intro depth n v peak counted
  exact (chains isParity chained).1 depth 1 "even" [n] 1 v peak rfl counted

end RegLisp
