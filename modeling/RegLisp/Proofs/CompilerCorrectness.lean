import RegLisp.Proofs.Simulation

/-!
# Programs run as they mean

Sources that compile and link give an image that does what the sources mean. With limits that are
large enough, a run ends with the last value of the entry expressions, or with the fault that
their evaluation comes to; and under whatever limits a run ends, its outcome is that of the
evaluation, unless it is due to the limits.
-/

namespace RegLisp

open Machine

variable {sources : List Source} {img : Image} {limits : Limits} {depth : Nat}

/-! ## Runs of entry expressions -/

theorem bound_nil (m : Machine) : Bound {} [] 0 m := nofun

/-- The code of entry expressions leaves the last of their values in the first register, and comes
to its `halt`. -/
theorem Linked.entriesFollow (h : Linked sources img) {s : Source} (first : sources[0]? = some s)
    {es : List Expr} {ts : List Term}
    (placed : List.Forall₂ (Placed {} s.compiled.tables 0) es ts) :
    ∀ {a : Nat} {last : Int64} {m : Machine}, (∀ e ∈ es, e.Flagged false) →
      (∀ x ∈ entryFills a ts, s.module.constants[x.1]? = some x.2) →
      Holds img m.reservation (img.codeOffset 0 + a)
        (entrySection (isExternalAt s.module.functions) ts) →
      img.codeOffset 0 + a + entriesSize ts < UInt64.size → m.module = 0 →
      m.pc = img.codeOffset 0 + a → Ready limits depth m → m.stack.size = 0 →
      m.register m.base = last →
      Follows img limits depth m
        (fun v m' => SameFrame m m' ∧ img.code[m'.pc]? = some (.nullary .halt) ∧
          m'.register m.base = v)
        (countEntries (countCall (definitionsOf sources) depth) last es) := by
  induction placed with
  | nil =>
    intro a last m _ _ holds _ _ pc_eq _ _ last_eq
    refine .value (.refl _ _ m) ⟨.refl m, ?_, last_eq⟩
    rw [pc_eq]
    exact holds.head
  | @cons e t es ts placed _ ih =>
    intro a last m flagged filled holds words module_eq pc_eq ready empty _
    rw [List.forall_mem_cons] at flagged
    simp only [entryFills, List.forall_mem_append] at filled
    simp only [entriesSize_cons, Term.entrySize] at words filled
    rw [entrySection_cons] at holds
    let c : Setting := ⟨sources, img, h, limits, depth, 0, 0, s, first, {}, []⟩
    have simulates : c.Simulates false 0 e t :=
      Placed.simulates (fun k _ => h.bodiesAgree limits k) placed flagged.1
    have emits : c.Emits m.reservation a t := ⟨holds.left.left, filled.1, by
      simp only [Setting.address, c]
      omega⟩
    have stands : c.Stands 0 a m := ⟨module_eq, pc_eq, ready, empty, bound_nil m⟩
    simp only [countEntries]
    refine (simulates.finishes emits stands).bind fun v m₁ finished => ?_
    have move := holds.left.right
    rw [Term.length_code, ← pc_eq] at move
    obtain ⟨count, m₂, proceeds, kept, pc_eq₂, value_eq⟩ := finished.settles ready placed
      stands.bound (Nat.le_refl _) (by decide) (placed.width_pos stands.bound) move
    refine Follows.of_proceeds proceeds (Nat.le_add_left _ _) ?_
    have rest := holds.right
    rw [List.length_append, Term.length_code, length_moveCode, Nat.add_assoc,
      ← kept.reservation_eq] at rest
    have base_eq := kept.base_eq
    refine (ih flagged.2 filled.2 rest (by omega) (kept.module_eq.trans module_eq) (by omega)
      (ready.same kept.toSameFrame) (kept.stack_eq ▸ empty) (base_eq ▸ value_eq)).imp ?_
    rintro w m₃ ⟨same, halt, last_eq⟩
    exact ⟨kept.toSameFrame.trans same, halt, base_eq ▸ last_eq⟩

theorem Machine.register_start (img : Image) (limits : Limits) (x : Nat) :
    (start img limits).register x = 0 := by
  simp only [register, start, Array.getD_eq_getD_getElem?, Array.getElem?_replicate]
  split <;> rfl

/-- A run with enough room for all calls computes the entry expressions of the first source, and
the stack gets as deep as calls are pending in them. -/
theorem Linked.startCounts (h : Linked sources img) (unlimited : limits.maxSteps = 0)
    (callers_le : depth ≤ limits.maxCallStack)
    (room : 256 * depth + 512 ≤ limits.registerFileSize) :
    Agrees img limits depth (start img limits)
      (fun r m' => m'.peak = r.2 ∧ m'.depth = 0 ∧ Ready limits depth m' ∧
        img.code[m'.pc]? = some (.nullary .halt) ∧ m'.result = r.1)
      (evaluateCounted (sources.map Source.program) depth) := by
  obtain ⟨s, first⟩ := h.exists_first
  have entry := h.entry_eq first
  have ready : Ready limits depth (start img limits) := by
    refine ⟨unlimited, rfl, ?_, ?_, h.small.entry_le⟩
    · simpa [start] using callers_le
    · simp only [start, Array.size_replicate]
      omega
  have pc_eq : (start img limits).pc = img.codeOffset 0 + 0 := by
    simp only [start, entry, Nat.add_zero]
  have reservation_eq : (start img limits).reservation = s.module.entryReservation := by
    simp only [start, entry]
  have owned := s.compiled.entry_owned
  have holds : Holds img (start img limits).reservation (img.codeOffset 0 + 0)
      (entrySection (isExternalAt s.module.functions) s.compiled.entries) := by
    rw [reservation_eq]
    exact ⟨fun k i hk => h.fetch first owned hk, owned.locals⟩
  have words : img.codeOffset 0 + 0 + entriesSize s.compiled.entries < UInt64.size := by
    have stop := h.stop_le first owned (by simp [entrySection])
    have := h.words
    rw [length_entrySection] at stop
    omega
  have meaning : evaluateCounted (sources.map Source.program) depth =
      (countEntries (countCall (definitionsOf sources) depth) 0 s.program.entries).run 0 := by
    rw [evaluateCounted, List.head?_map, List.head?_eq_getElem?, first]
    rfl
  rw [meaning]
  have follows := h.entriesFollow first s.compiled.entries_placed s.flagged.entries
    s.compiled.entry_filled holds words rfl pc_eq ready rfl (register_start img limits _)
  refine Agrees.imp follows ?_
  rintro ⟨v, peak⟩ m' ⟨peak_eq, same, halt, value_eq⟩
  refine ⟨peak_eq, ?_, ready.same same, halt, value_eq⟩
  rw [Machine.depth, same.stack_eq]
  rfl

/-- A run with enough room for all calls computes the entry expressions of the first source. -/
theorem Linked.startAgrees (h : Linked sources img) (unlimited : limits.maxSteps = 0)
    (callers_le : depth ≤ limits.maxCallStack)
    (room : 256 * depth + 512 ≤ limits.registerFileSize) :
    Agrees img limits depth (start img limits)
      (fun v m' => Ready limits depth m' ∧ img.code[m'.pc]? = some (.nullary .halt) ∧
        m'.result = v)
      (evaluate (sources.map Source.program) depth) := by
  rw [← fst_evaluateCounted]
  refine (h.startCounts unlimited callers_le room).map ?_
  rintro ⟨v, peak⟩ m' ⟨-, -, ended⟩
  exact ended

/-! ## Outcomes -/

/-- The end of a run is what the evaluation comes to. -/
inductive Matches : Except EvalError Int64 → Except Fault Int64 → Prop
  | value (v : Int64) : Matches (.ok v) (.ok v)
  | error {e : EvalError} {cause : Fault} (kind_eq : e.kind? = some cause.kind) :
      Matches (.error e) (.error cause)

theorem Matches.not_atLimit {o : Except EvalError Int64} {cause : Fault}
    (h : Matches o (.error cause)) : ¬ cause.AtLimit := by
  cases h with
  | @error e _ kind_eq =>
    rintro (overflow | ⟨limit, stepLimit⟩)
    · cases e <;> simp [EvalError.kind?, overflow] at kind_eq
    · cases e <;> simp [EvalError.kind?, stepLimit] at kind_eq

/-- A run with enough room for all calls ends as the evaluation does, or takes as many steps as
calls were allowed. -/
theorem Linked.run_cases (h : Linked sources img) (limits : Limits)
    (unlimited : limits.maxSteps = 0) (callers_le : depth ≤ limits.maxCallStack)
    (room : 256 * depth + 512 ≤ limits.registerFileSize) :
    (evaluate (sources.map Source.program) depth = none ∧
        ∃ count, depth ≤ count ∧ img.run limits count = none) ∨
      ∃ o o' count, evaluate (sources.map Source.program) depth = some o ∧ Matches o o' ∧
        img.run limits count = some o' := by
  have agrees := h.startAgrees unlimited callers_le room
  generalize evaluate _ _ = x at agrees ⊢
  cases agrees with
  | @tooDeep count m' long reaches =>
    refine .inl ⟨rfl, count, long, ?_⟩
    have ran := reaches 0
    rw [Nat.add_zero] at ran
    rw [Image.run, ran]
    rfl
  | @error count m' cause e faults kind_eq =>
    refine .inr ⟨.error e, .error cause, count, rfl, .error kind_eq, ?_⟩
    have ran := faults 0
    rw [Nat.add_zero] at ran
    rw [Image.run, ran]
  | @value count m' v reaches after =>
    obtain ⟨ready, halt, value_eq⟩ := after
    refine .inr ⟨.ok v, .ok v, count + 1, rfl, .value v, ?_⟩
    have stopped := ready.step_eq halt (Instruction.op?_nullary .halt)
    rw [Image.run, reaches, run, stopped, ← value_eq]
    rfl

/-- Each limit is at least the given number; an absent limit on the steps is. -/
structure Limits.AtLeast (limits : Limits) (enough : Nat) : Prop where
  registerFileSize_le : enough ≤ limits.registerFileSize
  maxCallStack_le : enough ≤ limits.maxCallStack
  maxSteps_le : limits.maxSteps = 0 ∨ enough ≤ limits.maxSteps

/-- What is evaluated is what runs come to when their limits are large enough. -/
theorem Linked.run_of_evaluates (h : Linked sources img) {o : Except EvalError Int64}
    (evaluates : Evaluates (sources.map Source.program) o) :
    ∃ o', Matches o o' ∧ ∃ enough, ∀ limits : Limits, limits.AtLeast enough →
      ∃ fuel, img.run limits fuel = some o' := by
  obtain ⟨depth, evaluated⟩ := evaluates
  let ample : Limits :=
    { registerFileSize := 256 * depth + 512, maxCallStack := depth, maxSteps := 0 }
  rcases h.run_cases ample rfl (Nat.le_refl _) (Nat.le_refl _) with
    ⟨unfinished, -⟩ | ⟨o₁, o', count, evaluated', same, ran⟩
  · rw [evaluated] at unfinished
    cases unfinished
  · obtain rfl : o = o₁ := Option.some.inj (evaluated.symm.trans evaluated')
    refine ⟨o', same, 256 * depth + 512 + count, ?_⟩
    intro limits large
    -- The run took `count` steps, so that a limit of at least as many makes no difference.
    let counted : Limits := { ample with maxSteps := 256 * depth + 512 + count }
    have ran' : img.run counted count = some o' := by
      rw [← ran, Image.run, Image.run]
      exact congrArg Prod.snd (run_maxSteps _ count (by simp only [start]; omega))
    have within : counted.Within limits := by
      obtain ⟨registers, callers, steps⟩ := large
      refine ⟨?_, ?_, ?_⟩ <;> simp only [counted, ample] <;> omega
    rcases Image.run_within h.small within count with ⟨cause, faulted, atLimit⟩ | unchanged
    · rw [ran', Option.some.injEq] at faulted
      subst faulted
      exact absurd atLimit same.not_atLimit
    · exact ⟨count, unchanged.trans ran'⟩

/-- However a run ends, unless at a limit, the evaluation comes to the same. -/
theorem Linked.evaluates_of_run (h : Linked sources img) {fuel : Nat} {o' : Except Fault Int64}
    (ran : img.run limits fuel = some o') :
    (∃ cause, o' = .error cause ∧ cause.AtLimit) ∨
      ∃ o, Evaluates (sources.map Source.program) o ∧ Matches o o' := by
  -- More calls than the run has steps cannot be nested.
  let ample : Limits :=
    { registerFileSize := limits.registerFileSize + (256 * (fuel + 1) + 512)
      maxCallStack := limits.maxCallStack + (fuel + 1)
      maxSteps := 0 }
  have within : limits.Within ample :=
    ⟨Nat.le_add_right _ _, Nat.le_add_right _ _, .inl rfl⟩
  rcases Image.run_within h.small within fuel with ⟨cause, faulted, atLimit⟩ | unchanged
  · rw [ran, Option.some.injEq] at faulted
    exact .inl ⟨cause, faulted, atLimit⟩
  · right
    rw [ran] at unchanged
    rcases h.run_cases ample rfl (Nat.le_add_left _ _) (Nat.le_add_left _ _) with
      ⟨-, count, long, unfinished⟩ | ⟨o, o₁, count, evaluated, same, ended⟩
    · obtain ⟨more, rfl⟩ := Nat.exists_eq_add_of_le (Nat.le_of_succ_le long)
      rw [Image.run, run_add_of_ended unchanged, ← Image.run, unchanged] at unfinished
      cases unfinished
    · refine ⟨o, ⟨fuel + 1, evaluated⟩, ?_⟩
      have one := congrArg Prod.snd (run_add_of_ended unchanged count)
      have other := congrArg Prod.snd (run_add_of_ended ended fuel)
      rw [Nat.add_comm, other] at one
      rw [← Image.run, ← Image.run, ended, unchanged, Option.some.injEq] at one
      exact one ▸ same

/-! ## Correctness -/

/-- Runs of the image end with the value. -/
def Image.Returns (img : Image) (limits : Limits) (v : Int64) : Prop :=
  ∃ fuel, img.run limits fuel = some (.ok v)

/-- Runs of the image end in a fault of the kind. -/
def Image.Faults (img : Image) (limits : Limits) (kind : FaultKind) : Prop :=
  ∃ fuel cause, img.run limits fuel = some (.error cause) ∧ cause.kind = kind

theorem EvalError.eq_of_kind? {e e' : EvalError} {kind : FaultKind} (h : e.kind? = some kind)
    (h' : e'.kind? = some kind) : e = e' := by
  cases e <;> cases h <;> cases e' <;> first | rfl | cases h'

theorem EvalError.not_atLimit {e : EvalError} {cause : Fault} (h : e.kind? = some cause.kind) :
    ¬ cause.AtLimit := (Matches.error h).not_atLimit

theorem Linked.evaluates_of_returns (h : Linked sources img) {v : Int64}
    (returns : img.Returns limits v) : Evaluates (sources.map Source.program) (.ok v) := by
  obtain ⟨fuel, ran⟩ := returns
  rcases h.evaluates_of_run ran with ⟨cause, ⟨⟩, -⟩ | ⟨o, evaluates, same⟩
  cases same
  exact evaluates

theorem Linked.evaluates_of_faults (h : Linked sources img) {e : EvalError} {kind : FaultKind}
    (kind_eq : e.kind? = some kind) (faults : img.Faults limits kind) :
    Evaluates (sources.map Source.program) (.error e) := by
  obtain ⟨fuel, cause, ran, rfl⟩ := faults
  rcases h.evaluates_of_run ran with ⟨cause', same, atLimit⟩ | ⟨o, evaluates, same⟩
  · cases same
    exact absurd atLimit (EvalError.not_atLimit kind_eq)
  · cases same with
    | error kind_eq' =>
      rw [EvalError.eq_of_kind? kind_eq kind_eq']
      exact evaluates

/-- Limits can be large enough for a program, whether or not its evaluation comes to an end. -/
theorem Linked.exists_enough (h : Linked sources img) :
    ∃ enough, ∀ limits : Limits, limits.AtLeast enough →
      (∀ v, Evaluates (sources.map Source.program) (.ok v) → img.Returns limits v) ∧
      ∀ e kind, e.kind? = some kind → Evaluates (sources.map Source.program) (.error e) →
        img.Faults limits kind := by
  by_cases ends : ∃ o, Evaluates (sources.map Source.program) o
  · obtain ⟨o, evaluates⟩ := ends
    obtain ⟨o', same, enough, runs⟩ := h.run_of_evaluates evaluates
    refine ⟨enough, fun limits large => ?_⟩
    obtain ⟨fuel, ran⟩ := runs limits large
    refine ⟨fun v evaluates' => ?_, fun e kind kind_eq evaluates' => ?_⟩
    · obtain rfl := evaluates.unique evaluates'
      cases same
      exact ⟨fuel, ran⟩
    · obtain rfl := evaluates.unique evaluates'
      cases same with
      | @error _ cause kind_eq' =>
        exact ⟨fuel, cause, ran, Option.some.inj (kind_eq'.symm.trans kind_eq)⟩
  · exact ⟨0, fun limits _ => ⟨fun v evaluates => absurd ⟨_, evaluates⟩ ends,
      fun e kind _ evaluates => absurd ⟨_, evaluates⟩ ends⟩⟩

/-- The image does what programs mean, of which it runs the first. -/
structure Image.Implements (img : Image) (programs : List Program) : Prop where
  /-- With limits that are large enough, runs end exactly as the evaluation does. -/
  complete : ∃ enough, ∀ limits : Limits, limits.AtLeast enough →
    (∀ v, img.Returns limits v ↔ Evaluates programs (.ok v)) ∧
    (img.Faults limits .divisionByZero ↔ Evaluates programs (.error .divisionByZero)) ∧
    (img.Faults limits .arithmeticOverflow ↔ Evaluates programs (.error .arithmeticOverflow))
  /-- A run that ends under any limits, and not because of them, ends as the evaluation does. -/
  sound : ∀ (limits : Limits) (fuel : Nat) (outcome : Except Fault Int64),
    img.run limits fuel = some outcome →
      (∃ cause, outcome = .error cause ∧ cause.AtLimit) ∨
        ∃ o, Evaluates programs o ∧ Matches o outcome
  /-- No name is without a definition, and no call has the wrong number of arguments. -/
  errors : ∀ e, Evaluates programs (.error e) → e = .divisionByZero ∨ e = .arithmeticOverflow

/-- Sources that compile and link run as they mean. -/
theorem Linked.implements (h : Linked sources img) :
    img.Implements (sources.map Source.program) := by
  refine ⟨?_, fun limits fuel outcome => h.evaluates_of_run, ?_⟩
  · obtain ⟨enough, ends⟩ := h.exists_enough
    refine ⟨enough, fun limits large => ?_⟩
    obtain ⟨returns, faults⟩ := ends limits large
    exact ⟨fun v => ⟨h.evaluates_of_returns, returns v⟩,
      ⟨h.evaluates_of_faults rfl, faults _ _ rfl⟩, ⟨h.evaluates_of_faults rfl, faults _ _ rfl⟩⟩
  · intro e evaluates
    obtain ⟨o', same, -⟩ := h.run_of_evaluates evaluates
    cases same with
    | error kind_eq =>
      cases e with
      | divisionByZero => exact .inl rfl
      | arithmeticOverflow => exact .inr rfl
      | unboundVariable | undefinedFunction | wrongArity => cases kind_eq

/-- Two source texts: the second raises to a power, and the first divides a power. -/
def powerTexts : List (String × String) :=
  [("main", "(extern power (int int) int) (power 2 10) (/ (power 3 4) (- 2 5))"),
    ("lib", "(def power (b n) (if (> n 0) (* b (power b (- n 1))) 1))")]

/-- The quotient is what the texts evaluate to, and so what their image returns. -/
theorem Linked.implements_power :
    ∃ sources img, linkTexts? powerTexts = some (sources, img) ∧ Linked sources img ∧
      img.Implements (sources.map Source.program) ∧
        ∃ enough, ∀ limits : Limits, limits.AtLeast enough → img.Returns limits (-27) := by
  have evaluated : (linkTexts? powerTexts).any (fun linked =>
      linked.2.code.size ≤ UInt64.size ∧
        (evaluate (linked.1.map Source.program) 11).run = some (.ok (-27))) = true := by
    decide +kernel
  obtain ⟨⟨sources, img⟩, linked, facts⟩ := (Option.any_eq_true _ _).1 evaluated
  obtain ⟨words, meaning⟩ := of_decide_eq_true facts
  have h := linked_of_linkTexts? linked words
  have implements := h.implements
  obtain ⟨enough, ends⟩ := implements.complete
  exact ⟨sources, img, linked, h, implements, enough,
    fun limits large => ((ends limits large).1 _).2 ⟨11, meaning⟩⟩

end RegLisp
