import RegLisp.Proofs.Reloading

/-!
# The constant pool

Literals and the targets of jumps share one pool. Every literal has a slot of its own and every
conditional has two, and no slot is taken twice. So whatever the passes put into the slots of other
conditionals, in the end each slot holds its literal, the address behind the jump that ends the
first branch, or the address behind the second branch. Both addresses lie in the section of the
conditional, and there is an instruction at the second one.
-/

namespace RegLisp

/-! ## The size of the pool -/

mutual

/-- How many slots of the pool an expression takes: one for a literal, and two for a
conditional. -/
def Expr.poolSize : Expr → Nat
  | .const _ _ => 1
  | .var _ _ _ => 0
  | .binary _ _ lhs rhs => lhs.poolSize + rhs.poolSize
  | .cond _ test onTrue onFalse => 2 + (test.poolSize + onTrue.poolSize + onFalse.poolSize)
  | .call _ _ args => Expr.argsPoolSize args

def Expr.argsPoolSize : List Expr → Nat
  | [] => 0
  | arg :: args => arg.poolSize + Expr.argsPoolSize args

end

/-- How many slots a program takes. -/
def Program.poolSize (p : Program) : Nat :=
  (p.entries.map Expr.poolSize).sum + (p.definitions.map (·.body.poolSize)).sum

mutual

theorem Placed.length_slots {scope : Scope} {t : Tables} : ∀ {e : Expr} {term : Term} {reg : Nat},
    Placed scope t reg e term → term.slots.length = e.poolSize
  | .const _ _, _, _, .const _ _ => rfl
  | .var _ _ _, _, _, .var _ _ => rfl
  | .binary _ _ _ _, _, _, .binary _ left right => by
    rw [Term.slots, Expr.poolSize, List.length_append, left.length_slots, right.length_slots]
  | .cond _ _ _ _, _, _, .cond _ tested yes no => by
    simp only [Term.slots, Expr.poolSize, List.length_cons, List.length_append,
      tested.length_slots, yes.length_slots, no.length_slots]
    omega
  | .call _ _ _, _, _, .call _ passed _ _ _ => passed.length_slots

theorem PlacedArgs.length_slots {scope : Scope} {t : Tables} : ∀ {args : List Expr}
    {terms : List Term} {slot : Nat}, PlacedArgs scope t slot args terms →
      (Term.argsSlots terms).length = Expr.argsPoolSize args
  | [], _, _, .nil => rfl
  | _ :: _, _, _, .cons _ first others => by
    rw [Term.argsSlots, Expr.argsPoolSize, List.length_append, first.length_slots,
      others.length_slots]

end

section

variable {p : Program} {items : List Item} {t : Tables}

/-- The slots of a program are those of its pool, each taken once. -/
theorem AllocatedGlobals.slots_eq (h : AllocatedGlobals {} p.globals items t) :
    items.flatMap (·.term.slots) = List.range t.constants.size := by
  rw [h.grows.slots_eq, h.grows.size_eq, List.range_eq_range']
  simp

theorem AllocatedGlobals.poolSize_eq (h : AllocatedGlobals {} p.globals items t) :
    t.constants.size = p.poolSize := by
  have entries : ((entryTerms items).map fun term => term.slots.length) =
      p.entries.map Expr.poolSize := by
    rw [← List.forall₂_eq_eq_eq, List.forall₂_map_left_iff, List.forall₂_map_right_iff]
    exact h.entries.flip.imp fun _ _ placed => placed.length_slots
  have definitions : ((bodies items).map fun b => b.2.slots.length) =
      p.definitions.map (·.body.poolSize) := by
    rw [← List.forall₂_eq_eq_eq, List.forall₂_map_left_iff, List.forall₂_map_right_iff]
    refine h.definitions.flip.imp fun _ _ body => ?_
    obtain ⟨scope, -, placed⟩ := body.placed
    exact placed.length_slots
  have length := (slots_perm items).length_eq
  rw [h.slots_eq, List.length_range, List.length_append, List.length_flatMap, List.length_flatMap,
    entries, definitions] at length
  exact length.symm

end

/-! ## Conditionals -/

namespace Pass

/-- The pass at the first branch of a conditional. -/
def atThen (p : Pass) (elseSlot : Nat) (test : Term) : Pass :=
  (test.generate p).emit (.const .jmpc (.ofNat test.reg) (.ofNat elseSlot))

/-- The pass behind the jump that ends the first branch of a conditional. -/
def atElse (p : Pass) (reg joinSlot elseSlot : Nat) (test onTrue : Term) : Pass :=
  ((onTrue.generate (p.atThen elseSlot test)).emitAll (onTrue.settleCode reg)).emit
    (.const .jmp 0 (.ofNat joinSlot))

/-- The pass behind the second branch of a conditional. -/
def atJoin (p : Pass) (reg joinSlot elseSlot : Nat) (test onTrue onFalse : Term) : Pass :=
  (onFalse.generate ((p.atElse reg joinSlot elseSlot test onTrue).patch elseSlot)).emitAll
    (onFalse.settleCode reg)

end Pass

/-- These are the passes that generation goes through. -/
theorem Term.generate_cond (p : Pass) (reg : Nat) (type : ValueType) (joinSlot elseSlot : Nat)
    (test onTrue onFalse : Term) :
    (Term.cond reg type joinSlot elseSlot test onTrue onFalse).generate p =
      (p.atJoin reg joinSlot elseSlot test onTrue onFalse).patch joinSlot := by
  rw [Term.generate]
  rfl

theorem Term.code_cond (external : Nat → Bool) (reg : Nat) (type : ValueType)
    (joinSlot elseSlot : Nat) (test onTrue onFalse : Term) :
    (Term.cond reg type joinSlot elseSlot test onTrue onFalse).code external =
      (test.code external ++ [.const .jmpc (.ofNat test.reg) (.ofNat elseSlot)]) ++
        ((onTrue.code external ++ onTrue.settleCode reg ++ [.const .jmp 0 (.ofNat joinSlot)]) ++
          (onFalse.code external ++ onFalse.settleCode reg)) := by
  simp [Term.code]

namespace Pass

variable (p : Pass) (reg joinSlot elseSlot : Nat) (test onTrue onFalse : Term)

theorem atThen_eq : p.atThen elseSlot test =
    p.advance (test.code (isExternalAt p.functions) ++
      [.const .jmpc (.ofNat test.reg) (.ofNat elseSlot)]) (test.targets p.counter) := by
  rw [atThen, test.generate_eq, emit_eq, advance_advance, List.append_nil]

theorem atElse_eq : p.atElse reg joinSlot elseSlot test onTrue =
    (p.atThen elseSlot test).advance
      (onTrue.code (isExternalAt p.functions) ++ onTrue.settleCode reg ++
        [.const .jmp 0 (.ofNat joinSlot)]) (onTrue.targets (p.atThen elseSlot test).counter) := by
  rw [atElse, onTrue.generate_eq, emitAll_eq, emit_eq, advance_advance, advance_advance,
    List.append_nil, List.append_nil, List.append_assoc, atThen_eq, advance_functions]

theorem functions_atThen : (p.atThen elseSlot test).functions = p.functions := by
  rw [atThen_eq, advance_functions]

theorem functions_atElse :
    (p.atElse reg joinSlot elseSlot test onTrue).functions = p.functions := by
  rw [atElse_eq, advance_functions, functions_atThen]

theorem atJoin_eq : p.atJoin reg joinSlot elseSlot test onTrue onFalse =
    ((p.atElse reg joinSlot elseSlot test onTrue).patch elseSlot).advance
      (onFalse.code (isExternalAt p.functions) ++ onFalse.settleCode reg)
      (onFalse.targets (p.atElse reg joinSlot elseSlot test onTrue).counter) := by
  have functions : ((p.atElse reg joinSlot elseSlot test onTrue).patch elseSlot).functions =
      p.functions := p.functions_atElse reg joinSlot elseSlot test onTrue
  rw [atJoin, onFalse.generate_eq, emitAll_eq, advance_advance, List.append_nil, functions]
  rfl

theorem counter_atThen : (p.atThen elseSlot test).counter = p.counter + test.size + 1 := by
  rw [atThen_eq, advance_counter, List.length_append, Term.length_code]
  rfl

theorem counter_atElse : (p.atElse reg joinSlot elseSlot test onTrue).counter =
    p.counter + test.size + 1 + (onTrue.size + onTrue.settleSize reg) + 1 := by
  rw [atElse_eq, advance_counter, counter_atThen, List.length_append, List.length_append,
    Term.length_code, Term.length_settleCode]
  rfl

theorem counter_atJoin : (p.atJoin reg joinSlot elseSlot test onTrue onFalse).counter =
    (p.atElse reg joinSlot elseSlot test onTrue).counter +
      (onFalse.size + onFalse.settleSize reg) := by
  rw [atJoin_eq, advance_counter, List.length_append, Term.length_code, Term.length_settleCode]
  rfl

theorem back_emit {p : Pass} (loud : p.muted = false) (i : Instruction) :
    (p.emit i).written.back? = some i := by
  simp [emit, loud]

end Pass

/-- What the slots of a conditional hold in a module, when the pass came to it, to its second
branch and to its end as given, and its section has the given bounds. -/
structure JumpsLinked (m : Module) (start stop : Nat) (p atElse atJoin : Pass)
    (joinSlot elseSlot : Nat) : Prop where
  /-- The first branch ends with a jump to the end. -/
  jumps : atElse.written.back? = some (.const .jmp 0 (.ofNat joinSlot))
  else_eq : m.constants[elseSlot]?.map UInt64.toNat = some atElse.written.size
  join_eq : m.constants[joinSlot]?.map UInt64.toNat = some atJoin.written.size
  else_written : atElse.written.toList <+: atJoin.written.toList
  join_written : atJoin.written.toList <+: m.code.toList
  start_le : start ≤ p.written.size
  lt_else : p.written.size < atElse.written.size
  join_lt : atJoin.written.size < stop
  /-- There is an instruction behind the second branch. -/
  next : ∃ i, m.code[atJoin.written.size]? = some i

mutual

/-- Every node of a term that the pass comes to finds in its slots what it needs. -/
def Term.Linked (m : Module) (start stop : Nat) (p : Pass) : Term → Prop
  | .const _ slot value => m.constants[slot]? = some value.toWord
  | .var _ _ _ => True
  | .binary _ _ _ lhs rhs =>
    lhs.Linked m start stop p ∧ rhs.Linked m start stop (lhs.generate p)
  | .cond reg _ joinSlot elseSlot test onTrue onFalse =>
    let atElse := p.atElse reg joinSlot elseSlot test onTrue
    let atJoin := p.atJoin reg joinSlot elseSlot test onTrue onFalse
    JumpsLinked m start stop p atElse atJoin joinSlot elseSlot ∧
      test.Linked m start stop p ∧ onTrue.Linked m start stop (p.atThen elseSlot test) ∧
        onFalse.Linked m start stop (atElse.patch elseSlot)
  | .call reg _ _ _ _ args => Term.ArgsLinked m start stop p (reg + 1) args

def Term.ArgsLinked (m : Module) (start stop : Nat) (p : Pass) (slot : Nat) : List Term → Prop
  | [] => True
  | arg :: args =>
    arg.Linked m start stop p ∧ Term.ArgsLinked m start stop
      ((arg.generate p).emitAll (moveCode arg.reg slot)) (slot + 1) args

end

/-! ## A pass that writes -/

/-- The pass has written the code of a module up to here. It goes on with the given part, which lies
in a section with the given bounds and does not end it. -/
structure Writes (m : Module) (start stop : Nat) (p : Pass) (code : List Instruction) : Prop where
  loud : p.muted = false
  counter_eq : p.counter = p.written.size
  written : p.written.toList ++ code <+: m.code.toList
  start_le : start ≤ p.counter
  lt_stop : p.counter + code.length < stop

namespace Writes

variable {m : Module} {start stop : Nat} {p : Pass} {code code' : List Instruction}

theorem left (h : Writes m start stop p (code ++ code')) : Writes m start stop p code where
  loud := h.loud
  counter_eq := h.counter_eq
  written := by
    have written := h.written
    rw [← List.append_assoc] at written
    exact (List.prefix_append _ _).trans written
  start_le := h.start_le
  lt_stop := by
    have := h.lt_stop
    rw [List.length_append] at this
    omega

theorem advance (h : Writes m start stop p (code ++ code')) (targets : List (Nat × Nat)) :
    Writes m start stop (p.advance code targets) code' := by
  have written_eq : (p.advance code targets).written = p.written ++ code.toArray := by
    simp [Pass.advance, h.loud]
  refine ⟨h.loud, ?_, ?_, ?_, ?_⟩
  · rw [written_eq, Pass.advance_counter, h.counter_eq]
    simp
  · rw [written_eq]
    simpa using h.written
  · have := h.start_le
    rw [Pass.advance_counter]
    omega
  · have := h.lt_stop
    rw [List.length_append] at this
    rw [Pass.advance_counter]
    omega

/-- Placing a function writes nothing. -/
theorem place (h : Writes m start stop p code) (index : Nat) :
    Writes m start stop (p.place index) code :=
  ⟨h.loud, h.counter_eq, h.written, h.start_le, h.lt_stop⟩

/-- The bounds of the section can be drawn in another way. -/
theorem within (h : Writes m start stop p code) {start' stop' : Nat} (start_le : start' ≤ p.counter)
    (lt_stop : p.counter + code.length < stop') : Writes m start' stop' p code :=
  ⟨h.loud, h.counter_eq, h.written, start_le, lt_stop⟩

theorem exists_next (h : Writes m start stop p code) (inside : stop ≤ m.code.size) :
    ∃ i, m.code[p.written.size]? = some i := by
  have := h.lt_stop
  have := h.counter_eq
  exact ⟨_, Array.getElem?_eq_getElem (by omega)⟩

end Writes

/-- The parts of a conditional are written one after the other. -/
structure WritesCond (m : Module) (start stop : Nat) (p : Pass) (reg joinSlot elseSlot : Nat)
    (test onTrue onFalse : Term) : Prop where
  tested : Writes m start stop p (test.code (isExternalAt p.functions))
  yes : Writes m start stop (p.atThen elseSlot test) (onTrue.code (isExternalAt p.functions))
  no : Writes m start stop ((p.atElse reg joinSlot elseSlot test onTrue).patch elseSlot)
    (onFalse.code (isExternalAt p.functions))
  atElse : Writes m start stop (p.atElse reg joinSlot elseSlot test onTrue) []
  atJoin : Writes m start stop (p.atJoin reg joinSlot elseSlot test onTrue onFalse) []

theorem Writes.cond {m : Module} {start stop : Nat} {p : Pass} {reg joinSlot elseSlot : Nat}
    {type : ValueType} {test onTrue onFalse : Term}
    (h : Writes m start stop p ((Term.cond reg type joinSlot elseSlot test onTrue onFalse).code
      (isExternalAt p.functions))) :
    WritesCond m start stop p reg joinSlot elseSlot test onTrue onFalse := by
  rw [Term.code_cond] at h
  have atThen := h.advance (test.targets p.counter)
  rw [← p.atThen_eq] at atThen
  have atElse : Writes m start stop (p.atElse reg joinSlot elseSlot test onTrue)
      ([] ++ (onFalse.code (isExternalAt p.functions) ++ onFalse.settleCode reg)) := by
    rw [p.atElse_eq]
    exact atThen.advance _
  -- the slot is filled without an instruction
  have patched : Writes m start stop ((p.atElse reg joinSlot elseSlot test onTrue).patch elseSlot)
      (onFalse.code (isExternalAt p.functions) ++ onFalse.settleCode reg ++ []) := by
    rw [Pass.patch_eq, List.append_nil]
    exact atElse.advance _
  refine ⟨h.left.left, atThen.left.left.left, patched.left.left, atElse.left, ?_⟩
  rw [p.atJoin_eq]
  exact patched.advance _

/-- The slots hold in the module what they have to. -/
def Fills (m : Module) (fills : List (Nat × UInt64)) : Prop :=
  ∀ x ∈ fills, m.constants[x.1]? = some x.2

section

variable {m : Module} {start stop : Nat}

theorem Fills.left {xs ys : List (Nat × UInt64)} (h : Fills m (xs ++ ys)) : Fills m xs :=
  fun x mem => h x (List.mem_append_left _ mem)

theorem Fills.right {xs ys : List (Nat × UInt64)} (h : Fills m (xs ++ ys)) : Fills m ys :=
  fun x mem => h x (List.mem_append_right _ mem)

/-- A slot that holds the address of the next instruction. -/
theorem Writes.address_eq {p : Pass} {code : List Instruction} {slot address : Nat}
    (h : Writes m start stop p code) (inside : stop ≤ m.code.size)
    (small : m.code.size < UInt64.size) (here : address = p.counter)
    (held : m.constants[slot]? = some (.ofNat address)) :
    m.constants[slot]?.map UInt64.toNat = some p.written.size := by
  have := h.lt_stop
  have := h.counter_eq
  rw [held, Option.map_some, UInt64.toNat_ofNat_of_lt' (by omega), here, h.counter_eq]

/-- The addresses of a conditional are in its slots. -/
theorem WritesCond.jumpsLinked {p : Pass} {reg joinSlot elseSlot : Nat} {type : ValueType}
    {test onTrue onFalse : Term} (inside : stop ≤ m.code.size) (small : m.code.size < UInt64.size)
    (h : WritesCond m start stop p reg joinSlot elseSlot test onTrue onFalse)
    (filled : Fills m
      ((Term.cond reg type joinSlot elseSlot test onTrue onFalse).fills p.counter)) :
    JumpsLinked m start stop p (p.atElse reg joinSlot elseSlot test onTrue)
      (p.atJoin reg joinSlot elseSlot test onTrue onFalse) joinSlot elseSlot := by
  have elseCounter := p.counter_atElse reg joinSlot elseSlot test onTrue
  have joinCounter := p.counter_atJoin reg joinSlot elseSlot test onTrue onFalse
  have written : (p.atJoin reg joinSlot elseSlot test onTrue onFalse).written =
      (p.atElse reg joinSlot elseSlot test onTrue).written ++
        (onFalse.code (isExternalAt p.functions) ++ onFalse.settleCode reg).toArray := by
    rw [p.atJoin_eq, Pass.advance, h.no.loud]
    rfl
  rw [Term.fills] at filled
  refine {
    jumps := ?_
    else_eq := h.atElse.address_eq inside small elseCounter.symm
      (filled _ (List.mem_cons_of_mem _ List.mem_cons_self))
    join_eq := h.atJoin.address_eq inside small ?_ (filled _ List.mem_cons_self)
    else_written := ?_
    join_written := ?_
    start_le := ?_
    lt_else := ?_
    join_lt := ?_
    next := h.atJoin.exists_next inside }
  · refine Pass.back_emit ?_ _
    exact h.atElse.loud
  · rw [joinCounter, elseCounter]
  · rw [written, Array.toList_append]
    exact List.prefix_append _ _
  · have written := h.atJoin.written
    rwa [List.append_nil] at written
  · rw [← h.tested.counter_eq]
    exact h.tested.start_le
  · rw [← h.tested.counter_eq, ← h.atElse.counter_eq, elseCounter]
    omega
  · rw [← h.atJoin.counter_eq]
    exact h.atJoin.lt_stop

mutual

/-- A pass that writes the code of a term finds all its slots filled. -/
theorem Term.linked (inside : stop ≤ m.code.size) (small : m.code.size < UInt64.size) :
    ∀ (t : Term) {p : Pass}, Writes m start stop p (t.code (isExternalAt p.functions)) →
      Fills m (t.fills p.counter) → t.Linked m start stop p
  | .const _ slot value, p, writes, filled => filled _ (List.mem_singleton_self _)
  | .var _ _ _, p, writes, filled => trivial
  | .binary _ _ _ lhs rhs, p, writes, filled => by
    rw [Term.code] at writes
    rw [Term.fills] at filled
    refine ⟨lhs.linked inside small writes.left.left filled.left, ?_⟩
    rw [lhs.generate_eq]
    refine rhs.linked inside small (writes.left.advance _) ?_
    rw [Pass.advance_counter, Term.length_code]
    exact filled.right
  | .cond reg _ joinSlot elseSlot test onTrue onFalse, p, writes, filled => by
    have parts := writes.cond
    have jumps := parts.jumpsLinked inside small filled
    have slots : Fills m (test.fills p.counter ++
        onTrue.fills (p.counter + test.size + 1) ++
          onFalse.fills (p.atElse reg joinSlot elseSlot test onTrue).counter) := by
      intro x mem
      rw [Pass.counter_atElse] at mem
      exact filled x (List.mem_cons_of_mem _ (List.mem_cons_of_mem _ mem))
    refine ⟨jumps, test.linked inside small parts.tested slots.left.left, ?_, ?_⟩
    · refine onTrue.linked inside small ?_ ?_
      · rw [Pass.functions_atThen]
        exact parts.yes
      · rw [Pass.counter_atThen]
        exact slots.left.right
    · refine onFalse.linked inside small ?_ slots.right
      have no := parts.no
      rwa [← p.functions_atElse reg joinSlot elseSlot test onTrue] at no
  | .call reg _ _ _ index args, p, writes, filled => by
    rw [Term.code] at writes
    rw [Term.fills] at filled
    exact Term.argsLinked inside small args writes.left filled

theorem Term.argsLinked (inside : stop ≤ m.code.size) (small : m.code.size < UInt64.size) :
    ∀ (args : List Term) {p : Pass} {slot : Nat},
      Writes m start stop p (Term.argsCode (isExternalAt p.functions) slot args) →
        Fills m (Term.argsFills p.counter slot args) → Term.ArgsLinked m start stop p slot args
  | [], _, _, _, _ => trivial
  | arg :: args, p, slot, writes, filled => by
    rw [Term.argsCode] at writes
    rw [Term.argsFills] at filled
    refine ⟨arg.linked inside small writes.left.left filled.left, ?_⟩
    rw [arg.generate_eq, Pass.emitAll_eq, Pass.advance_advance]
    refine Term.argsLinked inside small args (writes.advance _) ?_
    rw [Pass.advance_counter, List.length_append, Term.length_code, length_moveCode]
    exact filled.right

end

end

/-! ## Sections -/

namespace Pass

/-- The pass when it comes to entry expression number `k`. -/
def beforeEntry (p : Pass) (items : List Item) (k : Nat) : Pass :=
  ((entryTerms items).take k).foldl entry p

theorem length_flatMap_entryCode (external : Nat → Bool) (ts : List Term) :
    (ts.flatMap (Term.entryCode external)).length = entriesSize ts := by
  simp [entriesSize, List.length_flatMap, Term.length_entryCode]

theorem functions_beforeEntry (p : Pass) (items : List Item) (k : Nat) :
    (p.beforeEntry items k).functions = p.functions := by
  rw [beforeEntry, foldl_entry, advance_functions]

theorem counter_beforeEntry (p : Pass) (items : List Item) (k : Nat) :
    (p.beforeEntry items k).counter = p.counter + entriesSize ((entryTerms items).take k) := by
  rw [beforeEntry, foldl_entry, advance_counter, length_flatMap_entryCode]

/-- The pass over a body, whether its function is defined or not. -/
theorem body_eq_advance (p : Pass) (b : Nat × Term) :
    p.body b = (p.place b.1).advance (b.2.bodyCode (isExternalAt p.functions))
      (b.2.targets p.counter) := by
  rw [body, b.2.generate_eq, isExternalAt_place, emitAll_eq, emit_eq, advance_advance,
    advance_advance, List.append_nil, List.append_nil, Term.bodyCode, List.append_assoc]
  rfl

theorem isExternalAt_foldl_body (bs : List (Nat × Term)) (p : Pass) :
    isExternalAt (bs.foldl body p).functions = isExternalAt p.functions := by
  induction bs generalizing p with
  | nil => rfl
  | cons b bs ih => rw [List.foldl_cons, ih, body_functions, isExternalAt_place]

end Pass

section

variable {m : Module} {start stop : Nat} {p : Pass} {external : Nat → Bool}

theorem exists_split {α : Type} {xs : List α} {k : Nat} {x : α} (h : xs[k]? = some x) :
    xs = xs.take k ++ x :: xs.drop (k + 1) := by
  obtain ⟨lt, rfl⟩ := List.getElem?_eq_some_iff.1 h
  rw [← List.drop_eq_getElem_cons lt, List.take_append_drop]

/-- Entry expressions are written one after the other. -/
theorem Writes.entry {ts : List Term} {k : Nat} {t : Term}
    (same : isExternalAt p.functions = external)
    (h : Writes m start stop p (ts.flatMap (Term.entryCode external))) (ht : ts[k]? = some t) :
    Writes m start stop ((ts.take k).foldl Pass.entry p) (t.code external) := by
  rw [exists_split ht, List.flatMap_append, List.flatMap_cons, ← same] at h
  rw [Pass.foldl_entry, ← same]
  exact (h.advance _).left.left

/-- Bodies are written one after the other. -/
theorem Writes.bodies {bs : List (Nat × Term)} {n : Nat}
    (same : isExternalAt p.functions = external)
    (h : Writes m start stop p (bs.flatMap fun b => b.2.bodyCode external)) :
    Writes m start stop ((bs.take n).foldl Pass.body p)
      ((bs.drop n).flatMap fun b => b.2.bodyCode external) := by
  induction bs generalizing p n with
  | nil => simpa using h
  | cons b bs ih =>
    cases n with
    | zero => exact h
    | succ n =>
      rw [List.flatMap_cons] at h
      refine ih ?_ ?_
      · rw [Pass.body_functions, Pass.isExternalAt_place, same]
      · rw [Pass.body_eq_advance, same]
        exact (h.place b.1).advance _

/-- What the slots of an entry expression have to hold, they have to hold in the entry section. -/
theorem mem_entryFills {ts : List Term} {address k : Nat} {t : Term} {x : Nat × UInt64}
    (ht : ts[k]? = some t) (mem : x ∈ t.fills (address + entriesSize (ts.take k))) :
    x ∈ entryFills address ts := by
  induction ts generalizing address k with
  | nil => cases ht
  | cons t' ts ih =>
    rw [entryFills, List.mem_append]
    cases k with
    | zero =>
      cases ht
      exact .inl mem
    | succ k =>
      rw [List.take_succ_cons, entriesSize_cons, ← Nat.add_assoc] at mem
      exact .inr (ih ht mem)

end

/-! ## Programs -/

/-- The pool of a program, in its unit and in the module that is read back. -/
structure PoolLinked (p : Program) (unit : CompiledUnit) (m : Module) (items : List Item)
    (tables : Tables) (emitting : Pass) : Prop where
  /-- The items are the expressions and the definitions of the program, in their order. -/
  entries_placed : List.Forall₂ (Placed {} tables 0) p.entries (entryTerms items)
  definitions_placed : List.Forall₂ (PlacedBody tables) p.definitions (bodies items)
  size_eq : m.constants.size = p.poolSize
  /-- No slot is taken twice. -/
  slots_nodup : (items.flatMap (·.term.slots)).Nodup
  constants_eq : m.constants = unit.constants
  code_eq : m.code = (emitting.run items).written
  entries_linked : ∀ (k : Nat) (term : Term), (entryTerms items)[k]? = some term →
    term.Linked m 0 (emitting.entrySection items).written.size (emitting.beforeEntry items k)
  bodies_linked : ∀ (n index : Nat) (term : Term), (bodies items)[n]? = some (index, term) →
    term.Linked m (emitting.before items n).written.size
      (emitting.before items (n + 1)).written.size ((emitting.before items n).place index)
  /-- The sections are those that the module has. -/
  entry_range : ⟨none, 0, (emitting.entrySection items).written.size⟩ ∈ m.codeRanges
  body_range : ∀ (n index : Nat) (term : Term), (bodies items)[n]? = some (index, term) →
    ⟨some index, (emitting.before items n).written.size,
      (emitting.before items (n + 1)).written.size⟩ ∈ m.codeRanges

namespace AllocatedGlobals

variable {p : Program} {items : List Item} {t : Tables}

/-- The second pass writes the code of the module. -/
theorem writes_program (h : AllocatedGlobals {} p.globals items t) (name : String) :
    Writes (tableModule name items t) 0 ((tableModule name items t).code.size + 1)
      (t.forwardPass items).rewind (tableCode items t) := by
  rw [h.forwardPass_eq]
  refine ⟨rfl, rfl, ?_, Nat.zero_le _, ?_⟩
  · rw [code_tableModule]
    exact List.prefix_rfl
  · simp [Pass.rewind, code_tableModule]

theorem size_entrySection (h : AllocatedGlobals {} p.globals items t) :
    ((t.forwardPass items).rewind.entrySection items).written.size =
      entriesSize (entryTerms items) + 1 := by
  have written := h.written_before 0
  have length := length_codeBefore (isExternalAt (placedTable items t)) items 0
  rw [Pass.before, List.take_zero, List.foldl_nil] at written
  rw [written, List.size_toArray, length]
  rfl

theorem isExternalAt_emitting (h : AllocatedGlobals {} p.globals items t) :
    isExternalAt (t.forwardPass items).rewind.functions = isExternalAt (placedTable items t) := by
  rw [h.forwardPass_eq]
  rfl

theorem size_code_tableModule (name : String) (items : List Item) (t : Tables) :
    (tableModule name items t).code.size = (tableCode items t).length := by
  rw [code_tableModule, List.size_toArray]

theorem entry_linked (h : AllocatedGlobals {} p.globals items t) (name : String)
    (small : (tableCode items t).length < UInt64.size) {k : Nat} {term : Term}
    (ht : (entryTerms items)[k]? = some term) :
    term.Linked (tableModule name items t) 0
      ((t.forwardPass items).rewind.entrySection items).written.size
      ((t.forwardPass items).rewind.beforeEntry items k) := by
  have external := h.isExternalAt_emitting
  have counter : (t.forwardPass items).rewind.counter = 0 := rfl
  have size := length_programCode (isExternalAt (placedTable items t)) items
  rw [layout_ofItems] at size
  -- the entry expressions are followed by one more instruction
  have program := h.writes_program name
  rw [tableCode, programCode_eq, RegLisp.entrySection] at program
  have entries : Writes (tableModule name items t) 0 (entriesSize (entryTerms items) + 1)
      (t.forwardPass items).rewind
      ((entryTerms items).flatMap (Term.entryCode (isExternalAt (placedTable items t)))) := by
    refine program.left.left.within (Nat.zero_le _) ?_
    rw [counter, Pass.length_flatMap_entryCode]
    omega
  rw [h.size_entrySection]
  refine term.linked ?_ ?_ ?_ ?_
  · rw [size_code_tableModule, tableCode, size]
    exact Nat.le_add_right _ _
  · rwa [size_code_tableModule]
  · rw [Pass.functions_beforeEntry, external]
    exact entries.entry external ht
  · intro x mem
    rw [Pass.counter_beforeEntry, counter] at mem
    rw [constants_tableModule]
    exact h.patchedPool_filled (List.mem_append_left _ (mem_entryFills ht mem))

/-- When the second pass comes to a body, it goes on with the bodies from there on. -/
theorem writes_bodies (h : AllocatedGlobals {} p.globals items t) (name : String) (n : Nat) :
    Writes (tableModule name items t) 0 ((tableModule name items t).code.size + 1)
      ((t.forwardPass items).rewind.before items n)
      (((bodies items).drop n).flatMap fun b =>
        b.2.bodyCode (isExternalAt (placedTable items t))) := by
  have external := h.isExternalAt_emitting
  have program := h.writes_program name
  rw [tableCode, programCode_eq, ← external] at program
  have front := program.advance (entryTargets (t.forwardPass items).rewind.counter
    (entryTerms items))
  rw [← Pass.entrySection_eq, external] at front
  refine front.bodies ?_
  rw [Pass.entrySection_eq, Pass.advance_functions, external]

theorem counter_before (h : AllocatedGlobals {} p.globals items t) (name : String) (n : Nat) :
    ((t.forwardPass items).rewind.before items n).counter =
      entriesSize (entryTerms items) + 1 + bodiesSize ((bodies items).take n) := by
  rw [(h.writes_bodies name n).counter_eq, h.written_before, List.size_toArray, length_codeBefore]

theorem size_before_succ (h : AllocatedGlobals {} p.globals items t) (name : String) {n : Nat}
    {b : Nat × Term} (hb : (bodies items)[n]? = some b) :
    ((t.forwardPass items).rewind.before items (n + 1)).written.size =
      ((t.forwardPass items).rewind.before items n).counter + b.2.bodySize := by
  rw [← (h.writes_bodies name (n + 1)).counter_eq, Pass.before_succ _ hb, Pass.body_eq_advance,
    Pass.advance_counter, Term.length_bodyCode]
  rfl

theorem body_linked (h : AllocatedGlobals {} p.globals items t) (name : String)
    (small : (tableCode items t).length < UInt64.size) {n index : Nat} {term : Term}
    (hb : (bodies items)[n]? = some (index, term)) :
    term.Linked (tableModule name items t)
      ((t.forwardPass items).rewind.before items n).written.size
      ((t.forwardPass items).rewind.before items (n + 1)).written.size
      (((t.forwardPass items).rewind.before items n).place index) := by
  have external : isExternalAt ((t.forwardPass items).rewind.before items n).functions =
      isExternalAt (placedTable items t) := by
    rw [Pass.before, Pass.isExternalAt_foldl_body, Pass.entrySection_eq, Pass.advance_functions,
      h.isExternalAt_emitting]
  have here := h.writes_bodies name n
  have next := h.writes_bodies name (n + 1)
  have stop := h.size_before_succ name hb
  obtain ⟨lt, rest⟩ := List.getElem?_eq_some_iff.1 hb
  rw [List.drop_eq_getElem_cons lt, rest, List.flatMap_cons, Term.bodyCode] at here
  refine term.linked ?_ ?_ ?_ ?_
  · have := next.lt_stop
    rw [← next.counter_eq]
    omega
  · rwa [size_code_tableModule]
  · -- the body goes on behind the term, at least with a return
    rw [Pass.isExternalAt_place, external]
    refine (here.left.left.left.place index).within (Nat.le_of_eq here.counter_eq.symm) ?_
    rw [stop, Term.length_code]
    exact Nat.add_lt_add_left (by unfold Term.bodySize; omega) _
  · intro x mem
    have laid := List.mem_of_getElem? (layBodies_getElem? (entriesSize (entryTerms items) + 1) hb)
    rw [← h.counter_before name n] at laid
    rw [constants_tableModule]
    exact h.patchedPool_filled (List.mem_append_right _ (List.mem_flatMap.2 ⟨_, laid, mem⟩))

theorem entry_range (h : AllocatedGlobals {} p.globals items t) (name : String)
    (small : (tableCode items t).length < UInt64.size) :
    ⟨none, 0, ((t.forwardPass items).rewind.entrySection items).written.size⟩ ∈
      (tableModule name items t).codeRanges := by
  have owned : (tableModule name items t).Owns none 0
      (RegLisp.entrySection (isExternalAt (placedTable items t)) (entryTerms items)) _ :=
    (h.laidOut small).front_owned
  have range := owned.range
  rwa [length_entrySection, Nat.zero_add, ← h.size_entrySection] at range

theorem body_range (h : AllocatedGlobals {} p.globals items t) (name : String)
    (small : (tableCode items t).length < UInt64.size) {n index : Nat} {term : Term}
    (hb : (bodies items)[n]? = some (index, term)) :
    ⟨some index, ((t.forwardPass items).rewind.before items n).written.size,
      ((t.forwardPass items).rewind.before items (n + 1)).written.size⟩ ∈
        (tableModule name items t).codeRanges := by
  have laid := List.mem_of_getElem? (layBodies_getElem? (entriesSize (entryTerms items) + 1) hb)
  rw [← h.counter_before name n,
    ← length_entrySection (isExternalAt (placedTable items t))] at laid
  obtain ⟨g, -, -, owned⟩ := (h.laidOut small).body_owned laid
  have range := owned.range
  rw [Term.length_bodyCode] at range
  rw [h.size_before_succ name hb, ← (h.writes_bodies name n).counter_eq]
  exact range

end AllocatedGlobals

/-- In every program that compiles, literals and jumps share the pool without a clash. -/
theorem Program.compile_links_pool {p : Program} {name : String} {unit : CompiledUnit}
    (h : p.compile name = .ok unit) (fits : unit.bytes.length < UInt64.size) :
    ∃ items tables m, p.allocate = .ok (items, tables) ∧ unit.toModule = .ok m ∧
      PoolLinked p unit m items tables (tables.forwardPass items).rewind := by
  obtain ⟨items, t, allocated, small, rfl, loaded⟩ := Program.toModule_of_compile h fits
  have spec := Program.allocate_spec allocated
  refine ⟨items, t, _, allocated, loaded, ?_⟩
  exact {
    entries_placed := spec.entries
    definitions_placed := spec.definitions
    size_eq := by rw [constants_tableModule, size_patchedPool, spec.poolSize_eq]
    slots_nodup := spec.slots_eq ▸ List.nodup_range
    constants_eq := by rw [spec.generate_eq, constants_tableModule]
    code_eq := by rw [spec.emittingPass_eq, code_tableModule]
    entries_linked := fun _ _ ht => spec.entry_linked name small ht
    bodies_linked := fun _ _ _ hb => spec.body_linked name small hb
    entry_range := spec.entry_range name small
    body_range := fun _ _ _ hb => spec.body_range name small hb }

/-- A program with a conditional in a branch of another one, in a test and in an argument. -/
def nested : Program :=
  ⟨[.define ⟨"pick", [⟨"n", .int⟩], .int,
      .cond true (.var false .unknown "n")
        (.cond true (.const false (.int 1)) (.const true (.int 10)) (.call true "pick"
          [.cond false (.var false .unknown "n") (.const false (.int 0)) (.const false (.int 5))]))
        (.const true (.int 20))⟩,
    .entry (.cond false (.cond false (.const false (.int 2)) (.const false (.int 3))
        (.const false (.int 4)))
      (.call false "pick" [.const false (.int 6)]) (.const false (.int 7)))]⟩

theorem Program.compile_links_pool_nested :
    ∃ unit, nested.compile "nested" = .ok unit ∧ unit.bytes.length < UInt64.size ∧
      unit.constants.toList.map UInt64.toNat =
        [26, 25, 24, 18, 1, 10, 22, 21, 0, 5, 20, 12, 11, 5, 4, 2, 3, 4, 6, 7] ∧
      ∃ items tables m, nested.allocate = .ok (items, tables) ∧ unit.toModule = .ok m ∧
        PoolLinked nested unit m items tables (tables.forwardPass items).rewind := by
  have compiles : (nested.compile "nested").toOption.map (fun unit =>
      (unit.bytes.length, unit.constants.toList.map UInt64.toNat)) =
        some (304, [26, 25, 24, 18, 1, 10, 22, 21, 0, 5, 20, 12, 11, 5, 4, 2, 3, 4, 6, 7]) := by
    decide +kernel
  cases compiled : nested.compile "nested" with
  | error e =>
    rw [compiled] at compiles
    cases compiles
  | ok unit =>
    rw [compiled] at compiles
    obtain ⟨length, constants⟩ := Prod.mk.inj (Option.some.inj compiles)
    have fits : unit.bytes.length < UInt64.size := by
      rw [length]
      decide
    exact ⟨unit, rfl, fits, constants, Program.compile_links_pool compiled fits⟩

end RegLisp
