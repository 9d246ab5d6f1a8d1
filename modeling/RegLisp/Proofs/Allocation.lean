import RegLisp.Compile.Allocate
import RegLisp.Proofs.Linking
import RegLisp.Proofs.ModuleFile
import RegLisp.Proofs.NamesInStep

/-!
# What allocation gives

A term that allocation makes from an expression has the shape of the expression, and its registers
and slots follow one discipline: registers count up from the next free one, and slots from the end
of the constant pool. `Placed` states this discipline against tables that may have grown since, and
`Grows` says how they can have grown.
-/

namespace RegLisp

/-! ## Tables that grow -/

/-- What an entry keeps when the function table grows. -/
structure FunctionEntry.Kept (f g : FunctionEntry) : Prop where
  name_eq : g.name = f.name
  arity_eq : g.types.length = f.types.length

namespace Tables

/-- The entry at an index is a definition. -/
def DefinesAt (t : Tables) (index : Nat) : Prop :=
  ∃ f, t.functions[index]? = some f ∧ f.isExternal = false

/-- Tables that instructions and a module file can hold, with their names in step. -/
structure Valid (t : Tables) : Prop where
  inStep : t.InStep
  functions_le : t.functions.size ≤ maxFunctions
  constants_le : t.constants.size ≤ 65535
  types_pos : ∀ f ∈ t.functions, 0 < f.types.length
  short : ∀ f ∈ t.functions, f.Short

theorem valid_start : Valid {} := ⟨inStep_start, by simp, by simp, by simp, by simp⟩

/-- The pool has grown by the given slots. -/
structure Adds (t t' : Tables) (slots : List Nat) : Prop where
  slots_eq : slots = List.range' t.constants.size slots.length
  size_eq : t'.constants.size = t.constants.size + slots.length

/-- Valid tables that come from others by adding to them: they take the given slots of the pool and
define the functions at the given indices. -/
structure Grows (t t' : Tables) (slots added : List Nat) : Prop where
  valid : t'.Valid
  functions : ∀ (i : Nat) (f : FunctionEntry), t.functions[i]? = some f →
    ∃ g, t'.functions[i]? = some g ∧ f.Kept g
  constants : ∀ (i : Nat) (word : UInt64), t.constants[i]? = some word →
    t'.constants[i]? = some word
  defined : ∀ i, t'.DefinesAt i ↔ t.DefinesAt i ∨ i ∈ added
  slots_eq : slots = List.range' t.constants.size slots.length
  size_eq : t'.constants.size = t.constants.size + slots.length

/-- Tables with other registers in use. -/
structure Moves (t t' : Tables) (next : Nat) : Prop where
  functions_eq : t'.functions = t.functions
  indices_eq : t'.indices = t.indices
  constants_eq : t'.constants = t.constants
  next_eq : t'.nextReg = next

variable {t t₁ t₂ t₃ : Tables} {slots slots' added added' : List Nat}

theorem Moves.grows {next : Nat} (h : t₁.Moves t₂ next) (valid : t₁.Valid) :
    t₁.Grows t₂ [] [] := by
  obtain ⟨hf, hi, hc, -⟩ := h
  refine ⟨?_, fun i f h => ⟨f, by rwa [hf], rfl, rfl⟩, fun i word h => by rwa [hc], ?_, rfl, ?_⟩
  · obtain ⟨h₁, h₂, h₃, h₄, h₅⟩ := valid
    exact ⟨h₁.of_eq hf hi, by rwa [hf], by rwa [hc], by rwa [hf], by rwa [hf]⟩
  · simp [DefinesAt, hf]
  · simp [hc]

theorem Adds.trans (h : t₁.Adds t₂ slots) (h' : t₂.Adds t₃ slots') :
    t₁.Adds t₃ (slots ++ slots') where
  slots_eq := by
    rw [List.length_append, ← List.range'_append_1, ← h.slots_eq, ← h.size_eq, ← h'.slots_eq]
  size_eq := by rw [h'.size_eq, h.size_eq, List.length_append, Nat.add_assoc]

theorem Grows.adds (h : t₁.Grows t₂ slots added) : t₁.Adds t₂ slots := ⟨h.slots_eq, h.size_eq⟩

theorem Grows.trans (h : t₁.Grows t₂ slots added) (h' : t₂.Grows t₃ slots' added') :
    t₁.Grows t₃ (slots ++ slots') (added ++ added') where
  valid := h'.valid
  functions i f hf := by
    obtain ⟨g, hg, kept⟩ := h.functions i f hf
    obtain ⟨k, hk, kept'⟩ := h'.functions i g hg
    exact ⟨k, hk, kept'.name_eq.trans kept.name_eq, kept'.arity_eq.trans kept.arity_eq⟩
  constants i word hw := h'.constants i word (h.constants i word hw)
  defined i := by rw [h'.defined, h.defined, List.mem_append, or_assoc]
  slots_eq := (h.adds.trans h'.adds).slots_eq
  size_eq := (h.adds.trans h'.adds).size_eq

theorem grows_push_constant (valid : t.Valid) (room : t.constants.size < maxConstants)
    (word : UInt64) :
    t.Grows { t with constants := t.constants.push word } [t.constants.size] [] where
  valid := {
    inStep := valid.inStep.of_eq rfl rfl
    functions_le := valid.functions_le
    constants_le := by rw [Array.size_push]; exact room
    types_pos := valid.types_pos
    short := valid.short }
  functions _ f h := ⟨f, h, rfl, rfl⟩
  constants i w h := by
    obtain ⟨hi, -⟩ := Array.getElem?_eq_some_iff.1 h
    rw [Array.getElem?_push_lt hi, ← h, Array.getElem?_eq_getElem hi]
  defined _ := by simp [DefinesAt]
  slots_eq := rfl
  size_eq := by simp

/-- A new entry comes behind those there are. -/
theorem grows_push_function {f : FunctionEntry} (valid : t.Valid)
    (absent : t.lookup f.name = none) (room : t.functions.size ≤ maxCallIndex)
    (types : 0 < f.types.length) (short : f.Short)
    (added_eq : added = if f.isExternal then [] else [t.functions.size]) :
    t.Grows { t with
      functions := t.functions.push f
      indices := t.indices.insert f.name t.functions.size } [] added where
  valid := by
    refine ⟨valid.inStep.push absent, ?_, valid.constants_le, ?_, ?_⟩
    · rw [Array.size_push]
      exact Nat.succ_le_succ room
    · simpa [or_imp, forall_and, types] using valid.types_pos
    · simpa [or_imp, forall_and, short] using valid.short
  functions i g h := by
    obtain ⟨hi, -⟩ := Array.getElem?_eq_some_iff.1 h
    exact ⟨g, by rw [Array.getElem?_push_lt hi, ← h, Array.getElem?_eq_getElem hi], rfl, rfl⟩
  constants _ _ h := h
  defined i := by
    subst added_eq
    unfold DefinesAt
    rw [Array.getElem?_push]
    by_cases hi : i = t.functions.size
    · subst hi
      cases h : f.isExternal <;> simp [h]
    · cases h : f.isExternal <;> simp [hi]
  slots_eq := rfl
  size_eq := rfl

theorem mem_modify {functions : Array FunctionEntry} {index : Nat}
    {change : FunctionEntry → FunctionEntry} {g : FunctionEntry}
    (h : g ∈ functions.modify index change) :
    g ∈ functions ∨ ∃ f, functions[index]? = some f ∧ g = change f := by
  obtain ⟨i, hi⟩ := Array.mem_iff_getElem?.1 h
  rw [Array.getElem?_modify] at hi
  split at hi
  · rename_i same
    subst same
    obtain ⟨f, hf, rfl⟩ := Option.map_eq_some_iff.1 hi
    exact .inr ⟨f, hf, rfl⟩
  · exact .inl (Array.mem_of_getElem? hi)

/-- A changed entry keeps its name and arity; it may become a definition. -/
theorem grows_modify {index : Nat} {f : FunctionEntry} {change : FunctionEntry → FunctionEntry}
    (valid : t.Valid) (hf : t.functions[index]? = some f) (kept : f.Kept (change f))
    (defined : (change f).isExternal = false ↔ f.isExternal = false ∨ index ∈ added)
    (only : ∀ i ∈ added, i = index) : t.Grows (t.modify index change) [] added where
  valid := by
    have mem := Array.mem_of_getElem? hf
    have named (g : FunctionEntry) (hg : t.functions[index]? = some g) :
        (change g).name = g.name := by
      obtain rfl := Option.some.inj (hf.symm.trans hg)
      exact kept.name_eq
    refine ⟨valid.inStep.modify named, by simpa [Tables.modify] using valid.functions_le,
      valid.constants_le, ?_, ?_⟩
    all_goals
      intro g hg
      obtain hg | ⟨f', hf', rfl⟩ := mem_modify hg
    · exact valid.types_pos g hg
    · obtain rfl : f = f' := Option.some.inj (hf.symm.trans hf')
      rw [kept.arity_eq]
      exact valid.types_pos f mem
    · exact valid.short g hg
    · obtain rfl : f = f' := Option.some.inj (hf.symm.trans hf')
      have short := valid.short f mem
      exact ⟨by rw [kept.name_eq]; exact short.name_le, by rw [kept.arity_eq]; exact short.types_le⟩
  functions i g h := by
    unfold Tables.modify
    rw [Array.getElem?_modify]
    by_cases hi : index = i
    · subst hi
      rw [hf, Option.some.injEq] at h
      subst h
      exact ⟨change f, by simp [hf], kept⟩
    · exact ⟨g, by simp [hi, h], rfl, rfl⟩
  constants _ _ h := h
  defined i := by
    unfold DefinesAt Tables.modify
    rw [Array.getElem?_modify]
    by_cases hi : index = i
    · subst hi
      simp [hf, defined]
    · have : i ∉ added := fun h => hi (only i h).symm
      simp [hi, this]
  slots_eq := rfl
  size_eq := rfl

end Tables

open Allocate

/-! ## Steps of allocation -/

namespace Allocate

variable {α β : Type} {t t' : Tables} {a : α}

theorem bind_eq_ok {x : Allocate α} {f : α → Allocate β} {r : β × Tables} :
    (x >>= f) t = .ok r ↔ ∃ a t', x t = .ok (a, t') ∧ f a t' = .ok r := by
  change (Except.bind (x t) fun p => f p.1 p.2) = .ok r ↔ _
  cases x t with
  | error e => simp [Except.bind]
  | ok p =>
    obtain ⟨a, t'⟩ := p
    constructor
    · exact fun h => ⟨a, t', rfl, h⟩
    · rintro ⟨_, _, ⟨⟩, h⟩
      exact h

theorem pure_eq_ok {r : α × Tables} : (pure a : Allocate α) t = .ok r ↔ (a, t) = r := by
  simp [pure, StateT.pure, Except.pure]

theorem liftM_eq_ok {x : Except CompileError α} :
    (liftM x : Allocate α) t = .ok (a, t') ↔ x = .ok a ∧ t = t' := by
  change Except.bind x (fun a => .ok (a, t)) = .ok (a, t') ↔ _
  cases x with
  | error e => simp [Except.bind]
  | ok b => simp [Except.bind]

theorem modifyGet_eq_ok {f : Tables → α × Tables} :
    (MonadState.modifyGet f : Allocate α) t = .ok (a, t') ↔ f t = (a, t') := by
  simp [MonadState.modifyGet, modifyGet, MonadStateOf.modifyGet, StateT.modifyGet, pure,
    Except.pure]

theorem require_eq_ok {condition : Bool} {e : CompileError} {u : Unit} :
    require condition e t = .ok (u, t') ↔ condition = true ∧ t = t' := by
  cases condition <;> simp [require]

theorem setNext_moves {reg : Nat} {u : Unit} (h : setNext reg t = .ok (u, t')) :
    t.Moves t' reg := by
  cases h
  exact ⟨rfl, rfl, rfl, rfl⟩

theorem nextReg_eq_ok {reg : Nat} (h : nextReg t = .ok (reg, t')) : t.nextReg = reg ∧ t = t' := by
  cases h
  exact ⟨rfl, rfl⟩

theorem touch_moves {reg reg' : Nat} (h : touch reg t = .ok (reg', t')) :
    reg' = reg ∧ reg < frameRegisters ∧ t.Moves t' t.nextReg := by
  unfold touch ofTables Tables.touch at h
  by_cases room : reg < frameRegisters
  · simp only [room, ↓reduceIte] at h
    cases h
    exact ⟨rfl, room, rfl, rfl, rfl, rfl⟩
  · simp [room] at h

theorem alloc_moves {reg : Nat} (h : alloc t = .ok (reg, t')) :
    reg = t.nextReg ∧ reg < frameRegisters ∧ t.Moves t' (reg + 1) := by
  obtain ⟨rfl, room, moves⟩ := touch_moves (t := { t with nextReg := t.nextReg + 1 }) h
  exact ⟨rfl, room, moves.functions_eq, moves.indices_eq, moves.constants_eq, moves.next_eq⟩

theorem addConstant_grows {word : UInt64} {slot : Nat} (valid : t.Valid)
    (h : addConstant word t = .ok (slot, t')) :
    t.Grows t' [slot] [] ∧ t'.nextReg = t.nextReg ∧ t'.constants[slot]? = some word := by
  unfold addConstant ofTables Tables.addConstant at h
  by_cases room : t.constants.size < maxConstants
  · simp only [room, ↓reduceIte] at h
    cases h
    exact ⟨t.grows_push_constant valid room word, rfl, by simp⟩
  · simp [room] at h

/-- Adding an entry checks that a file can hold it. -/
theorem insert_eq_ok {f : FunctionEntry} {index : Nat} (h : insert f t = .ok (index, t')) :
    t.functions.size ≤ maxCallIndex ∧ f.Short ∧ index = t.functions.size ∧
      t' = { t with
        functions := t.functions.push f
        indices := t.indices.insert f.name t.functions.size } := by
  unfold insert ofTables Tables.insert at h
  by_cases full : maxCallIndex < t.functions.size
  · simp [full] at h
  by_cases name : maxLength < f.name.utf8ByteSize
  · simp [full, name] at h
  by_cases signature : maxLength < f.types.length
  · simp [full, name, signature] at h
  simp only [full, name, signature, ↓reduceIte] at h
  cases h
  have short : f.Short := by
    refine ⟨?_, Nat.le_of_not_lt signature⟩
    exact Nat.le_of_not_lt name
  exact ⟨Nat.le_of_not_lt full, short, rfl, rfl⟩

theorem insert_grows {f : FunctionEntry} {index : Nat} (valid : t.Valid)
    (absent : t.lookup f.name = none) (types : 0 < f.types.length)
    (h : insert f t = .ok (index, t')) :
    t.Grows t' [] (if f.isExternal then [] else [index]) ∧ t'.nextReg = t.nextReg ∧
      t.functions[index]? = none ∧ t'.functions[index]? = some f := by
  obtain ⟨room, short, rfl, rfl⟩ := insert_eq_ok h
  exact ⟨t.grows_push_function valid absent room types short rfl, rfl, by simp, by simp⟩

theorem lookup_eq_ok {name : String} {found : Option Nat} (h : lookup name t = .ok (found, t')) :
    t.lookup name = found ∧ t = t' := by
  cases h
  exact ⟨rfl, rfl⟩

theorem entryAt_eq_ok {index : Nat} {f g : FunctionEntry} (hf : t.functions[index]? = some f)
    (h : entryAt index t = .ok (g, t')) : f = g ∧ t = t' := by
  unfold entryAt at h
  rw [Array.getD_eq_getD_getElem?, hf] at h
  cases h
  exact ⟨rfl, rfl⟩

theorem modify_eq_ok {index : Nat} {change : FunctionEntry → FunctionEntry} {u : Unit}
    (h : modify index change t = .ok (u, t')) : t.modify index change = t' := by
  cases h
  rfl

end Allocate

/-! ## Terms -/

/-- How many registers stay in use behind an expression. A variable has its register already, and
the operands of an operation keep theirs. -/
def Expr.width : Expr → Nat
  | .var _ _ _ => 0
  | .binary _ _ lhs rhs => 1 + lhs.width + rhs.width
  | _ => 1

mutual

/-- The slots of a term, in the order in which they are taken. -/
def Term.slots : Term → List Nat
  | .const _ slot _ => [slot]
  | .var _ _ _ => []
  | .binary _ _ _ lhs rhs => lhs.slots ++ rhs.slots
  | .cond _ _ joinSlot elseSlot test onTrue onFalse =>
    joinSlot :: elseSlot :: (test.slots ++ onTrue.slots ++ onFalse.slots)
  | .call _ _ _ _ _ args => Term.argsSlots args

/-- The slots of terms, one after the other. -/
def Term.argsSlots : List Term → List Nat
  | [] => []
  | arg :: args => arg.slots ++ Term.argsSlots args

end

mutual

/-- The term has the shape of the expression, and its registers start at `reg`. Names, indices and
literals are those of the scope and the tables. -/
inductive Placed (scope : Scope) (t : Tables) : (reg : Nat) → Expr → Term → Prop
  | const {reg slot : Nat} {tail : Bool} {value : Literal} (room : reg < frameRegisters)
      (pooled : t.constants[slot]? = some value.toWord) :
      Placed scope t reg (.const tail value) (.const reg slot value)
  | var {reg : Nat} {tail : Bool} {type : ValueType} {name : String} {b : Binding}
      (bound : scope.lookup name = some b) (below : b.reg < reg) :
      Placed scope t reg (.var tail type name) (.var b.reg b.type name)
  | binary {reg : Nat} {tail : Bool} {type : ValueType} {op : BinaryOp} {lhs rhs : Expr}
      {lhs' rhs' : Term} (room : reg < frameRegisters) (left : Placed scope t (reg + 1) lhs lhs')
      (right : Placed scope t (reg + 1 + lhs.width) rhs rhs') :
      Placed scope t reg (.binary tail op lhs rhs) (.binary reg type op lhs' rhs')
  | cond {reg joinSlot elseSlot : Nat} {tail : Bool} {type : ValueType}
      {test onTrue onFalse : Expr} {test' onTrue' onFalse' : Term} (room : reg < frameRegisters)
      (tested : Placed scope t reg test test') (yes : Placed scope t reg onTrue onTrue')
      (no : Placed scope t reg onFalse onFalse') :
      Placed scope t reg (.cond tail test onTrue onFalse)
        (.cond reg type joinSlot elseSlot test' onTrue' onFalse')
  | call {reg index : Nat} {tail : Bool} {type : ValueType} {callee : String}
      {f : FunctionEntry} {args : List Expr} {args' : List Term} (room : reg < frameRegisters)
      (passed : PlacedArgs scope t (reg + 1) args args')
      (entered : t.functions[index]? = some f) (named : f.name = callee)
      (arity : f.types.length = args'.length + 1) :
      Placed scope t reg (.call tail callee args) (.call reg type tail callee index args')

/-- Each argument starts at its own register. -/
inductive PlacedArgs (scope : Scope) (t : Tables) :
    (slot : Nat) → List Expr → List Term → Prop
  | nil {slot : Nat} : PlacedArgs scope t slot [] []
  | cons {slot : Nat} {arg : Expr} {arg' : Term} {args : List Expr} {args' : List Term}
      (room : slot < frameRegisters) (first : Placed scope t slot arg arg')
      (others : PlacedArgs scope t (slot + 1) args args') :
      PlacedArgs scope t slot (arg :: args) (arg' :: args')

end

mutual

theorem Placed.grows {scope : Scope} {t t' : Tables} {slots added : List Nat} {reg : Nat}
    (grows : t.Grows t' slots added) :
    ∀ {e : Expr} {term : Term}, Placed scope t reg e term → Placed scope t' reg e term
  | .const _ _, _, .const room pooled => .const room (grows.constants _ _ pooled)
  | .var _ _ _, _, .var bound below => .var bound below
  | .binary _ _ _ _, _, .binary room left right =>
    .binary room (left.grows grows) (right.grows grows)
  | .cond _ _ _ _, _, .cond room tested yes no =>
    .cond room (tested.grows grows) (yes.grows grows) (no.grows grows)
  | .call _ _ _, _, .call room passed entered named arity => by
    obtain ⟨g, hg, kept⟩ := grows.functions _ _ entered
    exact .call room (passed.grows grows) hg (kept.name_eq.trans named)
      (kept.arity_eq.trans arity)

theorem PlacedArgs.grows {scope : Scope} {t t' : Tables} {slots added : List Nat} {slot : Nat}
    (grows : t.Grows t' slots added) :
    ∀ {args : List Expr} {args' : List Term}, PlacedArgs scope t slot args args' →
      PlacedArgs scope t' slot args args'
  | [], _, .nil => .nil
  | _ :: _, _, .cons room first others =>
    .cons room (first.grows grows) (others.grows grows)

end

/-- What allocating an expression has done. -/
structure Allocated (scope : Scope) (t : Tables) (e : Expr) (term : Term) (t' : Tables) :
    Prop where
  grows : t.Grows t' term.slots []
  placed : Placed scope t' t.nextReg e term
  next_eq : t'.nextReg = t.nextReg + e.width

theorem length_fillUnknown (types fillers : List ValueType) :
    (fillUnknown types fillers).length = min types.length fillers.length := by
  simp [fillUnknown]

/-- A call gets the index of an entry with the name of the callee and a type for each argument. -/
theorem resolveCall_spec {name : String} {args : List ValueType} {t t' : Tables} {index : Nat}
    {type : ValueType} (valid : t.Valid) (h : resolveCall name args t = .ok ((index, type), t')) :
    t.Grows t' [] [] ∧ t'.nextReg = t.nextReg ∧
      ∃ f, t'.functions[index]? = some f ∧ f.name = name ∧ f.types.length = args.length + 1 := by
  simp only [resolveCall, bind_eq_ok] at h
  obtain ⟨found, t₁, h₁, h⟩ := h
  obtain ⟨rfl, rfl⟩ := lookup_eq_ok h₁
  cases found : t.lookup name with
  | none =>
    simp only [found, bind_eq_ok, pure_eq_ok] at h
    obtain ⟨index, t₂, h₂, heq⟩ := h
    cases heq
    obtain ⟨grows, next, -, entry⟩ := insert_grows valid found (by simp) h₂
    exact ⟨grows, next, _, entry, rfl, by simp⟩
  | some index' =>
    obtain ⟨f, hf, name_eq⟩ := valid.inStep.exists_entry found
    simp only [found, bind_eq_ok, checkParams] at h
    obtain ⟨entry, t₂, h₂, u, t₃, h₃, h⟩ := h
    obtain ⟨rfl, rfl⟩ := entryAt_eq_ok hf h₂
    obtain ⟨agree, rfl⟩ := require_eq_ok.1 h₃
    have arity := typesAgree_length agree
    have pos := valid.types_pos f (Array.mem_of_getElem? hf)
    rw [FunctionEntry.params, List.length_tail] at arity
    by_cases external : f.isExternal = true
    · simp only [external, ↓reduceIte, bind_eq_ok, pure_eq_ok] at h
      obtain ⟨u, t₄, h₄, heq⟩ := h
      cases heq
      obtain rfl := modify_eq_ok h₄
      have kept : f.Kept (f.refine args) := by
        refine ⟨rfl, ?_⟩
        simp only [FunctionEntry.refine, FunctionEntry.params, List.length_append,
          List.length_take, length_fillUnknown, List.length_tail]
        omega
      refine ⟨t.grows_modify valid hf kept ?_ (by simp), rfl, f.refine args, ?_, name_eq, ?_⟩
      · simp [FunctionEntry.refine, FunctionEntry.isExternal]
      · simp [Tables.modify, Array.getElem?_modify, hf]
      · rw [kept.arity_eq]
        omega
    · simp only [external, Bool.false_eq_true, ↓reduceIte, pure_eq_ok] at h
      cases h
      exact ⟨Tables.Moves.grows ⟨rfl, rfl, rfl, rfl⟩ valid, rfl, f, hf, name_eq, by omega⟩

/-- All names are bound to registers below the given one. -/
def Scope.Below (scope : Scope) (reg : Nat) : Prop :=
  ∀ (name : String) (b : Binding), scope.lookup name = some b → b.reg < reg

theorem Scope.Below.mono {scope : Scope} {reg reg' : Nat} (h : scope.Below reg)
    (le : reg ≤ reg') : scope.Below reg' :=
  fun name b bound => Nat.lt_of_lt_of_le (h name b bound) le

mutual

/-- Allocating an expression places it at the next free register. -/
theorem Expr.allocate_spec {scope : Scope} : ∀ (e : Expr) {t t' : Tables} {term : Term},
    t.Valid → scope.Below t.nextReg → e.allocate scope t = .ok (term, t') →
      Allocated scope t e term t'
  | .const tail value, t, t', term, valid, below, h => by
    simp only [Expr.allocate, bind_eq_ok, pure_eq_ok] at h
    obtain ⟨reg, t₁, h₁, slot, t₂, h₂, heq⟩ := h
    cases heq
    obtain ⟨rfl, room, moves⟩ := alloc_moves h₁
    have grows₁ := moves.grows valid
    obtain ⟨grows₂, next, pooled⟩ := addConstant_grows grows₁.valid h₂
    exact ⟨grows₁.trans grows₂, .const room pooled, next.trans moves.next_eq⟩
  | .var tail type name, t, t', term, valid, below, h => by
    unfold Expr.allocate at h
    cases bound : scope.lookup name with
    | none => simp [bound, fail] at h
    | some b =>
      simp only [bound, bind_eq_ok, pure_eq_ok] at h
      obtain ⟨u, t₁, h₁, heq⟩ := h
      cases heq
      obtain ⟨-, rfl⟩ := require_eq_ok.1 h₁
      exact ⟨Tables.Moves.grows ⟨rfl, rfl, rfl, rfl⟩ valid, .var bound (below name b bound), rfl⟩
  | .binary tail op lhs rhs, t, t', term, valid, below, h => by
    simp only [Expr.allocate, bind_eq_ok, pure_eq_ok] at h
    obtain ⟨reg, t₁, h₁, lhs', t₂, h₂, rhs', t₃, h₃, heq⟩ := h
    cases heq
    obtain ⟨rfl, room, moves⟩ := alloc_moves h₁
    have grows₁ := moves.grows valid
    have left := allocate_spec lhs grows₁.valid (below.mono (by simp [moves.next_eq])) h₂
    have right := allocate_spec rhs left.grows.valid
      (below.mono (by simp only [left.next_eq, moves.next_eq]; omega)) h₃
    have hleft := left.placed.grows right.grows
    have hright := right.placed
    rw [left.next_eq] at hright
    rw [moves.next_eq] at hleft hright
    refine ⟨grows₁.trans (left.grows.trans right.grows), .binary room hleft hright, ?_⟩
    rw [right.next_eq, left.next_eq, moves.next_eq, Expr.width]
    omega
  | .cond tail test onTrue onFalse, t, t', term, valid, below, h => by
    simp only [Expr.allocate, bind_eq_ok, pure_eq_ok] at h
    obtain ⟨reg, t₁, h₁, joinSlot, t₂, h₂, elseSlot, t₃, h₃, test', t₄, h₄, u₁, t₅, h₅, u₂, t₆,
      h₆, onTrue', t₇, h₇, u₃, t₈, h₈, onFalse', t₉, h₉, reg', t₁₀, h₁₀, u₄, t₁₁, h₁₁, heq⟩ := h
    cases heq
    obtain ⟨rfl, rfl⟩ := nextReg_eq_ok h₁
    obtain ⟨grows₂, next₂, -⟩ := addConstant_grows valid h₂
    obtain ⟨grows₃, next₃, -⟩ := addConstant_grows grows₂.valid h₃
    have tested := allocate_spec test grows₃.valid (by rwa [next₃, next₂]) h₄
    obtain ⟨-, rfl⟩ := require_eq_ok.1 h₅
    have moves₆ := setNext_moves h₆
    have grows₆ := moves₆.grows tested.grows.valid
    have yes := allocate_spec onTrue grows₆.valid (by rwa [moves₆.next_eq]) h₇
    have moves₈ := setNext_moves h₈
    have grows₈ := moves₈.grows yes.grows.valid
    have no := allocate_spec onFalse grows₈.valid (by rwa [moves₈.next_eq]) h₉
    obtain ⟨rfl, room, moves₁₀⟩ := touch_moves h₁₀
    have moves₁₁ := setNext_moves h₁₁
    have grows₁₀ := moves₁₀.grows no.grows.valid
    have grows₁₁ := moves₁₁.grows grows₁₀.valid
    -- what comes behind the test, behind the first branch and behind the second
    have behindNo := grows₁₀.trans grows₁₁
    have behindYes := (grows₈.trans no.grows).trans behindNo
    have behindTest := (grows₆.trans yes.grows).trans behindYes
    have hno := no.placed.grows behindNo
    have hyes := yes.placed.grows behindYes
    have htest := tested.placed.grows behindTest
    rw [moves₈.next_eq] at hno
    rw [moves₆.next_eq] at hyes
    rw [next₃, next₂] at htest
    refine ⟨?_, .cond room htest hyes hno, moves₁₁.next_eq⟩
    simpa [Term.slots] using grows₂.trans (grows₃.trans (tested.grows.trans behindTest))
  | .call tail callee args, t, t', term, valid, below, h => by
    simp only [Expr.allocate, bind_eq_ok, pure_eq_ok] at h
    obtain ⟨reg, t₁, h₁, args', t₂, h₂, u, t₃, h₃, ⟨index, type⟩, t₄, h₄, heq⟩ := h
    cases heq
    obtain ⟨rfl, room, moves₁⟩ := alloc_moves h₁
    have grows₁ := moves₁.grows valid
    obtain ⟨grows₂, passed⟩ := allocateArgs_spec args grows₁.valid (below.mono (by omega)) h₂
    have moves₃ := setNext_moves h₃
    have grows₃ := moves₃.grows grows₂.valid
    obtain ⟨grows₄, next₄, f, entered, named, arity⟩ := resolveCall_spec grows₃.valid h₄
    rw [List.length_map] at arity
    refine ⟨?_, .call room (passed.grows (grows₃.trans grows₄)) entered named arity, ?_⟩
    · simpa [Term.slots] using grows₁.trans (grows₂.trans (grows₃.trans grows₄))
    · exact next₄.trans moves₃.next_eq
termination_by structural e => e

/-- Allocating arguments places each at its own register. -/
theorem Expr.allocateArgs_spec {scope : Scope} : ∀ (args : List Expr) {slot : Nat}
    {t t' : Tables} {terms : List Term}, t.Valid → scope.Below slot →
      Expr.allocateArgs scope slot args t = .ok (terms, t') →
        t.Grows t' (Term.argsSlots terms) [] ∧ PlacedArgs scope t' slot args terms
  | [], slot, t, t', terms, valid, below, h => by
    simp only [Expr.allocateArgs, pure_eq_ok] at h
    cases h
    exact ⟨Tables.Moves.grows ⟨rfl, rfl, rfl, rfl⟩ valid, .nil⟩
  | arg :: args, slot, t, t', terms, valid, below, h => by
    simp only [Expr.allocateArgs, bind_eq_ok, pure_eq_ok] at h
    obtain ⟨u, t₁, h₁, arg', t₂, h₂, slot', t₃, h₃, args', t₄, h₄, heq⟩ := h
    cases heq
    have moves₁ := setNext_moves h₁
    have grows₁ := moves₁.grows valid
    have first := allocate_spec arg grows₁.valid (by rwa [moves₁.next_eq]) h₂
    obtain ⟨-, room, moves₃⟩ := touch_moves h₃
    have grows₃ := moves₃.grows first.grows.valid
    obtain ⟨grows₄, others⟩ := allocateArgs_spec args grows₃.valid (below.mono (by omega)) h₄
    have hfirst := first.placed.grows (grows₃.trans grows₄)
    rw [moves₁.next_eq] at hfirst
    refine ⟨?_, .cons room hfirst others⟩
    simpa [Term.argsSlots] using grows₁.trans (first.grows.trans (grows₃.trans grows₄))
termination_by structural args => args

end

/-! ## Globals -/

/-- A name that parameters bind is bound to the register of its parameter, and no parameter before
has that name. -/
theorem bindParams_spec {ps : List Param} {inner : List (String × Binding)} {reg : Nat}
    {scope : Scope} (h : bindParams ⟨[inner]⟩ reg ps = .ok scope) {name : String} {b : Binding}
    (bound : scope.lookup name = some b) :
    inner.lookup name = some b ∨ inner.lookup name = none ∧
      ∃ k < ps.length, b.reg = reg + k ∧
        ∀ values : List Int64, ((ps.map Param.name).zip values).lookup name = values[k]? := by
  induction ps generalizing inner reg with
  | nil =>
    cases h
    simp only [Scope.lookup, List.findSome?_cons, List.findSome?_nil] at bound
    left
    split at bound
    · rename_i found
      rw [found, bound]
    · cases bound
  | cons p ps ih =>
    unfold bindParams Scope.declare at h
    by_cases again : (inner.lookup p.name).isSome = true
    · simp [again] at h
    · simp only [again, Bool.false_eq_true, ↓reduceIte] at h
      have fresh : inner.lookup p.name = none := Option.not_isSome_iff_eq_none.1 again
      by_cases same : name = p.name
      · subst same
        right
        refine ⟨fresh, 0, by simp, ?_, ?_⟩
        · obtain found | ⟨found, -⟩ := ih h
          · simp only [List.lookup_cons_self, Option.some.injEq] at found
            rw [← found]
            rfl
          · simp at found
        · intro values
          cases values <;> simp
      · have other : (name == p.name) = false := by simpa using same
        obtain found | ⟨found, k, lt, reg_eq, first⟩ := ih h
        · rw [List.lookup_cons, other] at found
          exact .inl found
        · rw [List.lookup_cons, other] at found
          right
          refine ⟨found, k + 1, by simpa using lt, by omega, ?_⟩
          intro values
          cases values with
          | nil => simp
          | cons value values => simp [List.lookup_cons, other, first]

/-- A definition gets an entry that was no definition before. -/
theorem Definition.register_spec {d : Definition} {t t' : Tables} {index : Nat} (valid : t.Valid)
    (h : d.register t = .ok (index, t')) :
    t.Grows t' [] [index] ∧ ¬ t.DefinesAt index ∧
      ∃ f, t'.functions[index]? = some f ∧ f.name = d.name ∧
        f.types.length = d.params.length + 1 := by
  simp only [Definition.register, bind_eq_ok] at h
  obtain ⟨found, t₁, h₁, h⟩ := h
  obtain ⟨rfl, rfl⟩ := lookup_eq_ok h₁
  cases found : t.lookup d.name with
  | none =>
    simp only [found] at h
    obtain ⟨grows, -, absent, entry⟩ := insert_grows valid found (by simp) h
    refine ⟨grows, ?_, _, entry, rfl, by simp [Definition.paramTypes]⟩
    rintro ⟨f, hf, -⟩
    rw [absent] at hf
    cases hf
  | some index' =>
    obtain ⟨f, hf, name_eq⟩ := valid.inStep.exists_entry found
    simp only [found, bind_eq_ok, pure_eq_ok, checkSignature, checkParams] at h
    obtain ⟨entry, t₂, h₂, u₁, t₃, h₃, u₂, t₄, ⟨u₃, t₅, h₅, h₆⟩, u₄, t₇, h₇, heq⟩ := h
    cases heq
    obtain ⟨rfl, rfl⟩ := entryAt_eq_ok hf h₂
    obtain ⟨external, rfl⟩ := require_eq_ok.1 h₃
    obtain ⟨agree, rfl⟩ := require_eq_ok.1 h₅
    obtain ⟨-, rfl⟩ := require_eq_ok.1 h₆
    obtain rfl := modify_eq_ok h₇
    have arity := typesAgree_length agree
    have pos := valid.types_pos f (Array.mem_of_getElem? hf)
    rw [FunctionEntry.params, List.length_tail, Definition.paramTypes, List.length_map] at arity
    have types_length : (fillUnknown (d.returns :: d.paramTypes) f.types).length =
        f.types.length := by
      simp only [length_fillUnknown, List.length_cons, Definition.paramTypes, List.length_map]
      omega
    refine ⟨t.grows_modify valid hf ⟨rfl, types_length⟩ ?_ (by simp), ?_,
      { f with address := some 0, types := fillUnknown (d.returns :: d.paramTypes) f.types },
      ?_, name_eq, ?_⟩
    · simp [FunctionEntry.isExternal]
    · rintro ⟨f', hf', definition⟩
      obtain rfl : f = f' := Option.some.inj (hf.symm.trans hf')
      rw [external] at definition
      cases definition
    · simp [Tables.modify, Array.getElem?_modify, hf]
    · simp only [types_length]
      omega

/-- What allocating the body of a definition has done. -/
structure PlacedBody (t : Tables) (d : Definition) (body : Nat × Term) : Prop where
  entered : ∃ f, t.functions[body.1]? = some f ∧ f.name = d.name ∧
    f.types.length = d.params.length + 1
  params_le : d.params.length ≤ maxParams
  placed : ∃ scope, bindParams (Scope.mk []).push 1 d.params = .ok scope ∧
    Placed scope t (d.params.length + 1) d.body body.2

theorem PlacedBody.grows {t t' : Tables} {slots added : List Nat} {d : Definition}
    {body : Nat × Term} (h : PlacedBody t d body) (grows : t.Grows t' slots added) :
    PlacedBody t' d body := by
  obtain ⟨⟨f, hf, name, arity⟩, params_le, scope, bound, placed⟩ := h
  obtain ⟨g, hg, kept⟩ := grows.functions _ _ hf
  exact ⟨⟨g, hg, kept.name_eq.trans name, kept.arity_eq.trans arity⟩, params_le, scope, bound,
    placed.grows grows⟩

theorem Definition.allocate_spec {d : Definition} {t t' : Tables} {item : Item} (valid : t.Valid)
    (h : d.allocate t = .ok (item, t')) :
    ∃ index term, item = .body index term ∧ t.Grows t' term.slots [index] ∧
      ¬ t.DefinesAt index ∧ PlacedBody t' d (index, term) := by
  simp only [Definition.allocate, bind_eq_ok, pure_eq_ok] at h
  obtain ⟨u₁, t₁, h₁, index, t₂, h₂, scope, t₃, h₃, u₄, t₄, h₄, term, t₅, h₅, entry, t₆, h₆,
    u₇, t₇, h₇, u₈, t₈, h₈, heq⟩ := h
  cases heq
  obtain ⟨params_le, rfl⟩ := require_eq_ok.1 h₁
  obtain ⟨grows₂, fresh, f, hf, name, arity⟩ := register_spec valid h₂
  obtain ⟨bound, rfl⟩ := liftM_eq_ok.1 h₃
  cases modifyGet_eq_ok.1 h₄
  have moves : t₂.Moves (t₂.beginFrame d.name (d.params.length + 1)) (d.params.length + 1) :=
    ⟨rfl, rfl, rfl, rfl⟩
  have grows₄ := moves.grows grows₂.valid
  have below : scope.Below (d.params.length + 1) := by
    intro name b found
    obtain found | ⟨-, k, lt, reg, -⟩ := bindParams_spec bound found
    · cases found
    · omega
  have body := d.body.allocate_spec grows₄.valid below h₅
  obtain ⟨f₅, hf₅, kept⟩ := (grows₄.trans body.grows).functions _ _ hf
  obtain ⟨rfl, rfl⟩ := entryAt_eq_ok hf₅ h₆
  obtain ⟨-, rfl⟩ := require_eq_ok.1 h₇
  cases modifyGet_eq_ok.1 h₈
  have pos := body.grows.valid.types_pos f₅ (Array.mem_of_getElem? hf₅)
  have grows₈ : t₅.Grows (t₅.modify index fun f =>
      { f with
        reservation := t₅.reservation
        types := (if f.returns.isKnown then f.returns else term.type) :: f.params }) [] [] := by
    refine t₅.grows_modify body.grows.valid hf₅ ⟨rfl, ?_⟩ (by simp [FunctionEntry.isExternal])
      (by simp)
    simp only [FunctionEntry.params, List.length_cons, List.length_tail]
    omega
  refine ⟨index, term, rfl, ?_, fresh, ?_⟩
  · simpa using grows₂.trans (grows₄.trans (body.grows.trans grows₈))
  · have entered : PlacedBody t₅ d (index, term) :=
      ⟨⟨f₅, hf₅, kept.name_eq.trans name, kept.arity_eq.trans arity⟩, by simpa using params_le,
        scope, bound, body.placed⟩
    exact entered.grows grows₈

theorem Declaration.allocate_grows {d : Declaration} {t t' : Tables} {u : Unit} (valid : t.Valid)
    (h : d.allocate t = .ok (u, t')) : t.Grows t' [] [] := by
  simp only [Declaration.allocate, bind_eq_ok] at h
  obtain ⟨u₁, t₁, h₁, found, t₂, h₂, h⟩ := h
  obtain ⟨-, rfl⟩ := require_eq_ok.1 h₁
  obtain ⟨rfl, rfl⟩ := lookup_eq_ok h₂
  cases found : t.lookup d.name with
  | none =>
    simp only [found, bind_eq_ok, pure_eq_ok] at h
    obtain ⟨index, t₃, h₃, heq⟩ := h
    cases heq
    exact (insert_grows valid found (by simp) h₃).1
  | some index =>
    obtain ⟨f, hf, -⟩ := valid.inStep.exists_entry found
    simp only [found, bind_eq_ok, checkSignature, checkParams] at h
    obtain ⟨entry, t₃, h₃, u₄, t₄, ⟨u₅, t₅, h₅, h₆⟩, h₇⟩ := h
    obtain ⟨rfl, rfl⟩ := entryAt_eq_ok hf h₃
    obtain ⟨agree, rfl⟩ := require_eq_ok.1 h₅
    obtain ⟨-, rfl⟩ := require_eq_ok.1 h₆
    obtain rfl := modify_eq_ok h₇
    have arity := typesAgree_length agree
    have pos := valid.types_pos f (Array.mem_of_getElem? hf)
    rw [FunctionEntry.params, List.length_tail] at arity
    refine t.grows_modify valid hf ⟨rfl, ?_⟩ (by simp [FunctionEntry.isExternal]) (by simp)
    simp only [length_fillUnknown, List.length_cons]
    omega

theorem Expr.allocateEntry_spec {e : Expr} {t t' : Tables} {item : Item} (valid : t.Valid)
    (h : e.allocateEntry t = .ok (item, t')) :
    ∃ term, item = .entry term ∧ t.Grows t' term.slots [] ∧ Placed {} t' 0 e term := by
  simp only [Expr.allocateEntry, bind_eq_ok, pure_eq_ok] at h
  obtain ⟨u₁, t₁, h₁, term, t₂, h₂, reg, t₃, h₃, u₄, t₄, h₄, heq⟩ := h
  cases heq
  cases modifyGet_eq_ok.1 h₁
  have moves : t.Moves (t.beginFrame entryFrame 0) 0 := ⟨rfl, rfl, rfl, rfl⟩
  have grows₁ := moves.grows valid
  have below : Scope.Below {} 0 := by
    intro name b found
    cases found
  have value := e.allocate_spec grows₁.valid below h₂
  obtain ⟨-, -, moves₃⟩ := touch_moves h₃
  have grows₃ := moves₃.grows value.grows.valid
  cases modifyGet_eq_ok.1 h₄
  have grows₄ : t₃.Grows { t₃ with entryReservation := max t₃.entryReservation t₃.reservation }
      [] [] := Tables.Moves.grows ⟨rfl, rfl, rfl, rfl⟩ grows₃.valid
  refine ⟨term, rfl, ?_, value.placed.grows (grows₃.trans grows₄)⟩
  simpa using grows₁.trans (value.grows.trans (grows₃.trans grows₄))

/-- The term of an item. -/
def Item.term : Item → Term
  | .entry value => value
  | .body _ value => value

/-- What allocating globals has done: each entry expression and each body of a definition is
placed, and no function is defined twice. -/
structure AllocatedGlobals (t : Tables) (globals : List Global) (items : List Item)
    (t' : Tables) : Prop where
  grows : t.Grows t' (items.flatMap (·.term.slots)) ((bodies items).map Prod.fst)
  fresh : ∀ index ∈ (bodies items).map Prod.fst, ¬ t.DefinesAt index
  nodup : ((bodies items).map Prod.fst).Nodup
  entries : List.Forall₂ (Placed {} t' 0) (Program.mk globals).entries (entryTerms items)
  definitions : List.Forall₂ (PlacedBody t') (Program.mk globals).definitions (bodies items)

theorem allocateGlobals_spec {globals : List Global} {t t' : Tables} {done items : List Item}
    (valid : t.Valid) (h : allocateGlobals done globals t = .ok (items, t')) :
    ∃ new, items = done.reverse ++ new ∧ AllocatedGlobals t globals new t' := by
  induction globals generalizing t done with
  | nil =>
    simp only [allocateGlobals, pure_eq_ok] at h
    cases h
    refine ⟨[], by simp, Tables.Moves.grows ⟨rfl, rfl, rfl, rfl⟩ valid, by simp [bodies], ?_, ?_, ?_⟩
    · exact List.nodup_nil
    · exact .nil
    · exact .nil
  | cons global globals ih =>
    cases global with
    | define d =>
      simp only [allocateGlobals, bind_eq_ok] at h
      obtain ⟨item, t₁, h₁, h⟩ := h
      obtain ⟨index, term, rfl, grows₁, fresh₁, body⟩ := Definition.allocate_spec valid h₁
      obtain ⟨new, rfl, rest⟩ := ih grows₁.valid h
      have again : index ∉ (bodies new).map Prod.fst := by
        intro mem
        exact rest.fresh index mem ((grows₁.defined index).2 (.inr (by simp)))
      refine ⟨.body index term :: new, by simp, grows₁.trans rest.grows, ?_, ?_, ?_, ?_⟩
      · intro i mem
        obtain rfl | mem := List.mem_cons.1 mem
        · exact fresh₁
        · exact fun before => rest.fresh i mem ((grows₁.defined i).2 (.inl before))
      · exact List.nodup_cons.2 ⟨again, rest.nodup⟩
      · exact rest.entries
      · exact .cons (body.grows rest.grows) rest.definitions
    | declare d =>
      simp only [allocateGlobals, bind_eq_ok] at h
      obtain ⟨u, t₁, h₁, h⟩ := h
      have grows₁ := Declaration.allocate_grows valid h₁
      obtain ⟨new, rfl, rest⟩ := ih grows₁.valid h
      refine ⟨new, rfl, grows₁.trans rest.grows, ?_, rest.nodup, rest.entries, rest.definitions⟩
      exact fun i mem before => rest.fresh i mem ((grows₁.defined i).2 (.inl before))
    | entry e =>
      simp only [allocateGlobals, bind_eq_ok] at h
      obtain ⟨item, t₁, h₁, h⟩ := h
      obtain ⟨term, rfl, grows₁, placed⟩ := Expr.allocateEntry_spec valid h₁
      obtain ⟨new, rfl, rest⟩ := ih grows₁.valid h
      refine ⟨.entry term :: new, by simp, grows₁.trans rest.grows, ?_, rest.nodup,
        .cons (placed.grows rest.grows) rest.entries, rest.definitions⟩
      exact fun i mem before => rest.fresh i mem ((grows₁.defined i).2 (.inl before))

/-- Allocating a program places all of it, and the functions that its table defines are those of
its bodies. -/
theorem Program.allocate_spec {p : Program} {items : List Item} {t : Tables}
    (h : p.allocate = .ok (items, t)) : AllocatedGlobals {} p.globals items t := by
  obtain ⟨new, rfl, allocated⟩ := allocateGlobals_spec Tables.valid_start h
  exact allocated

end RegLisp
