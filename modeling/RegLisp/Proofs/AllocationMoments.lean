import RegLisp.Proofs.TableHistory

/-!
# Moments of allocation

Allocation once more, but watched: it keeps the events that happen to the function table, and notes
the moment behind every node of an expression and behind every global, also when it fails later on.
Watching changes nothing: what comes out is what allocation gives. And from each moment that is
noted, the later ones are reached by the events between them.
-/

namespace RegLisp

/-- The tables at one moment, and all that has happened to the function table before. -/
structure Moment where
  tables : Tables := {}
  events : List Event := []

/-- A step of allocation that notes the moments it passes. -/
def Watched (α : Type) : Type := Moment → List Moment × Except CompileError (α × Moment)

namespace Watched

variable {α β : Type}

protected def pure (a : α) : Watched α := fun s => ([], .ok (a, s))

/-- One step after the other. What has been noted stays when a step fails. -/
protected def bind (x : Watched α) (f : α → Watched β) : Watched β := fun s =>
  match x s with
  | (passed, .error e) => (passed, .error e)
  | (passed, .ok (a, s)) => (passed ++ (f a s).1, (f a s).2)

instance : Monad Watched where
  pure := Watched.pure
  bind := Watched.bind

/-- A step of allocation, at which the given event happens if any does. -/
def during (event : α → Option Event) (x : Allocate α) : Watched α := fun s =>
  match x s.tables with
  | .error e => ([], .error e)
  | .ok (a, t) => ([], .ok (a, ⟨t, s.events ++ (event a).toList⟩))

/-- A step of allocation at which nothing happens to the function table. -/
def quietly (x : Allocate α) : Watched α := during (fun _ => none) x

/-- A step of allocation at which an event happens. -/
def observe (event : α → Event) (x : Allocate α) : Watched α := during (fun a => some (event a)) x

/-- Note the moment behind a step. -/
def thenNote (x : Watched α) : Watched α := do
  let a ← x
  fun s => ([s], .ok (a, s))

end Watched

open Allocate Watched

mutual

/-- Allocate an expression and note the moment behind each of its nodes. -/
def Expr.watch (scope : Scope) : Expr → Watched Term
  | .const _ value => thenNote do
    let reg ← quietly alloc
    let slot ← quietly (addConstant value.toWord)
    return .const reg slot value
  | .var _ type name =>
    match scope.lookup name with
    | none => quietly (fail (.undefinedVariable name))
    | some binding => thenNote do
      quietly (require (!type.isKnown || type == binding.type)
        (.conflictingType name binding.type type))
      return .var binding.reg binding.type name
  | .binary _ op lhs rhs => thenNote do
    let reg ← quietly alloc
    let lhs ← lhs.watch scope
    let rhs ← rhs.watch scope
    return .binary reg (lhs.type.promote rhs.type) op lhs rhs
  | .cond _ test onTrue onFalse => thenNote do
    let result ← quietly nextReg
    let joinSlot ← quietly (addConstant 0)
    let elseSlot ← quietly (addConstant 0)
    let test ← test.watch scope
    quietly (require (ValueType.int.compatible test.type)
      (.typeMismatch .condition .int test.type))
    quietly (setNext result)
    let onTrue ← onTrue.watch scope
    quietly (setNext result)
    let onFalse ← onFalse.watch scope
    let reg ← quietly (touch result)
    quietly (setNext (result + 1))
    return .cond reg (onTrue.type.promote onFalse.type) joinSlot elseSlot test onTrue onFalse
  | .call tail callee args => thenNote do
    let reg ← quietly alloc
    let args ← Expr.watchArgs scope (reg + 1) args
    quietly (setNext (reg + 1))
    let (index, type) ← observe (fun r => .call ⟨callee, r.1, args⟩)
      (resolveCall callee (args.map Term.type))
    return .call reg type tail callee index args

/-- Allocate arguments and note the moment behind each of their nodes. -/
def Expr.watchArgs (scope : Scope) (slot : Nat) : List Expr → Watched (List Term)
  | [] => return []
  | arg :: args => do
    quietly (setNext slot)
    let arg ← arg.watch scope
    let _ ← quietly (touch slot)
    let args ← Expr.watchArgs scope (slot + 1) args
    return arg :: args

end

/-- Allocate a definition and note the moments. -/
def Definition.watch (d : Definition) : Watched Item := thenNote do
  quietly (require (d.params.length ≤ maxParams) (.tooManyParameters d.name))
  let index ← observe (fun _ => .enter (.define d)) d.register
  let scope ← quietly (bindParams (Scope.mk []).push 1 d.params : Except CompileError Scope)
  quietly (MonadState.modifyGet fun t => ((), t.beginFrame d.name (d.params.length + 1)))
  let body ← d.body.watch scope
  let entry ← quietly (entryAt index)
  quietly (require (entry.returns.compatible body.type)
    (.typeMismatch (.returnValue d.name) entry.returns body.type))
  observe (fun _ => .finish index body.type) (MonadState.modifyGet fun t => ((), t.modify index
    fun f =>
      { f with
        reservation := t.reservation
        types := (if f.returns.isKnown then f.returns else body.type) :: f.params }))
  return .body index body

/-- Allocate a declaration and note the moment. -/
def Declaration.watch (d : Declaration) : Watched Unit :=
  thenNote (observe (fun _ => .enter (.declare d)) d.allocate)

/-- Allocate an entry expression and note the moments. -/
def Expr.watchEntry (e : Expr) : Watched Item := thenNote do
  observe (fun _ => .enter (.entry e))
    (MonadState.modifyGet fun t => ((), t.beginFrame entryFrame 0))
  let value ← e.watch {}
  let _ ← quietly (touch 0)
  quietly (MonadState.modifyGet fun t =>
    ((), { t with entryReservation := max t.entryReservation t.reservation }))
  return .entry value

/-- Allocate globals in order and note the moments. -/
def watchGlobals (done : List Item) : List Global → Watched (List Item)
  | [] => return done.reverse
  | .define d :: globals => do
    let item ← d.watch
    watchGlobals (item :: done) globals
  | .declare d :: globals => do
    d.watch
    watchGlobals done globals
  | .entry e :: globals => do
    let item ← e.watchEntry
    watchGlobals (item :: done) globals

/-- Allocate a program from empty tables, and note the moments. -/
def Program.watch (p : Program) : List Moment × Except CompileError (List Item × Moment) :=
  watchGlobals [] p.globals {}

/-! ## Watching changes nothing -/

/-- What the watched step gives, apart from the notes, is what the step gives. -/
def Watched.Erases {α : Type} (x : Watched α) (y : Allocate α) : Prop :=
  ∀ s, (x s).2.map (fun r => (r.1, r.2.tables)) = y s.tables

namespace Watched.Erases

variable {α β : Type}

theorem pure (a : α) : Erases (Pure.pure a) (Pure.pure a) := fun _ => rfl

theorem bind {x : Watched α} {y : Allocate α} {f : α → Watched β} {g : α → Allocate β}
    (h : x.Erases y) (h' : ∀ a, (f a).Erases (g a)) : (x >>= f).Erases (y >>= g) := by
  intro s
  have first := h s
  change (Watched.bind x f s).2.map _ = Except.bind (y s.tables) fun r => g r.1 r.2
  unfold Watched.bind
  generalize x s = run at first ⊢
  obtain ⟨passed, _ | ⟨a, s'⟩⟩ := run
  · rw [← first]
    rfl
  · rw [← first]
    exact h' a s'

theorem during (event : α → Option Event) (x : Allocate α) :
    Erases (Watched.during event x) x := by
  intro s
  unfold Watched.during
  cases h : x s.tables with
  | error e => rfl
  | ok r => rfl

theorem thenNote {x : Watched α} {y : Allocate α} (h : x.Erases y) :
    (Watched.thenNote x).Erases y := by
  have noted := h.bind (f := fun a s => ([s], .ok (a, s))) (g := fun a => Pure.pure a)
    fun a s => rfl
  rwa [bind_pure] at noted

end Watched.Erases

mutual

theorem Expr.watch_erases (scope : Scope) :
    ∀ e : Expr, (e.watch scope).Erases (e.allocate scope)
  | .const _ value => by
    simp only [Expr.watch, Expr.allocate]
    exact .thenNote (.bind (.during _ _) fun _ => .bind (.during _ _) fun _ => .pure _)
  | .var _ _ name => by
    simp only [Expr.watch, Expr.allocate]
    cases scope.lookup name with
    | none => exact .during _ _
    | some binding => exact .thenNote (.bind (.during _ _) fun _ => .pure _)
  | .binary _ op lhs rhs => by
    simp only [Expr.watch, Expr.allocate]
    refine .thenNote (.bind (.during _ _) fun reg => ?_)
    exact (lhs.watch_erases scope).bind fun _ => (rhs.watch_erases scope).bind fun _ => .pure _
  | .cond _ test onTrue onFalse => by
    simp only [Expr.watch, Expr.allocate]
    refine .thenNote (.bind (.during _ _) fun result => .bind (.during _ _) fun joinSlot =>
      .bind (.during _ _) fun elseSlot => ?_)
    refine (test.watch_erases scope).bind fun _ => .bind (.during _ _) fun _ =>
      .bind (.during _ _) fun _ => ?_
    refine (onTrue.watch_erases scope).bind fun _ => .bind (.during _ _) fun _ => ?_
    exact (onFalse.watch_erases scope).bind fun _ => .bind (.during _ _) fun _ =>
      .bind (.during _ _) fun _ => .pure _
  | .call _ callee args => by
    simp only [Expr.watch, Expr.allocate]
    refine .thenNote (.bind (.during _ _) fun reg => ?_)
    refine (Expr.watchArgs_erases scope args (reg + 1)).bind fun args' => ?_
    exact .bind (.during _ _) fun _ => .bind (.during _ _) fun _ => .pure _

theorem Expr.watchArgs_erases (scope : Scope) : ∀ (args : List Expr) (slot : Nat),
    (Expr.watchArgs scope slot args).Erases (Expr.allocateArgs scope slot args)
  | [], _ => .pure _
  | arg :: args, slot => by
    simp only [Expr.watchArgs, Expr.allocateArgs]
    refine .bind (.during _ _) fun _ => (arg.watch_erases scope).bind fun _ => ?_
    exact .bind (.during _ _) fun _ =>
      (Expr.watchArgs_erases scope args (slot + 1)).bind fun _ => .pure _

end

theorem Definition.watch_erases (d : Definition) : d.watch.Erases d.allocate := by
  unfold Definition.watch Definition.allocate
  refine .thenNote (.bind (.during _ _) fun _ => .bind (.during _ _) fun index =>
    .bind (.during _ _) fun scope => .bind (.during _ _) fun _ => ?_)
  refine (d.body.watch_erases scope).bind fun body => .bind (.during _ _) fun entry => ?_
  exact .bind (.during _ _) fun _ => .bind (.during _ _) fun _ => .pure _

theorem Expr.watchEntry_erases (e : Expr) : e.watchEntry.Erases e.allocateEntry := by
  unfold Expr.watchEntry Expr.allocateEntry
  refine .thenNote (.bind (.during _ _) fun _ => (e.watch_erases {}).bind fun value => ?_)
  exact .bind (.during _ _) fun _ => .bind (.during _ _) fun _ => .pure _

theorem watchGlobals_erases (globals : List Global) (done : List Item) :
    (watchGlobals done globals).Erases (allocateGlobals done globals) := by
  induction globals generalizing done with
  | nil => exact .pure _
  | cons global globals ih =>
    cases global with
    | define d => exact d.watch_erases.bind fun item => ih (item :: done)
    | declare d => exact (Watched.Erases.thenNote (.during _ _)).bind fun _ => ih done
    | entry e => exact e.watchEntry_erases.bind fun item => ih (item :: done)

/-- Watching a program gives what allocating it gives. -/
theorem Program.watch_eq (p : Program) :
    p.watch.2.map (fun r => (r.1, r.2.tables)) = p.allocate :=
  watchGlobals_erases p.globals [] {}

/-! ## What happens -/

/-- From the first moment the second one is reached by events, and names that are in step with the
function table stay so. -/
structure Moment.Leads (s s' : Moment) : Prop where
  happens : ∃ es, s'.events = s.events ++ es ∧ Happens s.tables.functions es s'.tables.functions
  inStep : s.tables.InStep → s'.tables.InStep

theorem Moment.Leads.refl (s : Moment) : s.Leads s :=
  ⟨⟨[], (List.append_nil _).symm, .nil⟩, id⟩

theorem Moment.Leads.trans {s s₁ s₂ : Moment} (h : s.Leads s₁) (h' : s₁.Leads s₂) :
    s.Leads s₂ := by
  obtain ⟨⟨es, events_eq, happens⟩, inStep⟩ := h
  obtain ⟨⟨es', events_eq', happens'⟩, inStep'⟩ := h'
  refine ⟨⟨es ++ es', ?_, happens.trans happens'⟩, inStep' ∘ inStep⟩
  rw [events_eq', events_eq, List.append_assoc]

/-- A run of a watched step from a moment: each moment that is noted leads to the later ones, and
if the run gives a value, that, the events and the number of notes satisfy the condition. -/
structure Watched.Told {α : Type} (s : Moment)
    (run : List Moment × Except CompileError (α × Moment)) (P : α → List Event → Nat → Prop) :
    Prop where
  passed : (s :: run.1).Pairwise Moment.Leads
  arrives : ∀ a s', run.2 = .ok (a, s') → (∀ u ∈ s :: run.1, u.Leads s') ∧
    ∃ es, s'.events = s.events ++ es ∧ P a es run.1.length

/-- All runs of a watched step from tables in step are as told. -/
def Watched.Tells {α : Type} (x : Watched α) (P : α → List Event → Nat → Prop) : Prop :=
  ∀ s, s.tables.InStep → Told s (x s) P

/-- A watched step at which nothing happens and nothing is noted. -/
def Watched.Quiet {α : Type} (x : Watched α) : Prop := x.Tells fun _ es notes => es = [] ∧ notes = 0

namespace Watched.Tells

variable {α β : Type}

theorem pure {a : α} {P : α → List Event → Nat → Prop} (h : P a [] 0) :
    Tells (Pure.pure a) P := by
  intro s _
  refine ⟨List.pairwise_singleton _ _, ?_⟩
  rintro a s' ⟨⟩
  refine ⟨?_, [], (List.append_nil _).symm, h⟩
  intro u mem
  rw [List.mem_singleton.1 mem]
  exact .refl s

theorem bind {x : Watched α} {f : α → Watched β} {P : α → List Event → Nat → Prop}
    {Q : β → List Event → Nat → Prop} (h : x.Tells P)
    (h' : ∀ a es n, P a es n → (f a).Tells fun b es' n' => Q b (es ++ es') (n + n')) :
    (x >>= f).Tells Q := by
  intro s inStep
  obtain ⟨passed, arrives⟩ := h s inStep
  change Told s (Watched.bind x f s) Q
  unfold Watched.bind
  generalize x s = run at passed arrives ⊢
  obtain ⟨noted, _ | ⟨a, s₁⟩⟩ := run
  · exact ⟨passed, nofun⟩
  obtain ⟨leads, es, events_eq, holds⟩ := arrives a s₁ rfl
  have inStep₁ := (leads s List.mem_cons_self).inStep inStep
  obtain ⟨passed', arrives'⟩ := h' a es noted.length holds s₁ inStep₁
  rw [List.pairwise_cons] at passed'
  constructor
  · rw [← List.cons_append, List.pairwise_append]
    exact ⟨passed, passed'.2, fun u hu v hv => (leads u hu).trans (passed'.1 v hv)⟩
  · intro b s₂ result
    obtain ⟨leads', es', events_eq', holds'⟩ := arrives' b s₂ result
    refine ⟨?_, es ++ es', ?_, ?_⟩
    · intro u mem
      rw [← List.cons_append, List.mem_append] at mem
      rcases mem with mem | mem
      · exact (leads u mem).trans (leads' s₁ List.mem_cons_self)
      · exact leads' u (List.mem_cons_of_mem _ mem)
    · rw [events_eq', events_eq, List.append_assoc]
    · rwa [List.length_append]

theorem imp {x : Watched α} {P Q : α → List Event → Nat → Prop} (h : x.Tells P)
    (weaker : ∀ a es n, P a es n → Q a es n) : x.Tells Q := by
  intro s inStep
  obtain ⟨passed, arrives⟩ := h s inStep
  refine ⟨passed, ?_⟩
  intro a s' result
  obtain ⟨leads, es, events_eq, holds⟩ := arrives a s' result
  exact ⟨leads, es, events_eq, weaker a es _ holds⟩

theorem thenNote {x : Watched α} {P : α → List Event → Nat → Prop}
    (h : x.Tells fun a es n => P a es (n + 1)) : (Watched.thenNote x).Tells P := by
  refine h.bind fun a es n holds s _ => ⟨by simp [Moment.Leads.refl], ?_⟩
  rintro a s' ⟨⟩
  exact ⟨by simp [Moment.Leads.refl], [], by simp, by simpa using holds⟩

theorem during {event : α → Option Event} {x : Allocate α}
    (h : ∀ t a t', t.InStep → x t = .ok (a, t') →
      Happens t.functions (event a).toList t'.functions ∧ t'.InStep) :
    (Watched.during event x).Tells fun a es n => es = (event a).toList ∧ n = 0 := by
  intro s inStep
  unfold Watched.during
  cases result : x s.tables with
  | error e => exact ⟨List.pairwise_singleton _ _, nofun⟩
  | ok r =>
    refine ⟨List.pairwise_singleton _ _, ?_⟩
    rintro a s' ⟨⟩
    refine ⟨?_, _, rfl, rfl, rfl⟩
    obtain ⟨happens, inStep'⟩ := h _ _ _ inStep result
    simp only [List.mem_singleton, forall_eq]
    exact ⟨⟨_, rfl, happens⟩, fun _ => inStep'⟩

theorem observe {event : α → Event} {x : Allocate α}
    (h : ∀ t a t', t.InStep → x t = .ok (a, t') →
      Edited t.functions (event a) t'.functions ∧ t'.InStep) :
    (Watched.observe event x).Tells fun a es n => es = [event a] ∧ n = 0 :=
  during fun t a t' inStep result => (h t a t' inStep result).imp_left Edited.happens

theorem fail {P : α → List Event → Nat → Prop} (e : CompileError) :
    (Watched.quietly (Allocate.fail e)).Tells P :=
  fun _ _ => ⟨List.pairwise_singleton _ _, nofun⟩

/-- What comes behind a quiet step tells all. -/
theorem behind {x : Watched α} {f : α → Watched β} {P : β → List Event → Nat → Prop}
    (h : x.Quiet) (h' : ∀ a, (f a).Tells P) : (x >>= f).Tells P := by
  refine Tells.bind h ?_
  rintro a _ _ ⟨rfl, rfl⟩
  refine (h' a).imp fun b es n holds => ?_
  rwa [List.nil_append, Nat.zero_add]

end Watched.Tells

namespace Watched.Quiet

variable {α : Type}

/-- Nothing happens where the function table and its names stay as they are. -/
theorem of_functions {x : Allocate α}
    (h : ∀ t a t', x t = .ok (a, t') → t'.functions = t.functions ∧ t'.indices = t.indices) :
    (quietly x).Quiet := by
  refine Tells.during fun t a t' inStep result => ?_
  obtain ⟨functions_eq, indices_eq⟩ := h t a t' result
  refine ⟨?_, inStep.of_eq functions_eq indices_eq⟩
  rw [functions_eq]
  exact .nil

theorem of_moves {x : Allocate α} (h : ∀ t a t', x t = .ok (a, t') → ∃ next, t.Moves t' next) :
    (quietly x).Quiet := by
  refine of_functions fun t a t' result => ?_
  obtain ⟨next, moves⟩ := h t a t' result
  exact ⟨moves.functions_eq, moves.indices_eq⟩

theorem alloc : (quietly Allocate.alloc).Quiet :=
  of_moves fun _ _ _ h => ⟨_, (alloc_moves h).2.2⟩

theorem touch (reg : Nat) : (quietly (Allocate.touch reg)).Quiet :=
  of_moves fun _ _ _ h => ⟨_, (touch_moves h).2.2⟩

theorem nextReg : (quietly Allocate.nextReg).Quiet :=
  of_functions fun _ _ _ h => by simp [(nextReg_eq_ok h).2]

theorem setNext (reg : Nat) : (quietly (Allocate.setNext reg)).Quiet :=
  of_moves fun _ _ _ h => ⟨_, setNext_moves h⟩

theorem addConstant (word : UInt64) : (quietly (Allocate.addConstant word)).Quiet := by
  refine of_functions fun t slot t' h => ?_
  unfold Allocate.addConstant ofTables Tables.addConstant at h
  by_cases room : t.constants.size < maxConstants
  · simp only [room, ↓reduceIte] at h
    cases h
    exact ⟨rfl, rfl⟩
  · simp [room] at h

theorem require (condition : Bool) (e : CompileError) :
    (quietly (Allocate.require condition e)).Quiet :=
  of_functions fun _ _ _ h => by simp [(require_eq_ok.1 h).2]

end Watched.Quiet

/-! ## Steps -/

section

variable {t t' : Tables}

theorem modify_eq_set {fs : Array FunctionEntry} {index : Nat} {f : FunctionEntry}
    (entry_eq : fs[index]? = some f) (change : FunctionEntry → FunctionEntry) :
    fs.modify index change = fs.setIfInBounds index (change f) := by
  apply Array.ext_getElem?
  intro i
  have inside := (Array.getElem?_eq_some_iff.1 entry_eq).1
  rw [Array.getElem?_modify, Array.getElem?_setIfInBounds]
  by_cases same : index = i
  · subst same
    rw [if_pos rfl, if_pos rfl, if_pos inside, entry_eq, Option.map_some]
  · rw [if_neg same, if_neg same]

theorem set_eq_self {fs : Array FunctionEntry} {index : Nat} {f : FunctionEntry}
    (entry_eq : fs[index]? = some f) : fs.setIfInBounds index f = fs := by
  apply Array.ext_getElem?
  intro i
  rw [Array.getElem?_setIfInBounds]
  by_cases same : index = i
  · subst same
    rw [if_pos rfl, if_pos (Array.getElem?_eq_some_iff.1 entry_eq).1, entry_eq]
  · rw [if_neg same]

/-- A signature passes the check if it agrees with that of the entry. -/
theorem checkSignature_eq_ok {name : String} {entry : FunctionEntry} {returns : ValueType}
    {params : List ValueType} {u : Unit}
    (h : checkSignature name entry returns params t = .ok (u, t')) :
    SignaturesAgree (entry.returns :: entry.params) (returns :: params) ∧ t = t' := by
  simp only [checkSignature, checkParams, bind_eq_ok] at h
  obtain ⟨u₁, t₁, h₁, h₂⟩ := h
  obtain ⟨agree, rfl⟩ := require_eq_ok.1 h₁
  obtain ⟨compatible, rfl⟩ := require_eq_ok.1 h₂
  refine ⟨?_, rfl⟩
  rw [← typesAgree_iff]
  simp only [typesAgree, List.length_cons, List.zip_cons_cons, List.all_cons, compatible] at agree ⊢
  simpa using agree

/-- A step that changes the function table as an event does, keeps the names in step, and changes
nothing else. -/
structure Tables.Records (t : Tables) (e : Event) (t' : Tables) : Prop where
  edited : Edited t.functions e t'.functions
  inStep : t'.InStep
  rest_eq : t' = { t with functions := t'.functions, indices := t'.indices }

theorem Tables.Records.told {e : Event} (h : t.Records e t') :
    Edited t.functions e t'.functions ∧ t'.InStep := ⟨h.edited, h.inStep⟩

/-- An entry is added for a name that is not found. -/
theorem insert_records {f : FunctionEntry} {index : Nat} {e : Event} (inStep : t.InStep)
    (absent : t.lookup f.name = none) (adds : e.Adds t.functions.size f)
    (h : insert f t = .ok (index, t')) : t.Records e t' := by
  obtain ⟨-, -, rfl, rfl⟩ := insert_eq_ok h
  exact ⟨.add (inStep.ne_name absent) adds, inStep.push absent, rfl⟩

/-- An entry is changed, and keeps its name. -/
theorem modify_records {f : FunctionEntry} {index : Nat} {e : Event}
    {change : FunctionEntry → FunctionEntry} (inStep : t.InStep)
    (entry_eq : t.functions[index]? = some f) (named : (change f).name = f.name)
    (changes : e.Changes index f (change f)) : t.Records e (t.modify index change) := by
  refine ⟨?_, inStep.modify ?_, rfl⟩
  · rw [Tables.modify, modify_eq_set entry_eq]
    exact .change entry_eq changes
  · intro g hg
    obtain rfl := Option.some.inj (entry_eq.symm.trans hg)
    exact named

/-- Resolving a call changes the function table and its names at most, whatever they are. -/
theorem resolveCall_rest_eq {name : String} {args : List ValueType} {r : Nat × ValueType}
    (h : resolveCall name args t = .ok (r, t')) :
    t' = { t with functions := t'.functions, indices := t'.indices } := by
  simp only [resolveCall, bind_eq_ok] at h
  obtain ⟨found, t₁, h₁, h⟩ := h
  obtain ⟨rfl, rfl⟩ := lookup_eq_ok h₁
  cases found : t.lookup name with
  | none =>
    simp only [found, bind_eq_ok, pure_eq_ok] at h
    obtain ⟨index, t₂, h₂, heq⟩ := h
    cases heq
    obtain ⟨-, -, -, rfl⟩ := insert_eq_ok h₂
    rfl
  | some index =>
    simp only [found, bind_eq_ok, checkParams] at h
    obtain ⟨entry, t₂, h₂, u, t₃, h₃, h⟩ := h
    cases h₂
    obtain ⟨-, rfl⟩ := require_eq_ok.1 h₃
    split at h
    · simp only [bind_eq_ok, pure_eq_ok] at h
      obtain ⟨u, t₄, h₄, heq⟩ := h
      cases heq
      obtain rfl := modify_eq_ok h₄
      rfl
    · cases h
      rfl

theorem resolveCall_records {name : String} {args : List Term} {r : Nat × ValueType}
    (inStep : t.InStep) (h : resolveCall name (args.map Term.type) t = .ok (r, t')) :
    t.Records (.call ⟨name, r.1, args⟩) t' := by
  simp only [resolveCall, bind_eq_ok] at h
  obtain ⟨found, t₁, h₁, h⟩ := h
  obtain ⟨rfl, rfl⟩ := lookup_eq_ok h₁
  cases found : t.lookup name with
  | none =>
    simp only [found, bind_eq_ok, pure_eq_ok] at h
    obtain ⟨index, t₂, h₂, heq⟩ := h
    cases heq
    obtain ⟨-, -, rfl, -⟩ := insert_eq_ok h₂
    exact insert_records inStep found ⟨rfl, rfl⟩ h₂
  | some index =>
    obtain ⟨f, hf, name_eq⟩ := inStep.exists_entry found
    simp only [found, bind_eq_ok, checkParams] at h
    obtain ⟨entry, t₂, h₂, u, t₃, h₃, h⟩ := h
    obtain ⟨rfl, rfl⟩ := entryAt_eq_ok hf h₂
    obtain ⟨agree, rfl⟩ := require_eq_ok.1 h₃
    rw [typesAgree_iff] at agree
    by_cases external : f.isExternal = true
    · simp only [external, ↓reduceIte, bind_eq_ok, pure_eq_ok] at h
      obtain ⟨u, t₄, h₄, heq⟩ := h
      cases heq
      obtain rfl := modify_eq_ok h₄
      exact modify_records inStep hf rfl ⟨rfl, name_eq, agree, (if_pos external).symm⟩
    · simp only [external, Bool.false_eq_true, ↓reduceIte, pure_eq_ok] at h
      cases h
      refine ⟨?_, inStep, rfl⟩
      have kept := Edited.change (e := .call ⟨name, index, args⟩) hf
        ⟨rfl, name_eq, agree, (if_neg external).symm⟩
      rwa [set_eq_self hf] at kept

theorem Definition.register_records {d : Definition} {index : Nat} (inStep : t.InStep)
    (h : d.register t = .ok (index, t')) :
    t.Records (.enter (.define d)) t' := by
  simp only [Definition.register, bind_eq_ok] at h
  obtain ⟨found, t₁, h₁, h⟩ := h
  obtain ⟨rfl, rfl⟩ := lookup_eq_ok h₁
  cases found : t.lookup d.name with
  | none =>
    simp only [found] at h
    exact insert_records inStep found rfl h
  | some index' =>
    obtain ⟨f, hf, name_eq⟩ := inStep.exists_entry found
    simp only [found, bind_eq_ok, pure_eq_ok] at h
    obtain ⟨entry, t₂, h₂, u₁, t₃, h₃, u₂, t₄, h₄, u₅, t₅, h₅, heq⟩ := h
    cases heq
    obtain ⟨rfl, rfl⟩ := entryAt_eq_ok hf h₂
    obtain ⟨external, rfl⟩ := require_eq_ok.1 h₃
    obtain ⟨agree, rfl⟩ := checkSignature_eq_ok h₄
    obtain rfl := modify_eq_ok h₅
    exact modify_records inStep hf rfl ⟨name_eq, external, agree, rfl⟩

theorem Declaration.allocate_records {d : Declaration} {u : Unit} (inStep : t.InStep)
    (h : d.allocate t = .ok (u, t')) :
    t.Records (.enter (.declare d)) t' := by
  simp only [Declaration.allocate, bind_eq_ok] at h
  obtain ⟨u₁, t₁, h₁, found, t₂, h₂, h⟩ := h
  obtain ⟨-, rfl⟩ := require_eq_ok.1 h₁
  obtain ⟨rfl, rfl⟩ := lookup_eq_ok h₂
  cases found : t.lookup d.name with
  | none =>
    simp only [found, bind_eq_ok, pure_eq_ok] at h
    obtain ⟨index, t₃, h₃, heq⟩ := h
    cases heq
    exact insert_records inStep found rfl h₃
  | some index =>
    obtain ⟨f, hf, name_eq⟩ := inStep.exists_entry found
    simp only [found, bind_eq_ok] at h
    obtain ⟨entry, t₃, h₃, u₄, t₄, h₄, h₅⟩ := h
    obtain ⟨rfl, rfl⟩ := entryAt_eq_ok hf h₃
    obtain ⟨agree, rfl⟩ := checkSignature_eq_ok h₄
    obtain rfl := modify_eq_ok h₅
    exact modify_records inStep hf rfl ⟨name_eq, agree, rfl⟩

/-- Completing a body changes the entry of the definition, if there is one. -/
theorem finish_records (inStep : t.InStep) (index reservation : Nat) (type : ValueType) :
    t.Records (.finish index type) (t.modify index (·.finish reservation type)) := by
  cases hf : t.functions[index]? with
  | none =>
    have same : t.functions.modify index (·.finish reservation type) = t.functions := by
      apply Array.ext_getElem?
      intro i
      rw [Array.getElem?_modify]
      by_cases here : index = i
      · subst here
        simp [hf]
      · rw [if_neg here]
    refine ⟨?_, inStep.of_eq same rfl, rfl⟩
    rw [Tables.modify, same]
    exact .spare hf
  | some f => exact modify_records inStep hf rfl ⟨rfl, reservation, rfl⟩

end

/-! ## Expressions -/

mutual

/-- How many nodes an expression has. -/
def Expr.nodes : Expr → Nat
  | .const _ _ => 1
  | .var _ _ _ => 1
  | .binary _ _ lhs rhs => lhs.nodes + rhs.nodes + 1
  | .cond _ test onTrue onFalse => test.nodes + onTrue.nodes + onFalse.nodes + 1
  | .call _ _ args => Expr.argsNodes args + 1

def Expr.argsNodes : List Expr → Nat
  | [] => 0
  | arg :: args => arg.nodes + Expr.argsNodes args

end

mutual

/-- The functions that an expression calls, arguments before the call. -/
def Expr.callees : Expr → List String
  | .const _ _ => []
  | .var _ _ _ => []
  | .binary _ _ lhs rhs => lhs.callees ++ rhs.callees
  | .cond _ test onTrue onFalse => test.callees ++ (onTrue.callees ++ onFalse.callees)
  | .call _ callee args => Expr.argsCallees args ++ [callee]

def Expr.argsCallees : List Expr → List String
  | [] => []
  | arg :: args => arg.callees ++ Expr.argsCallees args

end

/-- The events of some calls. -/
def callEvents (sites : List CallSite) : List Event := sites.map .call

theorem callEvents_append (sites sites' : List CallSite) :
    callEvents (sites ++ sites') = callEvents sites ++ callEvents sites' := List.map_append

/-- What is told of the calls of an expression: they are resolved in order, they have the callees
of the expression, and so many moments are noted. -/
structure CallsNarrated (sites : List CallSite) (callees : List String) (nodes : Nat)
    (es : List Event) (notes : Nat) : Prop where
  events : es = callEvents sites
  callees : sites.map CallSite.callee = callees
  noted : notes = nodes

mutual

/-- While an expression is allocated, its calls are resolved, and each node is noted. -/
theorem Expr.watch_tells (scope : Scope) : ∀ e : Expr,
    (e.watch scope).Tells fun term => CallsNarrated term.callSites e.callees e.nodes
  | .const _ value => by
    unfold Expr.watch
    refine .thenNote (.behind .alloc fun reg => .behind (.addConstant _) fun slot => ?_)
    exact .pure ⟨rfl, rfl, rfl⟩
  | .var _ type name => by
    unfold Expr.watch
    cases scope.lookup name with
    | none => exact .fail _
    | some binding => exact .thenNote (.behind (.require _ _) fun _ => .pure ⟨rfl, rfl, rfl⟩)
  | .binary _ op lhs rhs => by
    unfold Expr.watch
    refine .thenNote (.behind .alloc fun reg => ?_)
    refine (lhs.watch_tells scope).bind ?_
    rintro lhs' _ _ ⟨rfl, callees₁, rfl⟩
    refine (rhs.watch_tells scope).bind ?_
    rintro rhs' _ _ ⟨rfl, callees₂, rfl⟩
    refine .pure ⟨?_, ?_, rfl⟩
    · rw [Term.callSites, callEvents_append, List.append_nil]
    · rw [Term.callSites, Expr.callees, List.map_append, callees₁, callees₂]
  | .cond _ test onTrue onFalse => by
    unfold Expr.watch
    refine .thenNote (.behind .nextReg fun result => .behind (.addConstant _) fun joinSlot =>
      .behind (.addConstant _) fun elseSlot => ?_)
    refine (test.watch_tells scope).bind ?_
    rintro test' _ _ ⟨rfl, callees₁, rfl⟩
    refine .behind (.require _ _) fun _ => .behind (.setNext _) fun _ => ?_
    refine (onTrue.watch_tells scope).bind ?_
    rintro onTrue' _ _ ⟨rfl, callees₂, rfl⟩
    refine .behind (.setNext _) fun _ => ?_
    refine (onFalse.watch_tells scope).bind ?_
    rintro onFalse' _ _ ⟨rfl, callees₃, rfl⟩
    refine .behind (.touch _) fun reg => .behind (.setNext _) fun _ => .pure ⟨?_, ?_, ?_⟩
    · rw [Term.callSites, callEvents_append, callEvents_append, List.append_nil]
    · rw [Term.callSites, Expr.callees, List.map_append, List.map_append, callees₁, callees₂,
        callees₃]
    · simp only [Expr.nodes]
      omega
  | .call _ callee args => by
    unfold Expr.watch
    refine .thenNote (.behind .alloc fun reg => ?_)
    refine (Expr.watchArgs_tells scope args (reg + 1)).bind ?_
    rintro args' _ _ ⟨rfl, callees, rfl⟩
    refine .behind (.setNext _) fun _ => ?_
    refine (Watched.Tells.observe fun _ _ _ inStep h => (resolveCall_records inStep h).told).bind ?_
    rintro ⟨index, type⟩ _ _ ⟨rfl, rfl⟩
    refine .pure ⟨?_, ?_, rfl⟩
    · rw [Term.callSites, callEvents_append]
      rfl
    · rw [Term.callSites, Expr.callees, List.map_append, callees]
      rfl

theorem Expr.watchArgs_tells (scope : Scope) : ∀ (args : List Expr) (slot : Nat),
    (Expr.watchArgs scope slot args).Tells fun terms =>
      CallsNarrated (Term.argsCallSites terms) (Expr.argsCallees args) (Expr.argsNodes args)
  | [], _ => .pure ⟨rfl, rfl, rfl⟩
  | arg :: args, slot => by
    unfold Expr.watchArgs
    refine .behind (.setNext _) fun _ => ?_
    refine (arg.watch_tells scope).bind ?_
    rintro arg' _ _ ⟨rfl, callees₁, rfl⟩
    refine .behind (.touch _) fun _ => ?_
    refine (Expr.watchArgs_tells scope args (slot + 1)).bind ?_
    rintro args' _ _ ⟨rfl, callees₂, rfl⟩
    refine .pure ⟨?_, ?_, rfl⟩
    · rw [Term.argsCallSites, callEvents_append, List.append_nil]
    · rw [Term.argsCallSites, Expr.argsCallees, List.map_append, callees₁, callees₂]

end

/-! ## Globals -/

/-- How many moments of a global are noted: one behind each node, and one behind all. -/
def Global.moments : Global → Nat
  | .define d => d.body.nodes + 1
  | .declare _ => 1
  | .entry e => e.nodes + 1

/-- The functions that a global names. -/
def Global.names : Global → List String
  | .define d => d.name :: d.body.callees
  | .declare d => [d.name]
  | .entry e => e.callees

theorem globals_callEvents (sites : List CallSite) :
    (callEvents sites).filterMap Event.global? = [] := by
  simp [callEvents, Event.global?]

theorem sites_callEvents (sites : List CallSite) :
    (callEvents sites).filterMap Event.site? = sites := by
  simp [callEvents, List.filterMap_map, Function.comp_def, Event.site?]

theorem names_callEvents (sites : List CallSite) :
    (callEvents sites).filterMap Event.name? = sites.map CallSite.callee := by
  simp [callEvents, List.filterMap_map, Function.comp_def, Event.name?]

/-- Whether a global has code, and with it an item. -/
def Global.hasCode : Global → Bool
  | .define _ => true
  | .declare _ => false
  | .entry _ => true

/-- What is told of globals: they are entered in order, they name functions in order, the calls of
their items are resolved in order, and all moments are noted. -/
structure Narrated (globals : List Global) (items : List Item) (es : List Event) (notes : Nat) :
    Prop where
  entered : es.filterMap Event.global? = globals
  named : es.filterMap Event.name? = globals.flatMap Global.names
  resolved : es.filterMap Event.site? = items.flatMap (·.term.callSites)
  noted : notes = (globals.map Global.moments).sum
  itemized : items.length = globals.countP Global.hasCode
  /-- When a global is entered, the calls so far are those of the globals before it. -/
  ordered : ∀ es₁ global es₂, es = es₁ ++ .enter global :: es₂ → es₁.filterMap Event.site? =
    (items.take ((es₁.filterMap Event.global?).countP Global.hasCode)).flatMap (·.term.callSites)

theorem Narrated.nil : Narrated [] [] [] 0 where
  entered := rfl
  named := rfl
  resolved := rfl
  noted := rfl
  itemized := rfl
  ordered := by simp

/-- One global is told by entering it, and by events that enter no other one. -/
theorem Narrated.single {global : Global} {items : List Item} {es : List Event} {notes : Nat}
    (inner : es.filterMap Event.global? = [])
    (named : (Event.enter global :: es).filterMap Event.name? = global.names)
    (resolved : es.filterMap Event.site? = items.flatMap (·.term.callSites))
    (noted : notes = global.moments) (itemized : items.length = [global].countP Global.hasCode) :
    Narrated [global] items (.enter global :: es) notes where
  entered := by simp [Event.global?, inner]
  named := by simpa using named
  resolved := by rwa [List.filterMap_cons_none rfl]
  noted := by simpa using noted
  itemized := itemized
  ordered := by
    intro es₁ other es₂ split
    cases es₁ with
    | nil => rfl
    | cons e es₁ =>
      have mem : .enter other ∈ es := by simp [(List.cons.inj split).2]
      have entered : other ∈ es.filterMap Event.global? := List.mem_filterMap.2 ⟨_, mem, rfl⟩
      rw [inner] at entered
      cases entered

theorem Narrated.append {globals globals' : List Global} {items items' : List Item}
    {es es' : List Event} {n n' : Nat} (h : Narrated globals items es n)
    (h' : Narrated globals' items' es' n') :
    Narrated (globals ++ globals') (items ++ items') (es ++ es') (n + n') where
  entered := by rw [List.filterMap_append, h.entered, h'.entered]
  named := by rw [List.filterMap_append, List.flatMap_append, h.named, h'.named]
  resolved := by rw [List.filterMap_append, List.flatMap_append, h.resolved, h'.resolved]
  noted := by rw [List.map_append, List.sum_append, h.noted, h'.noted]
  itemized := by rw [List.length_append, List.countP_append, h.itemized, h'.itemized]
  ordered := by
    have behind (es₁ : List Event) (global : Global) (es₂ : List Event)
        (split : es' = es₁ ++ .enter global :: es₂) :
        (es ++ es₁).filterMap Event.site? = ((items ++ items').take
          (((es ++ es₁).filterMap Event.global?).countP Global.hasCode)).flatMap
            (·.term.callSites) := by
      rw [List.filterMap_append, List.filterMap_append, List.countP_append, h.entered,
        ← h.itemized, List.take_length_add_append, List.flatMap_append, h.resolved,
        h'.ordered es₁ global es₂ split]
    intro es₁ global es₂ split
    rcases List.append_eq_append_iff.1 split with ⟨mid, rfl, tail⟩ | ⟨mid, front, tail⟩
    · exact behind mid global es₂ tail
    · cases mid with
      | nil =>
        rw [List.append_nil] at front
        subst front
        simpa using behind [] global es₂ tail.symm
      | cons e mid =>
        obtain ⟨rfl, -⟩ := List.cons.inj tail
        have inside : (es₁.filterMap Event.global?).countP Global.hasCode ≤ items.length := by
          rw [h.itemized, ← h.entered, front, List.filterMap_append, List.countP_append]
          exact Nat.le_add_right _ _
        rw [h.ordered es₁ global mid front, List.take_append_of_le_length inside]

/-- While a definition is allocated, it is entered, the calls of its body are resolved, and the body
is completed. -/
theorem Definition.watch_tells (d : Definition) :
    d.watch.Tells fun item => Narrated [.define d] [item] := by
  unfold Definition.watch
  refine .thenNote (.behind (.require _ _) fun _ => ?_)
  refine (Watched.Tells.observe fun _ _ _ inStep h =>
    (Definition.register_records inStep h).told).bind ?_
  rintro index _ _ ⟨rfl, rfl⟩
  refine .behind (.of_functions fun _ _ _ h => by simp [(liftM_eq_ok.1 h).2]) fun scope => ?_
  refine .behind (.of_functions fun _ _ _ h => ?_) fun _ => ?_
  · cases modifyGet_eq_ok.1 h
    exact ⟨rfl, rfl⟩
  refine (d.body.watch_tells scope).bind ?_
  rintro body _ _ ⟨rfl, callees, rfl⟩
  refine .behind (.of_functions fun _ _ _ h => by cases h; exact ⟨rfl, rfl⟩) fun entry => ?_
  refine .behind (.require _ _) fun _ => ?_
  refine (Watched.Tells.observe fun t _ _ inStep h => ?_).bind ?_
  · cases modifyGet_eq_ok.1 h
    exact (finish_records inStep index t.reservation body.type).told
  rintro _ _ _ ⟨rfl, rfl⟩
  refine .pure (.single ?_ ?_ ?_ ?_ rfl)
  · simp [globals_callEvents, Event.global?]
  · simp [List.filterMap_cons, names_callEvents, callees, Event.name?, Global.names]
  · simp [sites_callEvents, Event.site?, Item.term]
  · simp [Global.moments]

theorem Declaration.watch_tells (d : Declaration) :
    d.watch.Tells fun _ => Narrated [.declare d] [] := by
  refine .thenNote ((Watched.Tells.observe fun _ _ _ inStep h =>
    (Declaration.allocate_records inStep h).told).imp ?_)
  rintro _ _ _ ⟨rfl, rfl⟩
  exact .single rfl rfl rfl rfl rfl

/-- While an entry expression is allocated, its calls are resolved. -/
theorem Expr.watchEntry_tells (e : Expr) :
    e.watchEntry.Tells fun item => Narrated [.entry e] [item] := by
  unfold Expr.watchEntry
  refine .thenNote ((Watched.Tells.observe fun t _ _ inStep h => ?_).bind ?_)
  · cases modifyGet_eq_ok.1 h
    exact ⟨.spare trivial, inStep.of_eq rfl rfl⟩
  rintro _ _ _ ⟨rfl, rfl⟩
  refine (e.watch_tells {}).bind ?_
  rintro value _ _ ⟨rfl, callees, rfl⟩
  refine .behind (.touch _) fun _ => ?_
  refine .behind (.of_functions fun _ _ _ h => ?_) fun _ => ?_
  · cases modifyGet_eq_ok.1 h
    exact ⟨rfl, rfl⟩
  refine .pure (.single ?_ ?_ ?_ ?_ rfl)
  · simp [globals_callEvents]
  · simp [List.filterMap_cons, names_callEvents, callees, Event.name?, Global.names]
  · simp [sites_callEvents, Item.term]
  · simp [Global.moments]

theorem watchGlobals_tells (globals : List Global) (done : List Item) :
    (watchGlobals done globals).Tells fun items es n =>
      ∃ new, items = done.reverse ++ new ∧ Narrated globals new es n := by
  induction globals generalizing done with
  | nil => exact .pure ⟨[], (List.append_nil _).symm, .nil⟩
  | cons global globals ih =>
    cases global with
    | define d =>
      refine d.watch_tells.bind fun item es n first => (ih (item :: done)).imp ?_
      rintro items es' n' ⟨new, rfl, rest⟩
      exact ⟨item :: new, by simp, first.append rest⟩
    | declare d =>
      refine d.watch_tells.bind fun _ es n first => (ih done).imp ?_
      rintro items es' n' ⟨new, rfl, rest⟩
      exact ⟨new, rfl, first.append rest⟩
    | entry e =>
      refine e.watchEntry_tells.bind fun item es n first => (ih (item :: done)).imp ?_
      rintro items es' n' ⟨new, rfl, rest⟩
      exact ⟨item :: new, by simp, first.append rest⟩

/-- Watching a program tells its globals, its calls and its moments. -/
theorem Program.watch_told (p : Program) : Watched.Told {} p.watch (Narrated p.globals) := by
  refine (watchGlobals_tells p.globals []).imp ?_ {} Tables.inStep_start
  rintro items es n ⟨new, rfl, narrated⟩
  exact narrated

/-- What allocation gives, watching gives, and it has told all. -/
theorem Program.watch_of_allocate {p : Program} {items : List Item} {t : Tables}
    (h : p.allocate = .ok (items, t)) : ∃ es, p.watch.2 = .ok (items, ⟨t, es⟩) ∧
      Happens #[] es t.functions ∧ Narrated p.globals items es p.watch.1.length := by
  have erased := p.watch_eq
  rw [h] at erased
  cases result : p.watch.2 with
  | error e =>
    rw [result] at erased
    cases erased
  | ok r =>
    rw [result] at erased
    cases erased
    obtain ⟨leads, es, events_eq, narrated⟩ := p.watch_told.arrives r.1 r.2 result
    obtain ⟨es', events_eq', happens⟩ := (leads {} List.mem_cons_self).happens
    obtain rfl : es' = es := events_eq'.symm.trans events_eq
    obtain rfl : r.2.events = es' := events_eq
    exact ⟨_, rfl, happens, narrated⟩

end RegLisp
