import RegLisp.Proofs.AllocationMoments

/-!
# What allocation reserves

The frame that allocation reserves for a function reaches as far as the registers of its body. It is
noted in the entry of the function when the body is complete, and nothing that comes later changes
it. The entry section has one frame for all entry expressions.
-/

namespace RegLisp

open Allocate

/-! ## The reach of a term -/

mutual

/-- One more than the greatest register that is taken for a term. A variable has its register
already. -/
def Term.reach : Term → Nat
  | .const reg _ _ => reg + 1
  | .var _ _ _ => 0
  | .binary reg _ _ lhs rhs => max (reg + 1) (max lhs.reach rhs.reach)
  | .cond reg _ _ _ test onTrue onFalse =>
    max (max test.reach (max onTrue.reach onFalse.reach)) (reg + 1)
  | .call reg _ _ _ _ args => max (reg + 1) (Term.argsReach (reg + 1) args)

/-- The reach of arguments at consecutive registers from the given one on. -/
def Term.argsReach (slot : Nat) : List Term → Nat
  | [] => 0
  | arg :: args => max (max arg.reach (slot + 1)) (Term.argsReach (slot + 1) args)

end

/-- The tables after registers up to the given one were taken. -/
structure Tables.Reaches (t t' : Tables) (reach : Nat) : Prop where
  maxReg_eq : t'.maxReg = max t.maxReg reach
  entry_eq : t'.entryReservation = t.entryReservation

namespace Tables.Reaches

variable {t t₁ t₂ : Tables} {n n' : Nat}

theorem refl (t : Tables) : t.Reaches t 0 := ⟨(Nat.max_zero _).symm, rfl⟩

theorem trans (h : t.Reaches t₁ n) (h' : t₁.Reaches t₂ n') : t.Reaches t₂ (max n n') := by
  refine ⟨?_, h'.entry_eq.trans h.entry_eq⟩
  rw [h'.maxReg_eq, h.maxReg_eq, Nat.max_assoc]

/-- A step that takes no register. -/
theorem quiet (h : t.Reaches t₁ n) (h' : t₁.Reaches t₂ 0) : t.Reaches t₂ n := by
  have both := h.trans h'
  rwa [Nat.max_zero] at both

/-- A step behind one that takes no register. -/
theorem after (h : t.Reaches t₁ 0) (h' : t₁.Reaches t₂ n) : t.Reaches t₂ n := by
  have both := h.trans h'
  rwa [Nat.zero_max] at both

end Tables.Reaches

section

variable {t t' : Tables}

theorem touch_reaches {reg reg' : Nat} (h : touch reg t = .ok (reg', t')) :
    reg' = reg ∧ t.Reaches t' (reg + 1) := by
  unfold touch ofTables Tables.touch at h
  by_cases room : reg < frameRegisters
  · simp only [room, ↓reduceIte] at h
    cases h
    exact ⟨rfl, rfl, rfl⟩
  · simp [room] at h

theorem alloc_reaches {reg : Nat} (h : alloc t = .ok (reg, t')) : t.Reaches t' (reg + 1) := by
  obtain ⟨rfl, reaches⟩ := touch_reaches (t := { t with nextReg := t.nextReg + 1 }) h
  exact ⟨reaches.maxReg_eq, reaches.entry_eq⟩

theorem setNext_reaches {reg : Nat} {u : Unit} (h : setNext reg t = .ok (u, t')) :
    t.Reaches t' 0 := by
  cases h
  exact ⟨(Nat.max_zero _).symm, rfl⟩

theorem addConstant_reaches {word : UInt64} {slot : Nat}
    (h : addConstant word t = .ok (slot, t')) : t.Reaches t' 0 := by
  unfold addConstant ofTables Tables.addConstant at h
  by_cases room : t.constants.size < maxConstants
  · simp only [room, ↓reduceIte] at h
    cases h
    exact ⟨(Nat.max_zero _).symm, rfl⟩
  · simp [room] at h

/-- A step that only changes the function table and its names takes no register. -/
theorem Tables.reaches_of_rest_eq
    (rest_eq : t' = { t with functions := t'.functions, indices := t'.indices }) :
    t.Reaches t' 0 := by
  rw [rest_eq]
  exact ⟨(Nat.max_zero _).symm, rfl⟩

end

mutual

/-- Allocating an expression takes registers up to the reach of its term. -/
theorem Expr.allocate_reaches {scope : Scope} : ∀ (e : Expr) {t t' : Tables} {term : Term},
    e.allocate scope t = .ok (term, t') → t.Reaches t' term.reach
  | .const _ value, t, t', term, h => by
    simp only [Expr.allocate, bind_eq_ok, pure_eq_ok] at h
    obtain ⟨reg, t₁, h₁, slot, t₂, h₂, heq⟩ := h
    cases heq
    exact (alloc_reaches h₁).quiet (addConstant_reaches h₂)
  | .var _ type name, t, t', term, h => by
    unfold Expr.allocate at h
    cases bound : scope.lookup name with
    | none => simp [bound, fail] at h
    | some b =>
      simp only [bound, bind_eq_ok, pure_eq_ok] at h
      obtain ⟨u, t₁, h₁, heq⟩ := h
      cases heq
      obtain ⟨-, rfl⟩ := require_eq_ok.1 h₁
      exact .refl _
  | .binary _ op lhs rhs, t, t', term, h => by
    simp only [Expr.allocate, bind_eq_ok, pure_eq_ok] at h
    obtain ⟨reg, t₁, h₁, lhs', t₂, h₂, rhs', t₃, h₃, heq⟩ := h
    cases heq
    exact (alloc_reaches h₁).trans ((lhs.allocate_reaches h₂).trans (rhs.allocate_reaches h₃))
  | .cond _ test onTrue onFalse, t, t', term, h => by
    simp only [Expr.allocate, bind_eq_ok, pure_eq_ok] at h
    obtain ⟨reg, t₁, h₁, joinSlot, t₂, h₂, elseSlot, t₃, h₃, test', t₄, h₄, u₁, t₅, h₅, u₂, t₆,
      h₆, onTrue', t₇, h₇, u₃, t₈, h₈, onFalse', t₉, h₉, reg', t₁₀, h₁₀, u₄, t₁₁, h₁₁, heq⟩ := h
    cases heq
    obtain ⟨rfl, rfl⟩ := nextReg_eq_ok h₁
    obtain ⟨-, rfl⟩ := require_eq_ok.1 h₅
    obtain ⟨rfl, touched⟩ := touch_reaches h₁₀
    have slots := (addConstant_reaches h₂).quiet (addConstant_reaches h₃)
    have tested := slots.after (test.allocate_reaches h₄)
    have yes := (setNext_reaches h₆).after (onTrue.allocate_reaches h₇)
    have no := (setNext_reaches h₈).after (onFalse.allocate_reaches h₉)
    exact ((tested.trans (yes.trans no)).trans touched).quiet (setNext_reaches h₁₁)
  | .call _ callee args, t, t', term, h => by
    simp only [Expr.allocate, bind_eq_ok, pure_eq_ok] at h
    obtain ⟨reg, t₁, h₁, args', t₂, h₂, u, t₃, h₃, ⟨index, type⟩, t₄, h₄, heq⟩ := h
    cases heq
    have passed := (alloc_reaches h₁).trans (Expr.allocateArgs_reaches args h₂)
    exact (passed.quiet (setNext_reaches h₃)).quiet
      (Tables.reaches_of_rest_eq (resolveCall_rest_eq h₄))
termination_by structural e => e

theorem Expr.allocateArgs_reaches {scope : Scope} : ∀ (args : List Expr) {slot : Nat}
    {t t' : Tables} {terms : List Term}, Expr.allocateArgs scope slot args t = .ok (terms, t') →
      t.Reaches t' (Term.argsReach slot terms)
  | [], slot, t, t', terms, h => by
    simp only [Expr.allocateArgs, pure_eq_ok] at h
    cases h
    exact .refl _
  | arg :: args, slot, t, t', terms, h => by
    simp only [Expr.allocateArgs, bind_eq_ok, pure_eq_ok] at h
    obtain ⟨u, t₁, h₁, arg', t₂, h₂, slot', t₃, h₃, args', t₄, h₄, heq⟩ := h
    cases heq
    obtain ⟨-, touched⟩ := touch_reaches h₃
    have first := ((setNext_reaches h₁).after (arg.allocate_reaches h₂)).trans touched
    exact first.trans (Expr.allocateArgs_reaches args h₄)
termination_by structural args => args

end

/-! ## Entries of definitions -/

/-- The entries of definitions stay such, with the frames that are noted for them. -/
def KeepsFrames (fs fs' : Array FunctionEntry) : Prop :=
  ∀ (i : Nat) (f : FunctionEntry), fs[i]? = some f → f.isExternal = false →
    ∃ g, fs'[i]? = some g ∧ g.isExternal = false ∧ g.reservation = f.reservation

namespace KeepsFrames

variable {fs fs₁ fs₂ : Array FunctionEntry}

theorem refl (fs : Array FunctionEntry) : KeepsFrames fs fs :=
  fun _ f hf internal => ⟨f, hf, internal, rfl⟩

theorem trans (h : KeepsFrames fs fs₁) (h' : KeepsFrames fs₁ fs₂) : KeepsFrames fs fs₂ := by
  intro i f hf internal
  obtain ⟨g, hg, internal', same⟩ := h i f hf internal
  obtain ⟨k, hk, internal'', same'⟩ := h' i g hg internal'
  exact ⟨k, hk, internal'', same'.trans same⟩

end KeepsFrames

/-- An event that completes no body. -/
def Event.Ongoing : Event → Prop
  | finish _ _ => False
  | _ => True

theorem Event.Changes.frame_kept {e : Event} {index : Nat} {f g : FunctionEntry}
    (h : e.Changes index f g) (ongoing : e.Ongoing) (internal : f.isExternal = false) :
    g.isExternal = false ∧ g.reservation = f.reservation := by
  cases e with
  | enter global =>
    cases global with
    | define d => cases internal.symm.trans h.2.1
    | declare d =>
      obtain ⟨-, -, rfl⟩ := h
      exact ⟨internal, rfl⟩
    | entry body => exact h.elim
  | call site =>
    obtain ⟨-, -, -, rfl⟩ := h
    rw [internal]
    exact ⟨internal, rfl⟩
  | finish index' type => exact ongoing.elim

theorem Edited.keepsFrames {fs fs' : Array FunctionEntry} {e : Event} (h : Edited fs e fs')
    (ongoing : e.Ongoing) : KeepsFrames fs fs' := by
  intro i f hf internal
  cases h with
  | spare spares => exact ⟨f, hf, internal, rfl⟩
  | add absent adds => exact ⟨f, getElem?_push_eq_some.2 (.inl hf), internal, rfl⟩
  | @change index f' g entry_eq changes =>
    by_cases same : index = i
    · subst same
      obtain rfl := Option.some.inj (entry_eq.symm.trans hf)
      exact ⟨g, (getElem?_set_eq_some entry_eq).2 (.inr ⟨rfl, rfl⟩),
        changes.frame_kept ongoing internal⟩
    · exact ⟨f, (getElem?_set_eq_some entry_eq).2 (.inl ⟨same, hf⟩), internal, rfl⟩

theorem Happens.keepsFrames {fs fs' : Array FunctionEntry} {es : List Event}
    (h : Happens fs es fs') (ongoing : ∀ e ∈ es, e.Ongoing) : KeepsFrames fs fs' := by
  induction h with
  | nil => exact .refl fs
  | snoc before last ih =>
    rw [List.forall_mem_append] at ongoing
    exact (ih ongoing.1).trans (last.keepsFrames (ongoing.2 _ List.mem_cons_self))

/-- Allocating an expression is a series of events that complete no body. -/
theorem Expr.allocate_happens {scope : Scope} {e : Expr} {t t' : Tables} {term : Term}
    (inStep : t.InStep) (h : e.allocate scope t = .ok (term, t')) :
    ∃ es, Happens t.functions es t'.functions ∧ ∀ e ∈ es, e.Ongoing := by
  have erased := e.watch_erases scope ⟨t, []⟩
  rw [h] at erased
  have told := e.watch_tells scope ⟨t, []⟩ inStep
  generalize e.watch scope ⟨t, []⟩ = run at erased told
  obtain ⟨noted, _ | ⟨_, s⟩⟩ := run
  · cases erased
  cases erased
  obtain ⟨leads, es, events_eq, narrated⟩ := told.arrives _ _ rfl
  obtain ⟨es', events_eq', happens⟩ := (leads ⟨t, []⟩ List.mem_cons_self).happens
  refine ⟨es', happens, ?_⟩
  obtain rfl : es' = es := events_eq'.symm.trans events_eq
  rw [narrated.events]
  intro e mem
  obtain ⟨site, -, rfl⟩ := List.mem_map.1 mem
  trivial

/-- Allocating an expression leaves the frames of definitions as they are. -/
theorem Expr.allocate_keepsFrames {scope : Scope} {e : Expr} {t t' : Tables} {term : Term}
    (inStep : t.InStep) (h : e.allocate scope t = .ok (term, t')) :
    KeepsFrames t.functions t'.functions := by
  obtain ⟨es, happens, ongoing⟩ := Expr.allocate_happens inStep h
  exact happens.keepsFrames ongoing

/-- The frame of a definition reaches to the end of its parameters and of its body. -/
def ReservedBody (fs : Array FunctionEntry) (d : Definition) (body : Nat × Term) : Prop :=
  ∃ f, fs[body.1]? = some f ∧ f.isExternal = false ∧
    f.reservation = max (d.params.length + 1) body.2.reach % 65536

theorem ReservedBody.kept {fs fs' : Array FunctionEntry} {d : Definition} {body : Nat × Term}
    (h : ReservedBody fs d body) (keeps : KeepsFrames fs fs') : ReservedBody fs' d body := by
  obtain ⟨f, hf, internal, noted⟩ := h
  obtain ⟨g, hg, internal', same⟩ := keeps body.1 f hf internal
  exact ⟨g, hg, internal', same.trans noted⟩

theorem Definition.allocate_reserves {d : Definition} {t t' : Tables} {item : Item}
    (valid : t.Valid) (h : d.allocate t = .ok (item, t')) :
    ∃ index term, item = .body index term ∧ t'.entryReservation = t.entryReservation ∧
      KeepsFrames t.functions t'.functions ∧ ReservedBody t'.functions d (index, term) := by
  simp only [Definition.allocate, bind_eq_ok, pure_eq_ok] at h
  obtain ⟨u₁, t₁, h₁, index, t₂, h₂, scope, t₃, h₃, u₄, t₄, h₄, term, t₅, h₅, entry, t₆, h₆,
    u₇, t₇, h₇, u₈, t₈, h₈, heq⟩ := h
  cases heq
  obtain ⟨-, rfl⟩ := require_eq_ok.1 h₁
  obtain ⟨grows, fresh, -⟩ := Definition.register_spec valid h₂
  have records := Definition.register_records valid.inStep h₂
  have entered := records.edited.keepsFrames trivial
  obtain ⟨-, rfl⟩ := liftM_eq_ok.1 h₃
  cases modifyGet_eq_ok.1 h₄
  have body := d.body.allocate_reaches h₅
  have kept := Expr.allocate_keepsFrames (records.inStep.beginFrame _ _) h₅
  obtain ⟨f₂, hf₂, internal₂⟩ := (grows.defined index).2 (.inr List.mem_cons_self)
  obtain ⟨f₅, hf₅, internal₅, -⟩ := kept index f₂ hf₂ internal₂
  obtain ⟨rfl, rfl⟩ := entryAt_eq_ok hf₅ h₆
  obtain ⟨-, rfl⟩ := require_eq_ok.1 h₇
  cases modifyGet_eq_ok.1 h₈
  have reaches := Tables.reaches_of_rest_eq records.rest_eq
  refine ⟨index, term, rfl, body.entry_eq.trans reaches.entry_eq, ?_, ?_⟩
  · intro i f hf internal
    obtain ⟨g, hg, facts⟩ := entered.trans kept i f hf internal
    have other : index ≠ i := by
      rintro rfl
      exact fresh ⟨f, hf, internal⟩
    refine ⟨g, ?_, facts⟩
    rw [Tables.modify, Array.getElem?_modify, if_neg other, hg]
  · refine ⟨f₅.finish t₅.reservation term.type, ?_, internal₅, ?_⟩
    · rw [Tables.modify, Array.getElem?_modify, if_pos rfl, hf₅, Option.map_some]
      rfl
    · exact congrArg (· % 65536) body.maxReg_eq

/-- The frame of the entry section reaches to the end of each entry expression. -/
theorem Expr.allocateEntry_reserves {e : Expr} {t t' : Tables} {item : Item}
    (inStep : t.InStep) (h : e.allocateEntry t = .ok (item, t')) :
    ∃ term, item = .entry term ∧
      t'.entryReservation = max t.entryReservation (max term.reach 1 % 65536) ∧
        KeepsFrames t.functions t'.functions := by
  simp only [Expr.allocateEntry, bind_eq_ok, pure_eq_ok] at h
  obtain ⟨u₁, t₁, h₁, term, t₂, h₂, reg, t₃, h₃, u₄, t₄, h₄, heq⟩ := h
  cases heq
  cases modifyGet_eq_ok.1 h₁
  have value := e.allocate_reaches h₂
  have kept := Expr.allocate_keepsFrames (inStep.beginFrame _ _) h₂
  obtain ⟨-, touched⟩ := touch_reaches h₃
  obtain ⟨-, -, moves⟩ := touch_moves h₃
  cases modifyGet_eq_ok.1 h₄
  have reaches := value.trans touched
  refine ⟨term, rfl, ?_, ?_⟩
  · have maxReg : t₃.maxReg = max term.reach 1 := by
      rw [reaches.maxReg_eq]
      exact Nat.zero_max _
    have noted : max t₃.entryReservation t₃.reservation =
        max t.entryReservation (max term.reach 1 % 65536) := by
      rw [reaches.entry_eq, Tables.reservation, maxReg]
      rfl
    exact noted
  · change KeepsFrames t.functions t₃.functions
    rw [moves.functions_eq]
    exact kept

/-- How far the entry section reaches. -/
def entriesReach : List Term → Nat
  | [] => 0
  | t :: ts => max (max t.reach 1 % 65536) (entriesReach ts)

/-- What allocating globals has reserved. -/
structure ReservedGlobals (t : Tables) (globals : List Global) (items : List Item) (t' : Tables) :
    Prop where
  entry_eq : t'.entryReservation = max t.entryReservation (entriesReach (entryTerms items))
  bodies : List.Forall₂ (ReservedBody t'.functions) (Program.mk globals).definitions (bodies items)
  kept : KeepsFrames t.functions t'.functions

theorem ReservedGlobals.body {globals : List Global} {items : List Item} {t t' : Tables} {n : Nat}
    {d : Definition} {b : Nat × Term} (h : ReservedGlobals t globals items t')
    (hd : (Program.mk globals).definitions[n]? = some d)
    (hb : (RegLisp.bodies items)[n]? = some b) : ReservedBody t'.functions d b := by
  obtain ⟨lt, rfl⟩ := List.getElem?_eq_some_iff.1 hd
  obtain ⟨lt', rfl⟩ := List.getElem?_eq_some_iff.1 hb
  exact h.bodies.get lt lt'

theorem allocateGlobals_reserves {globals : List Global} {t t' : Tables} {done items : List Item}
    (valid : t.Valid) (h : allocateGlobals done globals t = .ok (items, t')) :
    ∃ new, items = done.reverse ++ new ∧ ReservedGlobals t globals new t' := by
  induction globals generalizing t done with
  | nil =>
    simp only [allocateGlobals, pure_eq_ok] at h
    cases h
    exact ⟨[], by simp, (Nat.max_zero _).symm, .nil, .refl _⟩
  | cons global globals ih =>
    cases global with
    | define d =>
      simp only [allocateGlobals, bind_eq_ok] at h
      obtain ⟨item, t₁, h₁, h⟩ := h
      obtain ⟨_, _, -, grows, -⟩ := Definition.allocate_spec valid h₁
      obtain ⟨index, term, rfl, entry_eq, kept, body⟩ := Definition.allocate_reserves valid h₁
      obtain ⟨new, rfl, rest⟩ := ih grows.valid h
      refine ⟨.body index term :: new, by simp, ?_, .cons (body.kept rest.kept) rest.bodies,
        kept.trans rest.kept⟩
      rw [rest.entry_eq, entry_eq]
      rfl
    | declare d =>
      simp only [allocateGlobals, bind_eq_ok] at h
      obtain ⟨u, t₁, h₁, h⟩ := h
      have records := Declaration.allocate_records valid.inStep h₁
      have kept := records.edited.keepsFrames trivial
      obtain ⟨new, rfl, rest⟩ := ih (Declaration.allocate_grows valid h₁).valid h
      refine ⟨new, rfl, ?_, rest.bodies, kept.trans rest.kept⟩
      rw [rest.entry_eq, (Tables.reaches_of_rest_eq records.rest_eq).entry_eq]
    | entry e =>
      simp only [allocateGlobals, bind_eq_ok] at h
      obtain ⟨item, t₁, h₁, h⟩ := h
      obtain ⟨_, -, grows, -⟩ := Expr.allocateEntry_spec valid h₁
      obtain ⟨term, rfl, entry_eq, kept⟩ := Expr.allocateEntry_reserves valid.inStep h₁
      obtain ⟨new, rfl, rest⟩ := ih grows.valid h
      refine ⟨.entry term :: new, by simp, ?_, rest.bodies, kept.trans rest.kept⟩
      rw [rest.entry_eq, entry_eq, Nat.max_assoc]
      rfl

/-- What a program has reserved when it is allocated. -/
theorem Program.allocate_reserves {p : Program} {items : List Item} {t : Tables}
    (h : p.allocate = .ok (items, t)) : ReservedGlobals {} p.globals items t := by
  obtain ⟨new, rfl, reserved⟩ := allocateGlobals_reserves Tables.valid_start h
  exact reserved

end RegLisp
