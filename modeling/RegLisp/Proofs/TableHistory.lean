import RegLisp.Proofs.Allocation
import RegLisp.Proofs.LinkAcceptance

/-!
# The history of the function table

Whatever allocation does to the function table, it does at an event: a global is entered, a call is
resolved, or the body of a definition is complete. An event adds an entry for a name that has none,
or changes one entry, and a changed entry keeps its name and all types that it knows. So what the
table looks like follows from the events alone: which names it has, which of its entries are
definitions, and what has become of each call.
-/

namespace RegLisp

/-! ## Types that become known -/

/-- The first type has become the second one, which it can only as long as it is not known. -/
def ValueType.Settles (x y : ValueType) : Prop := x.isKnown = true → y = x

/-- Each type has become the other one. -/
def TypesSettle (xs ys : List ValueType) : Prop := List.Forall₂ ValueType.Settles xs ys

theorem TypesSettle.refl (xs : List ValueType) : TypesSettle xs xs :=
  List.forall₂_same.2 fun _ _ _ => rfl

theorem TypesSettle.trans {xs ys zs : List ValueType} (h : TypesSettle xs ys)
    (h' : TypesSettle ys zs) : TypesSettle xs zs := by
  unfold TypesSettle at *
  induction h generalizing zs with
  | nil => exact h'
  | cons first _ ih =>
    obtain ⟨z, zs, second, others, rfl⟩ := List.forall₂_cons_left_iff.1 h'
    refine .cons ?_ (ih others)
    intro known
    obtain rfl := first known
    exact second known

/-- Types that are all known stay as they are. -/
theorem TypesSettle.eq_of_known {xs ys : List ValueType} (h : TypesSettle xs ys)
    (known : ∀ x ∈ xs, x.isKnown = true) : ys = xs := by
  unfold TypesSettle at h
  induction h with
  | nil => rfl
  | cons first _ ih =>
    rw [List.forall_mem_cons] at known
    rw [first known.1, ih known.2]

/-- What two signatures that agree know together settles both. -/
theorem typesSettle_fillUnknown {xs ys : List ValueType} (agree : SignaturesAgree xs ys) :
    TypesSettle xs (fillUnknown xs ys) ∧ TypesSettle ys (fillUnknown xs ys) := by
  unfold SignaturesAgree at agree
  induction agree with
  | nil => exact ⟨.nil, .nil⟩
  | @cons x y xs ys agree _ ih =>
    refine ⟨.cons ?_ ih.1, .cons ?_ ih.2⟩
    · intro known
      exact if_pos known
    · intro known
      rcases agree with rfl | rfl | rfl
      · exact ite_self _
      · rfl
      · cases known

theorem tail_fillUnknown (xs ys : List ValueType) :
    (fillUnknown xs ys).tail = fillUnknown xs.tail ys.tail := by
  cases xs <;> cases ys <;> simp [fillUnknown]

theorem signaturesAgree_symm {xs ys : List ValueType} (h : SignaturesAgree xs ys) :
    SignaturesAgree ys xs := by
  refine List.Forall₂.flip (h.imp ?_)
  rintro x y (rfl | unknown | unknown)
  · exact .inl rfl
  · exact .inr (.inr unknown)
  · exact .inr (.inl unknown)

/-! ## Entries -/

/-- The entry of a definition whose body is still to come. -/
def Definition.entry (d : Definition) : FunctionEntry :=
  ⟨d.name, some 0, d.returns :: d.paramTypes, 0⟩

/-- A reference that becomes the entry of a definition. -/
def FunctionEntry.define (f : FunctionEntry) (d : Definition) : FunctionEntry :=
  { f with address := some 0, types := fillUnknown (d.returns :: d.paramTypes) f.types }

/-- The entry of a definition whose body has the given type and frame size. -/
def FunctionEntry.finish (f : FunctionEntry) (reservation : Nat) (type : ValueType) :
    FunctionEntry :=
  { f with
    reservation
    types := (if f.returns.isKnown then f.returns else type) :: f.params }

/-- An entry whose unknown types are taken from a declaration. -/
def FunctionEntry.declare (f : FunctionEntry) (d : Declaration) : FunctionEntry :=
  { f with types := fillUnknown f.types (d.returns :: d.params) }

theorem FunctionEntry.params_refine (f : FunctionEntry) (args : List ValueType) :
    (f.refine args).params = fillUnknown f.params args := by
  unfold refine params
  cases f.types <;> rfl

theorem FunctionEntry.params_declare (f : FunctionEntry) (d : Declaration) :
    (f.declare d).params = fillUnknown f.params d.params := tail_fillUnknown _ _

/-- The entry of a declaration. -/
def Declaration.entry (d : Declaration) : FunctionEntry := ⟨d.name, none, d.returns :: d.params, 0⟩

/-! ## Calls -/

/-- A call in a term. -/
structure CallSite where
  callee : String
  /-- The index of the callee in the function table. -/
  index : Nat
  args : List Term

def CallSite.argTypes (c : CallSite) : List ValueType := c.args.map Term.type

mutual

/-- The calls of a term, in the order in which they are resolved. -/
def Term.callSites : Term → List CallSite
  | .const _ _ _ => []
  | .var _ _ _ => []
  | .binary _ _ _ lhs rhs => lhs.callSites ++ rhs.callSites
  | .cond _ _ _ _ test onTrue onFalse => test.callSites ++ (onTrue.callSites ++ onFalse.callSites)
  | .call _ _ _ callee index args => Term.argsCallSites args ++ [⟨callee, index, args⟩]

/-- The calls of terms, one after the other. -/
def Term.argsCallSites : List Term → List CallSite
  | [] => []
  | arg :: args => arg.callSites ++ Term.argsCallSites args

end

/-- The entry of a function that a call names first. -/
def CallSite.entry (c : CallSite) : FunctionEntry := ⟨c.callee, none, .unknown :: c.argTypes, 0⟩

/-! ## Events -/

/-- What can happen to the function table. -/
inductive Event where
  /-- A global begins: a definition or a declaration is entered in the table. -/
  | enter (global : Global)
  /-- A call is resolved. -/
  | call (site : CallSite)
  /-- The body of the definition at an index is complete, and has the given type. -/
  | finish (index : Nat) (type : ValueType)

namespace Event

def global? : Event → Option Global
  | enter global => some global
  | _ => none

def site? : Event → Option CallSite
  | call site => some site
  | _ => none

/-- The name that an event is about. -/
def name? : Event → Option String
  | enter (.define d) => some d.name
  | enter (.declare d) => some d.name
  | enter (.entry _) => none
  | call site => some site.callee
  | finish _ _ => none

/-- The name that an event defines. -/
def defined? : Event → Option String
  | enter (.define d) => some d.name
  | _ => none

theorem global?_eq_some {e : Event} {global : Global} :
    e.global? = some global ↔ e = enter global := by
  cases e <;> simp [global?]

theorem site?_eq_some {e : Event} {site : CallSite} :
    e.site? = some site ↔ e = call site := by
  cases e <;> simp [site?]

theorem name?_of_defined? {e : Event} {name : String} (h : e.defined? = some name) :
    e.name? = some name := by
  cases e with
  | enter global =>
    cases global with
    | define d => exact h
    | declare d => cases h
    | entry body => cases h
  | call site => cases h
  | finish index type => cases h

theorem mem_names_of_defined {es : List Event} {name : String}
    (h : name ∈ es.filterMap defined?) : name ∈ es.filterMap name? := by
  obtain ⟨e, mem, defined⟩ := List.mem_filterMap.1 h
  exact List.mem_filterMap.2 ⟨e, mem, name?_of_defined? defined⟩

end Event

/-- An event can come without a change of the table: an entry expression begins, or there is no
body to complete. -/
def Event.Spares (fs : Array FunctionEntry) : Event → Prop
  | enter (.entry _) => True
  | finish index _ => fs[index]? = none
  | _ => False

/-- An event can come with a new entry behind so many others. -/
def Event.Adds (size : Nat) (f : FunctionEntry) : Event → Prop
  | enter (.define d) => f = d.entry
  | enter (.declare d) => f = d.entry
  | call site => site.index = size ∧ f = site.entry
  | _ => False

/-- An event can come with a change of the entry at an index. A call leaves the entry of a
definition as it is. -/
def Event.Changes (index : Nat) (f g : FunctionEntry) : Event → Prop
  | enter (.define d) => f.name = d.name ∧ f.isExternal = true ∧
      SignaturesAgree (f.returns :: f.params) (d.returns :: d.paramTypes) ∧ g = f.define d
  | enter (.declare d) => f.name = d.name ∧
      SignaturesAgree (f.returns :: f.params) (d.returns :: d.params) ∧ g = f.declare d
  | enter (.entry _) => False
  | call site => site.index = index ∧ f.name = site.callee ∧
      SignaturesAgree f.params site.argTypes ∧
        g = if f.isExternal then f.refine site.argTypes else f
  | finish index' type => index' = index ∧ ∃ reservation, g = f.finish reservation type

/-- What an event does to the function table. -/
inductive Edited (fs : Array FunctionEntry) (e : Event) : Array FunctionEntry → Prop
  | spare (spares : e.Spares fs) : Edited fs e fs
  | add {f : FunctionEntry} (absent : ∀ g ∈ fs, g.name ≠ f.name) (adds : e.Adds fs.size f) :
      Edited fs e (fs.push f)
  | change {index : Nat} {f g : FunctionEntry} (entry_eq : fs[index]? = some f)
      (changes : e.Changes index f g) : Edited fs e (fs.setIfInBounds index g)

/-- Events that happen to the function table one after the other. -/
inductive Happens (fs : Array FunctionEntry) : List Event → Array FunctionEntry → Prop
  | nil : Happens fs [] fs
  | snoc {es : List Event} {e : Event} {fs₁ fs₂ : Array FunctionEntry} (before : Happens fs es fs₁)
      (last : Edited fs₁ e fs₂) : Happens fs (es ++ [e]) fs₂

theorem Happens.trans {fs fs₁ fs₂ : Array FunctionEntry} {es es' : List Event}
    (h : Happens fs es fs₁) (h' : Happens fs₁ es' fs₂) : Happens fs (es ++ es') fs₂ := by
  induction h' with
  | nil => rwa [List.append_nil]
  | snoc _ last ih =>
    rw [← List.append_assoc]
    exact .snoc ih last

theorem Edited.happens {fs fs₁ : Array FunctionEntry} {e : Event} (h : Edited fs e fs₁) :
    Happens fs [e] fs₁ := .snoc .nil h

/-! ## One entry -/

/-- What an entry keeps for good: its name, its arity, and each type that is known. -/
structure FunctionEntry.Matures (f g : FunctionEntry) : Prop where
  name_eq : g.name = f.name
  types : TypesSettle f.types g.types

namespace FunctionEntry.Matures

variable {f g k : FunctionEntry}

theorem refl (f : FunctionEntry) : f.Matures f := ⟨rfl, .refl _⟩

theorem trans (h : f.Matures g) (h' : g.Matures k) : f.Matures k :=
  ⟨h'.name_eq.trans h.name_eq, h.types.trans h'.types⟩

theorem params (h : f.Matures g) : TypesSettle f.params g.params := by
  have types := h.types
  unfold FunctionEntry.params
  generalize f.types = xs at types ⊢
  generalize g.types = ys at types ⊢
  cases types with
  | nil => exact .nil
  | cons _ others => exact others

end FunctionEntry.Matures

theorem FunctionEntry.types_eq {f : FunctionEntry} (typed : f.types ≠ []) :
    f.types = f.returns :: f.params := by
  unfold returns params
  cases h : f.types with
  | nil => exact absurd h typed
  | cons x xs => rfl

section

variable {e : Event} {index size : Nat} {f g : FunctionEntry}

theorem FunctionEntry.types_refine (typed : f.types ≠ []) (args : List ValueType) :
    (f.refine args).types = f.returns :: fillUnknown f.params args := by
  unfold refine
  rw [types_eq typed]
  rfl

theorem Event.Changes.matures (h : e.Changes index f g) (typed : f.types ≠ []) : f.Matures g := by
  cases e with
  | enter global =>
    cases global with
    | define d =>
      obtain ⟨-, -, agree, rfl⟩ := h
      rw [← FunctionEntry.types_eq typed] at agree
      exact ⟨rfl, (typesSettle_fillUnknown (signaturesAgree_symm agree)).2⟩
    | declare d =>
      obtain ⟨-, agree, rfl⟩ := h
      rw [← FunctionEntry.types_eq typed] at agree
      exact ⟨rfl, (typesSettle_fillUnknown agree).1⟩
    | entry body => exact h.elim
  | call site =>
    obtain ⟨-, -, agree, rfl⟩ := h
    split
    · refine ⟨rfl, ?_⟩
      rw [FunctionEntry.types_refine typed, FunctionEntry.types_eq typed]
      exact .cons (fun _ => rfl) (typesSettle_fillUnknown agree).1
    · exact .refl f
  | finish index' type =>
    obtain ⟨-, reservation, rfl⟩ := h
    refine ⟨rfl, ?_⟩
    rw [FunctionEntry.types_eq typed]
    exact .cons (fun known => if_pos known) (TypesSettle.refl f.params)

/-- An entry becomes that of a definition just when its name is defined. -/
theorem Event.Changes.internal_iff (h : e.Changes index f g) :
    g.isExternal = false ↔ f.isExternal = false ∨ e.defined? = some f.name := by
  cases e with
  | enter global =>
    cases global with
    | define d =>
      obtain ⟨name_eq, -, -, rfl⟩ := h
      exact iff_of_true rfl (.inr (congrArg some name_eq.symm))
    | declare d =>
      obtain ⟨-, -, rfl⟩ := h
      simp [FunctionEntry.declare, FunctionEntry.isExternal, defined?]
    | entry body => exact h.elim
  | call site =>
    obtain ⟨-, -, -, rfl⟩ := h
    split <;> simp [FunctionEntry.refine, FunctionEntry.isExternal, defined?]
  | finish index' type =>
    obtain ⟨-, reservation, rfl⟩ := h
    simp [FunctionEntry.finish, FunctionEntry.isExternal, defined?]

/-- An event that changes an entry is about its name, unless it completes a body. -/
theorem Event.Changes.name_eq (h : e.Changes index f g) {name : String}
    (named : e.name? = some name) : f.name = name := by
  cases e with
  | enter global =>
    cases global with
    | define d =>
      cases named
      exact h.1
    | declare d =>
      cases named
      exact h.1
    | entry body => exact h.elim
  | call site =>
    cases named
    exact h.2.1
  | finish index' type => cases named

theorem Event.Changes.external_of_defined (h : e.Changes index f g) {name : String}
    (defined : e.defined? = some name) : f.name = name ∧ f.isExternal = true := by
  cases e with
  | enter global =>
    cases global with
    | define d =>
      cases defined
      exact ⟨h.1, h.2.1⟩
    | declare d => cases defined
    | entry body => cases defined
  | call site => cases defined
  | finish index' type => cases defined

/-- A new entry has the name that the event is about, and it is that of a definition if the event
defines the name. -/
theorem Event.Adds.entry_facts (h : e.Adds size f) :
    e.name? = some f.name ∧ f.types ≠ [] ∧
      (f.isExternal = false ↔ e.defined? = some f.name) := by
  cases e with
  | enter global =>
    cases global with
    | define d =>
      cases h
      exact ⟨rfl, List.cons_ne_nil _ _, iff_of_true rfl rfl⟩
    | declare d =>
      cases h
      exact ⟨rfl, List.cons_ne_nil _ _, iff_of_false nofun nofun⟩
    | entry body => exact h.elim
  | call site =>
    obtain ⟨-, rfl⟩ := h
    exact ⟨rfl, List.cons_ne_nil _ _, iff_of_false nofun nofun⟩
  | finish index' type => exact h.elim

theorem Event.Spares.name?_eq {fs : Array FunctionEntry} (h : e.Spares fs) :
    e.name? = none ∧ e.defined? = none := by
  cases e with
  | enter global =>
    cases global with
    | define d => exact h.elim
    | declare d => exact h.elim
    | entry body => exact ⟨rfl, rfl⟩
  | call site => exact h.elim
  | finish index' type => exact ⟨rfl, rfl⟩

end

/-! ## The table -/

theorem getElem?_push_eq_some {fs : Array FunctionEntry} {f g : FunctionEntry} {i : Nat} :
    (fs.push f)[i]? = some g ↔ fs[i]? = some g ∨ i = fs.size ∧ f = g := by
  rw [Array.getElem?_push]
  by_cases last : i = fs.size
  · subst last
    simp
  · simp [last]

theorem getElem?_set_eq_some {fs : Array FunctionEntry} {f g k : FunctionEntry} {index i : Nat}
    (entry_eq : fs[index]? = some f) :
    (fs.setIfInBounds index g)[i]? = some k ↔
      index ≠ i ∧ fs[i]? = some k ∨ index = i ∧ g = k := by
  have inside := (Array.getElem?_eq_some_iff.1 entry_eq).1
  rw [Array.getElem?_setIfInBounds]
  by_cases same : index = i
  · subst same
    simp [inside]
  · simp [same]

/-- No two entries have one name. -/
def DistinctNames (fs : Array FunctionEntry) : Prop :=
  ∀ (i j : Nat) (f g : FunctionEntry), fs[i]? = some f → fs[j]? = some g → f.name = g.name → i = j

theorem DistinctNames.nodup {fs : Array FunctionEntry} (h : DistinctNames fs) :
    (fs.toList.map FunctionEntry.name).Nodup := by
  rw [List.nodup_iff_getElem?_ne_getElem?]
  intro i j lt inside same
  rw [List.length_map, Array.length_toList] at inside
  simp only [List.getElem?_map, Array.getElem?_toList] at same
  have hi := Array.getElem?_eq_getElem (Nat.lt_trans lt inside)
  have hj := Array.getElem?_eq_getElem inside
  rw [hi, hj, Option.map_some, Option.map_some, Option.some.injEq] at same
  have := h i j _ _ hi hj same
  omega

/-- What the function table is after the given events. -/
structure Recorded (es : List Event) (fs : Array FunctionEntry) : Prop where
  typed : ∀ f ∈ fs, f.types ≠ []
  distinct : DistinctNames fs
  /-- The names are those that the events are about. -/
  named : ∀ name, (∃ f ∈ fs, f.name = name) ↔ name ∈ es.filterMap Event.name?
  /-- The definitions are those that the events have brought. -/
  internal : ∀ f ∈ fs, f.isExternal = false ↔ f.name ∈ es.filterMap Event.defined?
  /-- No name has been defined twice. -/
  nodup : (es.filterMap Event.defined?).Nodup
  /-- The index of a call is that of its callee. -/
  called : ∀ c, .call c ∈ es → ∃ f, fs[c.index]? = some f ∧ f.name = c.callee

theorem Recorded.start : Recorded [] #[] :=
  ⟨by simp, by simp [DistinctNames], by simp, by simp, List.nodup_nil, by simp⟩

theorem mem_filterMap_snoc {α β : Type} {k : α → Option β} {xs : List α} {x : α} {b : β} :
    b ∈ (xs ++ [x]).filterMap k ↔ b ∈ xs.filterMap k ∨ k x = some b := by
  simp [List.filterMap_append]

section

variable {es : List Event} {e : Event} {fs fs' : Array FunctionEntry}

theorem Edited.typed (typed : ∀ f ∈ fs, f.types ≠ []) (h : Edited fs e fs') :
    ∀ f ∈ fs', f.types ≠ [] := by
  cases h with
  | spare spares => exact typed
  | add absent adds =>
    intro g mem
    rcases Array.mem_push.1 mem with mem | rfl
    · exact typed g mem
    · exact adds.entry_facts.2.1
  | @change index f g entry_eq changes =>
    intro k mem
    obtain ⟨i, hk⟩ := Array.mem_iff_getElem?.1 mem
    rcases (getElem?_set_eq_some entry_eq).1 hk with ⟨-, hk⟩ | ⟨-, rfl⟩
    · exact typed k (Array.mem_of_getElem? hk)
    · have before := typed f (Array.mem_of_getElem? entry_eq)
      have length := (changes.matures before).types.length_eq
      intro empty
      rw [empty, List.length_nil, List.length_eq_zero_iff] at length
      exact before length

/-- No event moves or removes an entry, changes its arity or a type that it knows. -/
theorem Edited.matures (typed : ∀ f ∈ fs, f.types ≠ []) (h : Edited fs e fs') {i : Nat}
    {f : FunctionEntry} (hf : fs[i]? = some f) : ∃ g, fs'[i]? = some g ∧ f.Matures g := by
  cases h with
  | spare spares => exact ⟨f, hf, .refl f⟩
  | add absent adds => exact ⟨f, getElem?_push_eq_some.2 (.inl hf), .refl f⟩
  | @change index f' g entry_eq changes =>
    by_cases same : index = i
    · subst same
      obtain rfl := Option.some.inj (entry_eq.symm.trans hf)
      exact ⟨g, (getElem?_set_eq_some entry_eq).2 (.inr ⟨rfl, rfl⟩),
        changes.matures (typed _ (Array.mem_of_getElem? hf))⟩
    · exact ⟨f, (getElem?_set_eq_some entry_eq).2 (.inl ⟨same, hf⟩), .refl f⟩

/-- Only a reference is defined. -/
theorem Edited.external_of_defined (distinct : DistinctNames fs) (h : Edited fs e fs')
    {f : FunctionEntry} (mem : f ∈ fs) (defined : e.defined? = some f.name) :
    f.isExternal = true := by
  cases h with
  | spare spares => cases spares.name?_eq.2.symm.trans defined
  | add absent adds =>
    have named := adds.entry_facts.1.symm.trans (Event.name?_of_defined? defined)
    exact absurd (Option.some.inj named).symm (absent f mem)
  | change entry_eq changes =>
    obtain ⟨name_eq, external⟩ := changes.external_of_defined defined
    obtain ⟨i, hf⟩ := Array.mem_iff_getElem?.1 mem
    obtain rfl := distinct _ _ _ _ entry_eq hf name_eq
    obtain rfl := Option.some.inj (entry_eq.symm.trans hf)
    exact external

/-- An entry has its name from before, or it is new. -/
theorem Edited.origin (typed : ∀ f ∈ fs, f.types ≠ []) (distinct : DistinctNames fs)
    (h : Edited fs e fs') {i : Nat} {g : FunctionEntry} (hg : fs'[i]? = some g) :
    (∃ f, fs[i]? = some f ∧ g.name = f.name ∧
      (g.isExternal = false ↔ f.isExternal = false ∨ e.defined? = some f.name)) ∨
    i = fs.size ∧ (∀ f ∈ fs, f.name ≠ g.name) ∧ e.name? = some g.name ∧
      (g.isExternal = false ↔ e.defined? = some g.name) := by
  -- an entry that stays as it is is not the one that is defined
  have kept (hg : fs[i]? = some g) (other : e.defined? ≠ some g.name) :
      ∃ f, fs[i]? = some f ∧ g.name = f.name ∧
        (g.isExternal = false ↔ f.isExternal = false ∨ e.defined? = some f.name) :=
    ⟨g, hg, rfl, by simp [other]⟩
  cases h with
  | spare spares => exact .inl (kept hg (by simp [spares.name?_eq.2]))
  | add absent adds =>
    rcases getElem?_push_eq_some.1 hg with hg | ⟨rfl, rfl⟩
    · refine .inl (kept hg ?_)
      intro defined
      have named := adds.entry_facts.1.symm.trans (Event.name?_of_defined? defined)
      exact absent g (Array.mem_of_getElem? hg) (Option.some.inj named).symm
    · exact .inr ⟨rfl, absent, adds.entry_facts.1, adds.entry_facts.2.2⟩
  | @change index f k entry_eq changes =>
    rcases (getElem?_set_eq_some entry_eq).1 hg with ⟨other, hg⟩ | ⟨rfl, rfl⟩
    · refine .inl (kept hg ?_)
      intro defined
      exact other (distinct _ _ _ _ entry_eq hg (changes.external_of_defined defined).1)
    · have matures := changes.matures (typed f (Array.mem_of_getElem? entry_eq))
      exact .inl ⟨f, entry_eq, matures.name_eq, changes.internal_iff⟩

/-- The name that an event is about is in the table from then on. -/
theorem Edited.exists_named (typed : ∀ f ∈ fs, f.types ≠ []) (h : Edited fs e fs') {name : String}
    (named : e.name? = some name) : ∃ g ∈ fs', g.name = name := by
  cases h with
  | spare spares => cases spares.name?_eq.1.symm.trans named
  | @add f absent adds =>
    have same := adds.entry_facts.1.symm.trans named
    exact ⟨f, Array.mem_push_self, Option.some.inj same⟩
  | @change index f g entry_eq changes =>
    refine ⟨g, Array.mem_of_getElem? ((getElem?_set_eq_some entry_eq).2 (.inr ⟨rfl, rfl⟩)), ?_⟩
    rw [(changes.matures (typed f (Array.mem_of_getElem? entry_eq))).name_eq]
    exact changes.name_eq named

/-- A call is resolved to the entry of its callee. -/
theorem Edited.called {c : CallSite} (typed : ∀ f ∈ fs, f.types ≠ [])
    (h : Edited fs (.call c) fs') :
    ∃ g, fs'[c.index]? = some g ∧ g.name = c.callee := by
  cases h with
  | spare spares => exact spares.elim
  | add absent adds =>
    obtain ⟨index_eq, rfl⟩ := adds
    exact ⟨c.entry, getElem?_push_eq_some.2 (.inr ⟨index_eq, rfl⟩), rfl⟩
  | @change index f g entry_eq changes =>
    have matures := changes.matures (typed f (Array.mem_of_getElem? entry_eq))
    have named := matures.name_eq.trans (changes.name_eq rfl)
    obtain ⟨rfl, -⟩ := changes
    exact ⟨g, (getElem?_set_eq_some entry_eq).2 (.inr ⟨rfl, rfl⟩), named⟩

namespace Recorded

theorem edited (h : Recorded es fs) (edited : Edited fs e fs') : Recorded (es ++ [e]) fs' where
  typed := edited.typed h.typed
  distinct := by
    intro i j f g hf hg same
    have first := edited.origin h.typed h.distinct hf
    have second := edited.origin h.typed h.distinct hg
    rcases first with ⟨f₁, hf₁, name₁, -⟩ | ⟨rfl, absent₁, -⟩
    · rcases second with ⟨g₁, hg₁, name₂, -⟩ | ⟨-, absent₂, -⟩
      · exact h.distinct i j f₁ g₁ hf₁ hg₁ (name₁.symm.trans (same.trans name₂))
      · exact absurd (name₁.symm.trans same) (absent₂ f₁ (Array.mem_of_getElem? hf₁))
    · rcases second with ⟨g₁, hg₁, name₂, -⟩ | ⟨rfl, -⟩
      · exact absurd (name₂.symm.trans same.symm) (absent₁ g₁ (Array.mem_of_getElem? hg₁))
      · rfl
  named := by
    intro name
    rw [mem_filterMap_snoc, ← h.named]
    constructor
    · rintro ⟨g, mem, rfl⟩
      obtain ⟨i, hg⟩ := Array.mem_iff_getElem?.1 mem
      rcases edited.origin h.typed h.distinct hg with ⟨f, hf, name_eq, -⟩ | ⟨-, -, named, -⟩
      · exact .inl ⟨f, Array.mem_of_getElem? hf, name_eq.symm⟩
      · exact .inr named
    · rintro (⟨f, mem, rfl⟩ | named)
      · obtain ⟨i, hf⟩ := Array.mem_iff_getElem?.1 mem
        obtain ⟨g, hg, matures⟩ := edited.matures h.typed hf
        exact ⟨g, Array.mem_of_getElem? hg, matures.name_eq⟩
      · exact edited.exists_named h.typed named
  internal := by
    intro g mem
    obtain ⟨i, hg⟩ := Array.mem_iff_getElem?.1 mem
    rw [mem_filterMap_snoc]
    rcases edited.origin h.typed h.distinct hg with ⟨f, hf, name_eq, iff⟩ | ⟨-, absent, -, iff⟩
    · rw [iff, name_eq, h.internal f (Array.mem_of_getElem? hf)]
    · have undefined : g.name ∉ es.filterMap Event.defined? := by
        intro defined
        obtain ⟨f, mem, same⟩ := (h.named g.name).2 (Event.mem_names_of_defined defined)
        exact absent f mem same
      rw [iff, or_iff_right undefined]
  nodup := by
    rw [List.filterMap_append, List.nodup_append]
    refine ⟨h.nodup, ?_, ?_⟩
    · cases defined : e.defined? <;> simp [defined]
    · intro name before name' defined same
      subst same
      have defined : e.defined? = some name := by simpa using defined
      obtain ⟨f, mem, rfl⟩ := (h.named name).2 (Event.mem_names_of_defined before)
      have internal := (h.internal f mem).2 before
      cases internal.symm.trans (edited.external_of_defined h.distinct mem defined)
  called := by
    intro c mem
    rcases List.mem_append.1 mem with mem | mem
    · obtain ⟨f, hf, named⟩ := h.called c mem
      obtain ⟨g, hg, matures⟩ := edited.matures h.typed hf
      exact ⟨g, hg, matures.name_eq.trans named⟩
    · cases List.mem_singleton.1 mem
      exact edited.called h.typed

theorem happens {before : List Event} (h : Recorded before fs) (happens : Happens fs es fs') :
    Recorded (before ++ es) fs' := by
  induction happens with
  | nil => rwa [List.append_nil]
  | snoc _ last ih =>
    rw [← List.append_assoc]
    exact ih.edited last

/-- Entries mature, whatever happens. -/
theorem matures {before : List Event} (h : Recorded before fs) (happens : Happens fs es fs')
    {i : Nat} {f : FunctionEntry} (hf : fs[i]? = some f) :
    ∃ g, fs'[i]? = some g ∧ f.Matures g := by
  induction happens with
  | nil => exact ⟨f, hf, .refl f⟩
  | snoc earlier last ih =>
    obtain ⟨g, hg, matures⟩ := ih
    obtain ⟨k, hk, matures'⟩ := last.matures (h.happens earlier).typed hg
    exact ⟨k, hk, matures.trans matures'⟩

end Recorded

end

end RegLisp
