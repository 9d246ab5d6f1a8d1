import RegLisp.Proofs.FunctionTable
import RegLisp.Proofs.GenerationPasses

/-!
# Calls and the signatures of their callees

A call is checked against what is known of its callee at that moment, and what is known can grow
later on. As long as the callee is a mere reference, the call itself leaves its types in the entry,
and all that comes later has to agree with them. The entry of a definition is left as it is. So
there is one way in which an argument can have another type than the parameter has in the end: the
definition came first and leaves the type of the parameter open, and a declaration that fills it in
comes after the call.
-/

namespace RegLisp

/-! ## Signatures that globals give -/

/-- The function that a global is about, with its types, that of the result first. -/
def Global.signature? : Global → Option (String × List ValueType)
  | .define d => some (d.name, d.returns :: d.paramTypes)
  | .declare d => some (d.name, d.returns :: d.params)
  | .entry _ => none

/-- The entry of the function has all types that the signature knows. -/
def Tabled (fs : Array FunctionEntry) (signature : String × List ValueType) : Prop :=
  ∃ f ∈ fs, f.name = signature.1 ∧ TypesSettle signature.2 f.types

section

variable {es : List Event} {e : Event} {fs fs' : Array FunctionEntry}
  {signature : String × List ValueType}

theorem Tabled.edited (recorded : Recorded es fs) (edited : Edited fs e fs')
    (h : Tabled fs signature) : Tabled fs' signature := by
  obtain ⟨f, mem, named, settles⟩ := h
  obtain ⟨i, hf⟩ := Array.mem_iff_getElem?.1 mem
  obtain ⟨g, hg, matures⟩ := edited.matures recorded.typed hf
  exact ⟨g, Array.mem_of_getElem? hg, matures.name_eq.trans named, settles.trans matures.types⟩

theorem Edited.tabled {global : Global} (recorded : Recorded es fs)
    (edited : Edited fs (.enter global) fs') (given : global.signature? = some signature) :
    Tabled fs' signature := by
  cases edited with
  | spare spares =>
    cases global with
    | define d => exact spares.elim
    | declare d => exact spares.elim
    | entry body => cases given
  | add absent adds =>
    cases global with
    | define d =>
      cases given
      cases adds
      exact ⟨_, Array.mem_push_self, rfl, .refl _⟩
    | declare d =>
      cases given
      cases adds
      exact ⟨_, Array.mem_push_self, rfl, .refl _⟩
    | entry body => cases given
  | @change index f g entry_eq changes =>
    have mem : g ∈ fs.setIfInBounds index g :=
      Array.mem_of_getElem? ((getElem?_set_eq_some entry_eq).2 (.inr ⟨rfl, rfl⟩))
    have types_eq := FunctionEntry.types_eq (recorded.typed f (Array.mem_of_getElem? entry_eq))
    refine ⟨g, mem, ?_⟩
    cases global with
    | define d =>
      cases given
      obtain ⟨named, -, agree, rfl⟩ := changes
      rw [← types_eq] at agree
      exact ⟨named, (typesSettle_fillUnknown (signaturesAgree_symm agree)).1⟩
    | declare d =>
      cases given
      obtain ⟨named, agree, rfl⟩ := changes
      rw [← types_eq] at agree
      exact ⟨named, (typesSettle_fillUnknown agree).2⟩
    | entry body => cases given

/-- Whatever the order of globals, the table has in the end what each of them has said. -/
theorem Happens.tabled (h : Happens #[] es fs) {global : Global} (mem : .enter global ∈ es)
    (given : global.signature? = some signature) : Tabled fs signature := by
  induction h with
  | nil => cases mem
  | snoc before last ih =>
    have recorded := Recorded.start.happens before
    rcases List.mem_append.1 mem with mem | mem
    · exact (ih mem).edited recorded last
    · cases List.mem_singleton.1 mem
      exact last.tabled recorded given

end

/-! ## Types that a definition leaves open -/

theorem ValueType.eq_unknown {type : ValueType} (h : ¬ type.isKnown = true) :
    type = .unknown := by
  cases type <;> simp [isKnown] at h ⊢

theorem TypesSettle.unknown {xs ys : List ValueType} (h : TypesSettle xs ys) {k : Nat}
    (hk : ys[k]? = some .unknown) : xs[k]? = some .unknown := by
  have inside : k < xs.length := by
    rw [h.length_eq]
    exact (List.getElem?_eq_some_iff.1 hk).1
  have hx := List.getElem?_eq_getElem inside
  by_cases known : xs[k].isKnown = true
  · have same := Option.some.inj ((h.getElem? hx known).symm.trans hk)
    rw [same] at known
    cases known
  · rw [hx, ValueType.eq_unknown known]

theorem SignaturesAgree.getElem? {xs ys : List ValueType} (h : SignaturesAgree xs ys) {k : Nat}
    {x y : ValueType} (hx : xs[k]? = some x) (hy : ys[k]? = some y) :
    x = y ∨ x = .unknown ∨ y = .unknown :=
  List.forall₂_zip h (List.mem_of_getElem? (List.getElem?_zip_eq_some.2 ⟨hx, hy⟩))

theorem getElem?_fillUnknown {xs ys : List ValueType} {k : Nat} {x : ValueType}
    (h : (fillUnknown xs ys)[k]? = some x) :
    ∃ a b, xs[k]? = some a ∧ ys[k]? = some b ∧ x = if a.isKnown then a else b := by
  unfold fillUnknown at h
  rw [List.getElem?_zipWith_eq_some] at h
  obtain ⟨a, b, ha, hb, rfl⟩ := h
  exact ⟨a, b, ha, hb, rfl⟩

section

variable {es : List Event} {fs fs' : Array FunctionEntry} {f g : FunctionEntry} {i k : Nat}

/-- If a parameter of a definition has no type, then the definition gave none. -/
theorem Happens.exists_untyped (h : Happens #[] es fs) (mem : f ∈ fs)
    (internal : f.isExternal = false) (untyped : f.params[k]? = some .unknown) :
    ∃ d : Definition, .enter (.define d) ∈ es ∧ d.name = f.name ∧
      d.paramTypes[k]? = some .unknown := by
  have recorded : Recorded es fs := Recorded.start.happens h
  obtain ⟨d, entered, named⟩ := mem_defined.1 ((recorded.internal f mem).1 internal)
  obtain ⟨f', mem', named', settles⟩ := h.tabled entered rfl
  obtain ⟨i, hf⟩ := Array.mem_iff_getElem?.1 mem
  obtain ⟨j, hf'⟩ := Array.mem_iff_getElem?.1 mem'
  obtain rfl := recorded.distinct i j f f' hf hf' (named.symm.trans named'.symm)
  obtain rfl := Option.some.inj (hf.symm.trans hf')
  refine ⟨d, entered, named, ?_⟩
  rw [FunctionEntry.types_eq (recorded.typed f mem)] at settles
  cases settles with
  | cons _ params => exact TypesSettle.unknown params untyped

/-- Only a declaration gives a type to a parameter of a definition. -/
theorem Edited.exists_declaration {e : Event} {type : ValueType} (h : Edited fs e fs')
    (hf : fs[i]? = some f) (internal : f.isExternal = false) (hg : fs'[i]? = some g)
    (untyped : f.params[k]? = some .unknown) (typed : g.params[k]? = some type)
    (known : type.isKnown = true) :
    ∃ d : Declaration, e = .enter (.declare d) ∧ d.name = f.name ∧
      d.params[k]? = some type := by
  -- the parameter cannot have got a type if the entry has stayed as it was
  have changed : g.params ≠ f.params := by
    intro same
    rw [same, untyped] at typed
    cases typed
    cases known
  cases h with
  | spare spares =>
    obtain rfl := Option.some.inj (hf.symm.trans hg)
    exact absurd rfl changed
  | add absent adds =>
    obtain rfl := Option.some.inj ((getElem?_push_eq_some.2 (.inl hf)).symm.trans hg)
    exact absurd rfl changed
  | change entry_eq changes =>
    rcases (getElem?_set_eq_some entry_eq).1 hg with ⟨-, hg⟩ | ⟨rfl, rfl⟩
    · obtain rfl := Option.some.inj (hf.symm.trans hg)
      exact absurd rfl changed
    obtain rfl := Option.some.inj (entry_eq.symm.trans hf)
    cases e with
    | enter global =>
      cases global with
      | define d => cases internal.symm.trans changes.2.1
      | declare d =>
        obtain ⟨named, -, rfl⟩ := changes
        rw [FunctionEntry.params_declare] at typed
        obtain ⟨a, b, ha, hb, rfl⟩ := getElem?_fillUnknown typed
        cases ha.symm.trans untyped
        exact ⟨d, rfl, named.symm, hb⟩
      | entry body => exact changes.elim
    | call site =>
      obtain ⟨-, -, -, rfl⟩ := changes
      rw [internal] at changed
      exact absurd rfl changed
    | finish index' type' =>
      obtain ⟨-, reservation, rfl⟩ := changes
      exact absurd rfl changed

end

/-! ## Calls -/

/-- How the type of an argument of a call stands to the type of its parameter, after the given
events. -/
inductive Passed (es : List Event) (c : CallSite) (k : Nat) : (arg param : ValueType) → Prop
  | unknown {param : ValueType} : Passed es c k .unknown param
  | same {type : ValueType} : Passed es c k type type
  /-- The definition has left the type of the parameter open, and nobody has given one yet. -/
  | untyped {arg : ValueType} {d : Definition} (order : [.enter (.define d), .call c].Sublist es)
      (defines : d.name = c.callee) (leaves : d.paramTypes[k]? = some .unknown) :
      Passed es c k arg .unknown
  /-- A declaration has given a type after the call. -/
  | late {arg param : ValueType} {d : Definition} {d' : Declaration}
      (order : [.enter (.define d), .call c, .enter (.declare d')].Sublist es)
      (defines : d.name = c.callee) (declares : d'.name = c.callee)
      (leaves : d.paramTypes[k]? = some .unknown) (gives : d'.params[k]? = some param)
      (known : param.isKnown = true) : Passed es c k arg param

/-- The entry of the callee has a parameter for each argument. -/
structure CallSite.Stands (c : CallSite) (es : List Event) (fs : Array FunctionEntry)
    (f : FunctionEntry) : Prop where
  entry_eq : fs[c.index]? = some f
  named : f.name = c.callee
  arity : f.params.length = c.args.length
  passed : ∀ (k : Nat) (arg param : ValueType), c.argTypes[k]? = some arg →
    f.params[k]? = some param → Passed es c k arg param

section

variable {es : List Event} {e : Event} {fs fs' : Array FunctionEntry} {c : CallSite}
  {f : FunctionEntry}

/-- What is passed at a position stays right when the types of the parameter are kept, and when a
declaration gives the type that the definition did not. -/
theorem Passed.edited {k : Nat} {arg param param' : ValueType} (h : Passed es c k arg param)
    (settles : param.Settles param')
    (declared : ∀ d : Definition, .enter (.define d) ∈ es → d.name = c.callee →
      param = .unknown → param'.isKnown = true →
      ∃ d' : Declaration, e = .enter (.declare d') ∧ d'.name = c.callee ∧
        d'.params[k]? = some param') :
    Passed (es ++ [e]) c k arg param' := by
  cases h with
  | unknown => exact .unknown
  | same =>
    by_cases known : arg.isKnown = true
    · rw [settles known]
      exact .same
    · rw [ValueType.eq_unknown known]
      exact .unknown
  | @untyped _ d order defines leaves =>
    by_cases known : param'.isKnown = true
    · obtain ⟨d', rfl, declares, gives⟩ :=
        declared d (order.subset List.mem_cons_self) defines rfl known
      exact .late (order.append (.refl [_])) defines declares leaves gives known
    · rw [ValueType.eq_unknown known]
      exact .untyped (order.trans (List.sublist_append_left _ _)) defines leaves
  | late order defines declares leaves gives known =>
    rw [settles known]
    exact .late (order.trans (List.sublist_append_left _ _)) defines declares leaves gives known

theorem CallSite.Stands.edited (recorded : Recorded es fs) (edited : Edited fs e fs')
    (h : c.Stands es fs f) : ∃ g, c.Stands (es ++ [e]) fs' g := by
  obtain ⟨g, hg, matures⟩ := edited.matures recorded.typed h.entry_eq
  refine ⟨g, hg, matures.name_eq.trans h.named, matures.params.length_eq.symm.trans h.arity, ?_⟩
  intro k arg param' hk hparam'
  have inside : k < f.params.length := by
    rw [matures.params.length_eq]
    exact (List.getElem?_eq_some_iff.1 hparam').1
  have hparam := List.getElem?_eq_getElem inside
  refine (h.passed k arg _ hk hparam).edited ?_ ?_
  · intro known
    exact Option.some.inj (hparam'.symm.trans (matures.params.getElem? hparam known))
  · intro d entered defines unknown known
    have mem := Array.mem_of_getElem? h.entry_eq
    have internal := (recorded.internal f mem).2
      (mem_defined.2 ⟨d, entered, defines.trans h.named.symm⟩)
    rw [unknown] at hparam
    obtain ⟨d', same, declares, gives⟩ :=
      edited.exists_declaration h.entry_eq internal hg hparam hparam' known
    exact ⟨d', same, declares.trans h.named, gives⟩

/-- A call stands when it is resolved. -/
theorem Edited.stands (happens : Happens #[] es fs) (edited : Edited fs (.call c) fs') :
    ∃ g, c.Stands (es ++ [.call c]) fs' g := by
  cases edited with
  | spare spares => exact spares.elim
  | add absent adds =>
    obtain ⟨index_eq, rfl⟩ := adds
    refine ⟨c.entry, getElem?_push_eq_some.2 (.inr ⟨index_eq, rfl⟩), rfl, List.length_map _, ?_⟩
    intro k arg param hk hparam
    obtain rfl := Option.some.inj (hk.symm.trans hparam)
    exact .same
  | @change index f g entry_eq changes =>
    obtain ⟨rfl, named, agree, rfl⟩ := changes
    have placed (g : FunctionEntry) : (fs.setIfInBounds c.index g)[c.index]? = some g :=
      (getElem?_set_eq_some entry_eq).2 (.inr ⟨rfl, rfl⟩)
    have arity : f.params.length = c.args.length :=
      agree.length_eq.trans (List.length_map _)
    by_cases external : f.isExternal = true
    · rw [if_pos external]
      have params_eq := f.params_refine c.argTypes
      refine ⟨_, placed _, named, ?_, ?_⟩
      · rw [params_eq, ← (typesSettle_fillUnknown agree).1.length_eq, arity]
      intro k arg param hk hparam
      rw [params_eq] at hparam
      obtain ⟨a, b, ha, hb, rfl⟩ := getElem?_fillUnknown hparam
      obtain rfl := Option.some.inj (hb.symm.trans hk)
      rcases agree.getElem? ha hb with rfl | rfl | rfl
      · rw [ite_self]
        exact .same
      · exact .same
      · exact .unknown
    · rw [if_neg external]
      refine ⟨_, placed _, named, arity, ?_⟩
      intro k arg param hk hparam
      rcases agree.getElem? hparam hk with rfl | rfl | rfl
      · exact .same
      · obtain ⟨d, entered, defines, leaves⟩ := happens.exists_untyped
          (Array.mem_of_getElem? entry_eq) (Bool.eq_false_iff.2 external) hparam
        exact .untyped ((List.singleton_sublist.2 entered).append (.refl [_]))
          (defines.trans named) leaves
      · exact .unknown

/-- Each call stands in the end. -/
theorem Happens.stands (h : Happens #[] es fs) (mem : .call c ∈ es) : ∃ f, c.Stands es fs f := by
  induction h with
  | nil => cases mem
  | snoc before last ih =>
    rcases List.mem_append.1 mem with mem | mem
    · obtain ⟨f, stands⟩ := ih mem
      exact stands.edited (Recorded.start.happens before) last
    · cases List.mem_singleton.1 mem
      exact last.stands before

end

/-! ## Programs -/

/-- The items of the globals `middle`, in a program that starts with the globals `front`. -/
def itemsBetween (front middle : List Global) (items : List Item) : List Item :=
  (items.drop (front.countP Global.hasCode)).take (middle.countP Global.hasCode)

/-- The program defines the callee and leaves the type of a parameter open, the call comes in this
definition or behind it, and a declaration behind the call gives the type. -/
def Program.DeclaresLate (p : Program) (items : List Item) (c : CallSite) (k : Nat)
    (type : ValueType) : Prop :=
  ∃ (front middle back : List Global) (d : Definition) (d' : Declaration),
    p.globals = front ++ .define d :: middle ++ .declare d' :: back ∧
      c ∈ (itemsBetween front (.define d :: middle) items).flatMap (·.term.callSites) ∧
      d.name = c.callee ∧ d'.name = c.callee ∧ d.paramTypes[k]? = some .unknown ∧
        d'.params[k]? = some type

/-- Between two globals that are entered come the calls of the items from the first one on. -/
theorem Narrated.between {globals : List Global} {items : List Item} {es es₁ es₂ es₃ : List Event}
    {notes : Nat} {first second : Global} (h : Narrated globals items es notes)
    (split : es = es₁ ++ .enter first :: es₂ ++ .enter second :: es₃) :
    es₂.filterMap Event.site? = (itemsBetween (es₁.filterMap Event.global?)
      (first :: es₂.filterMap Event.global?) items).flatMap (·.term.callSites) := by
  have before := h.ordered es₁ first (es₂ ++ .enter second :: es₃) (by simp [split])
  have behind := h.ordered (es₁ ++ .enter first :: es₂) second es₃ split
  have entered : (Event.enter first :: es₂).filterMap Event.global? =
      first :: es₂.filterMap Event.global? := rfl
  rw [List.filterMap_append, List.filterMap_cons_none rfl, before, List.filterMap_append,
    entered, List.countP_append, List.take_add, List.flatMap_append] at behind
  exact List.append_cancel_left behind

theorem exists_split_of_sublist {α : Type} {x y z : α} {xs : List α}
    (h : [x, y, z].Sublist xs) : ∃ a b c d, xs = a ++ x :: (b ++ y :: c) ++ z :: d := by
  obtain ⟨front, rest, rfl, hx, hyz⟩ := List.cons_sublist_iff.1 h
  obtain ⟨middle, rest, rfl, hy, hz⟩ := List.cons_sublist_iff.1 hyz
  obtain ⟨a, b, rfl⟩ := List.append_of_mem hx
  obtain ⟨b', c, rfl⟩ := List.append_of_mem hy
  obtain ⟨c', d, rfl⟩ := List.append_of_mem (List.singleton_sublist.1 hz)
  exact ⟨a, b ++ b', c ++ c', d, by simp⟩

/-- What the signatures of a program and its calls have to do with the function table in the end. -/
structure Program.SignaturesKept (p : Program) (items : List Item) (fs : Array FunctionEntry) :
    Prop where
  /-- Whatever a definition or a declaration says of its types holds. -/
  given : ∀ global ∈ p.globals, ∀ signature, global.signature? = some signature →
    Tabled fs signature
  /-- A call has the arity of its callee, and arguments have the types of their parameters, unless
  a declaration comes too late. -/
  called : ∀ c ∈ items.flatMap (·.term.callSites), ∃ f, fs[c.index]? = some f ∧
    f.name = c.callee ∧ f.params.length = c.args.length ∧
    ∀ (k : Nat) (arg param : ValueType), c.argTypes[k]? = some arg → f.params[k]? = some param →
      arg.compatible param = true ∨ p.DeclaresLate items c k param

theorem Passed.compatible_or {p : Program} {items : List Item} {es : List Event} {notes : Nat}
    {c : CallSite} {k : Nat} {arg param : ValueType} (narrated : Narrated p.globals items es notes)
    (h : Passed es c k arg param) :
    arg.compatible param = true ∨ p.DeclaresLate items c k param := by
  cases h with
  | unknown => exact .inl (by simp [ValueType.compatible, ValueType.isKnown])
  | same => exact .inl (by simp [ValueType.compatible])
  | untyped order defines leaves => exact .inl (by simp [ValueType.compatible, ValueType.isKnown])
  | @late _ _ d d' order defines declares leaves gives known =>
    obtain ⟨es₁, es₂, es₃, es₄, split⟩ := exists_split_of_sublist order
    have called := narrated.between split
    refine .inr ⟨es₁.filterMap Event.global?, (es₂ ++ .call c :: es₃).filterMap Event.global?,
      es₄.filterMap Event.global?, d, d', ?_, ?_, defines, declares, leaves, gives⟩
    · rw [← narrated.entered, split]
      simp [List.filterMap_cons, Event.global?]
    · rw [← called]
      simp [Event.site?]

theorem Program.allocate_signatures {p : Program} {items : List Item} {t : Tables}
    (h : p.allocate = .ok (items, t)) : p.SignaturesKept items t.functions := by
  obtain ⟨es, -, happens, narrated⟩ := Program.watch_of_allocate h
  constructor
  · intro global mem signature given
    simp only [← narrated.entered, List.mem_filterMap, Event.global?_eq_some,
      exists_eq_right] at mem
    exact happens.tabled mem given
  · intro c mem
    simp only [← narrated.resolved, List.mem_filterMap, Event.site?_eq_some, exists_eq_right] at mem
    obtain ⟨f, stands⟩ := happens.stands mem
    refine ⟨f, stands.entry_eq, stands.named, stands.arity, ?_⟩
    intro k arg param hk hparam
    exact (stands.passed k arg param hk hparam).compatible_or narrated

/-- Laying out the code changes no signature. -/
theorem Program.SignaturesKept.placed {p : Program} {items : List Item} {t : Tables}
    (h : p.SignaturesKept items t.functions) : p.SignaturesKept items (placedTable items t) := by
  constructor
  · intro global mem signature given
    obtain ⟨f, mem, named, settles⟩ := h.given global mem signature given
    obtain ⟨i, hf⟩ := Array.mem_iff_getElem?.1 mem
    obtain ⟨address, placed⟩ := getElem?_placedTable items hf
    exact ⟨_, Array.mem_of_getElem? placed, named, settles⟩
  · intro c mem
    obtain ⟨f, hf, called⟩ := h.called c mem
    obtain ⟨address, placed⟩ := getElem?_placedTable items hf
    exact ⟨_, placed, called⟩

/-- In a module that is compiled, the final signatures are those that its definitions and
declarations give, and calls agree with them as far as no declaration comes too late. -/
theorem Program.compile_keeps_signatures {p : Program} {name : String} {unit : CompiledUnit}
    (h : p.compile name = .ok unit) :
    ∃ items t, p.allocate = .ok (items, t) ∧ p.SignaturesKept items unit.functions := by
  unfold Program.compile at h
  cases allocated : p.allocate with
  | error e =>
    rw [allocated] at h
    cases h
  | ok r =>
    obtain ⟨items, t⟩ := r
    rw [allocated] at h
    cases h
    refine ⟨items, t, rfl, ?_⟩
    rw [(Program.allocate_spec allocated).generate_eq]
    exact (Program.allocate_signatures allocated).placed

/-- A program that calls one function before it is defined and declares another one after it was
called, in agreement with the call. -/
def declaredAfter : Program :=
  ⟨[.entry (.call false "scale" [.const false (.int 1)]),
    .define ⟨"shift", [⟨"x", .unknown⟩], .unknown, .call true "scale" [.var false .unknown "x"]⟩,
    .entry (.call false "shift" [.const false (.double ⟨0x4000000000000000⟩)]),
    .define ⟨"scale", [⟨"n", .unknown⟩], .int, .const true (.int 3)⟩,
    .declare ⟨"shift", [.double], .int⟩]⟩

theorem Program.compile_keeps_signatures_declaredAfter :
    ∃ unit, declaredAfter.compile "declared" = .ok unit ∧
      unit.functions.map (fun f => (f.name, f.params)) =
        #[("scale", [.int]), ("shift", [.double])] ∧
      ∃ items t, declaredAfter.allocate = .ok (items, t) ∧
        declaredAfter.SignaturesKept items unit.functions := by
  have compiles : (declaredAfter.compile "declared").toOption.map (fun unit =>
      unit.functions.map fun f => (f.name, f.params)) =
        some #[("scale", [.int]), ("shift", [.double])] := by
    decide +kernel
  cases compiled : declaredAfter.compile "declared" with
  | error e =>
    rw [compiled] at compiles
    cases compiles
  | ok unit =>
    rw [compiled] at compiles
    exact ⟨unit, rfl, Option.some.inj compiles, Program.compile_keeps_signatures compiled⟩

/-- A program that declares a function after it was called, with another type. -/
def declaredLate : Program :=
  ⟨[.define ⟨"f", [⟨"x", .unknown⟩], .unknown, .const true (.int 1)⟩,
    .entry (.call false "f" [.const false (.int 2)]),
    .declare ⟨"f", [.double], .unknown⟩]⟩

/-- Arguments do not always have the types of their parameters. -/
theorem declaredLate_disagrees :
    ∃ unit items t, declaredLate.compile "m" = .ok unit ∧ declaredLate.allocate = .ok (items, t) ∧
      ¬ ∀ c ∈ items.flatMap (·.term.callSites), ∀ f, unit.functions[c.index]? = some f →
        SignaturesAgree f.params c.argTypes := by
  have compiles : (declaredLate.compile "m").toOption.map (fun unit =>
      unit.functions.map FunctionEntry.params) = some #[[.double]] := by
    decide +kernel
  have allocates : declaredLate.allocate.toOption.map (fun r =>
      (r.1.flatMap (·.term.callSites)).map fun c => (c.index, c.argTypes)) =
        some [(0, [.int])] := by
    decide +kernel
  cases compiled : declaredLate.compile "m" with
  | error e =>
    rw [compiled] at compiles
    cases compiles
  | ok unit =>
    cases allocated : declaredLate.allocate with
    | error e =>
      rw [allocated] at allocates
      cases allocates
    | ok r =>
      rw [compiled] at compiles
      rw [allocated] at allocates
      refine ⟨unit, r.1, r.2, rfl, rfl, ?_⟩
      intro agree
      obtain ⟨c, mem, site⟩ := List.mem_map.1 (Option.some.inj allocates ▸ List.mem_cons_self)
      obtain ⟨index_eq, args_eq⟩ := Prod.mk.inj site
      have entry : (unit.functions.map FunctionEntry.params)[0]? = some [.double] :=
        congrArg (·[0]?) (Option.some.inj compiles)
      rw [Array.getElem?_map, Option.map_eq_some_iff] at entry
      obtain ⟨f, hf, params_eq⟩ := entry
      have := agree c mem f (by rwa [index_eq])
      rw [params_eq, args_eq] at this
      exact absurd (typesAgree_iff.2 this) (by decide)

end RegLisp
