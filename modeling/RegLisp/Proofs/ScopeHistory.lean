import Mathlib.Data.List.Infix
import RegLisp.Compile.Scope

/-!
# Scopes and their histories

All that can be asked of a scope is to open and close frames, to declare names and to look them up.
What a name means is told by the history of what was asked: by its declaration in the innermost
frame that has one, where a declaration counts as long as nothing since then has closed a frame that
was open before it. Therefore frames that are opened and closed again leave no trace, whatever was
declared in them.
-/

namespace RegLisp.Scope

/-- What can be asked of a scope. -/
inductive Action where
  | push
  | pop
  | declare (name : String) (binding : Binding)
  | lookup (name : String)
  deriving DecidableEq, Repr

/-- Do what is asked. A declaration that fails leaves the scope as it is. -/
def act (s : Scope) : Action → Scope
  | .push => s.push
  | .pop => s.pop
  | .declare name binding =>
    match s.declare name binding with
    | .ok s' => s'
    | .error _ => s
  | .lookup _ => s

/-- The scope after all that is asked. -/
def after (s : Scope) (actions : List Action) : Scope := actions.foldl act s

/-- The scope that a history makes of an empty one. -/
def ofHistory (history : List Action) : Scope := after {} history

section

variable {s : Scope} {a : Action} {actions : List Action} {name : String} {b : Binding} {k n : Nat}

theorem after_append (s : Scope) (actions later : List Action) :
    s.after (actions ++ later) = (s.after actions).after later := List.foldl_append

theorem after_concat (s : Scope) (actions : List Action) (a : Action) :
    s.after (actions ++ [a]) = (s.after actions).act a := s.after_append actions [a]

/-! ## Declarations -/

/-- How declarations end: in the innermost frame, in a new one, or with an error. -/
inductive Declares (name : String) (b : Binding) : Scope → Except CompileError Scope → Prop
  | first : Declares name b ⟨[]⟩ (.ok ⟨[[(name, b)]]⟩)
  | fresh {inner : List (String × Binding)} {outer : List (List (String × Binding))}
      (free : inner.lookup name = none) :
      Declares name b ⟨inner :: outer⟩ (.ok ⟨((name, b) :: inner) :: outer⟩)
  | taken {inner : List (String × Binding)} {outer : List (List (String × Binding))} {b' : Binding}
      (bound : inner.lookup name = some b') :
      Declares name b ⟨inner :: outer⟩ (.error (.alreadyDefined name))

theorem declares (s : Scope) (name : String) (b : Binding) :
    Declares name b s (s.declare name b) := by
  obtain ⟨frames⟩ := s
  cases frames with
  | nil => exact .first
  | cons inner outer =>
    cases found : inner.lookup name with
    | none => simpa [declare, found] using Declares.fresh found
    | some b' => simpa [declare, found] using Declares.taken found

/-- Declare a name in a scope that is changed in place: a frame is opened if there is none, before
the name is looked for. -/
def declareInPlace (name : String) (binding : Binding) : EStateM CompileError Scope Unit := do
  if (← get).frames.isEmpty then modify push
  match (← get).frames with
  | [] => return
  | inner :: outer =>
    if (inner.lookup name).isSome then throw (.alreadyDefined name)
    set (Scope.mk (((name, binding) :: inner) :: outer))

/-- A declaration in place ends in the same way, and one that fails has changed nothing. -/
theorem declareInPlace_eq (s : Scope) (name : String) (b : Binding) :
    (declareInPlace name b).run s =
      match s.declare name b with
      | .ok s' => .ok () s'
      | .error e => .error e s := by
  have ends := s.declares name b
  generalize s.declare name b = result at ends
  cases ends with
  | first => rfl
  | fresh free => simp [declareInPlace, free]
  | taken bound => simp [declareInPlace, bound]

/-! ## Frames that actions leave open -/

/-- The actions close no frame but those that they open, and `n` of these are still open. -/
def Opens (actions : List Action) (n : Nat) : Prop :=
  (∀ before, before <+: actions → before.count .pop ≤ before.count .push) ∧
    actions.count .pop + n = actions.count .push

/-- The actions close the frames that they open, and no other. -/
def Balanced (actions : List Action) : Prop := Opens actions 0

instance (actions : List Action) (n : Nat) : Decidable (Opens actions n) :=
  decidable_of_iff ((∀ before ∈ actions.inits, before.count .pop ≤ before.count .push) ∧
    actions.count .pop + n = actions.count .push) (by simp only [Opens, List.mem_inits])

instance (actions : List Action) : Decidable (Balanced actions) :=
  inferInstanceAs (Decidable (Opens actions 0))

/-- An action leaves a frame, `k` frames out from the innermost one, at `n` frames out. -/
def Action.Moves : Action → (k n : Nat) → Prop
  | .push, k, n => n = k + 1
  | .pop, k, n => k = n + 1
  | .declare .., k, n | .lookup _, k, n => n = k

theorem Action.moves_iff : a.Moves k n ↔ k + [a].count .push = n + [a].count .pop := by
  cases a <;> simp [Moves] <;> omega

theorem opens_nil : Opens [] n ↔ n = 0 := by
  simp [Opens]

theorem opens_concat : Opens (actions ++ [a]) n ↔ ∃ k, Opens actions k ∧ a.Moves k n := by
  simp only [Opens, List.prefix_concat_iff, forall_eq_or_imp, List.count_append, Action.moves_iff]
  constructor
  · rintro ⟨⟨total, keeps⟩, count_eq⟩
    have own := keeps actions (List.prefix_refl _)
    exact ⟨actions.count .push - actions.count .pop, ⟨keeps, by omega⟩, by omega⟩
  · rintro ⟨k, ⟨keeps, count_eq⟩, moves⟩
    exact ⟨⟨by omega, keeps⟩, by omega⟩

/-! ## Frames around actions -/

section

variable {inner : List (String × Binding)} {outer : List (List (String × Binding))}

theorem exists_frames_declare (frames_eq : s.frames = inner :: outer) :
    ∃ inner', (s.act (.declare name b)).frames = inner' :: outer := by
  have ends := s.declares name b
  simp only [act]
  generalize s.declare name b = result at ends
  cases ends with
  | first => cases frames_eq
  | fresh free =>
    cases frames_eq
    exact ⟨_, rfl⟩
  | taken bound => exact ⟨inner, frames_eq⟩

/-- Actions that close only frames of their own leave those around the first one as they are. There
has to be a first one: without a frame, a declaration opens one. -/
theorem frames_after (frames_eq : s.frames = inner :: outer) (opens : Opens actions n) :
    ∃ own inner', own.length = n ∧ (s.after actions).frames = own ++ inner' :: outer := by
  induction actions using List.reverseRecOn generalizing n with
  | nil =>
    obtain rfl := opens_nil.1 opens
    exact ⟨[], inner, rfl, frames_eq⟩
  | append_singleton actions a ih =>
    obtain ⟨k, opens, moves⟩ := opens_concat.1 opens
    obtain ⟨own, inner', rfl, frames_eq⟩ := ih opens
    rw [after_concat]
    cases a with
    | push => exact ⟨[] :: own, inner', moves.symm, congrArg ([] :: ·) frames_eq⟩
    | pop =>
      cases own with
      | nil => cases moves
      | cons frame own =>
        exact ⟨own, inner', Nat.succ.inj moves, congrArg List.tail frames_eq⟩
    | declare name b =>
      -- the innermost frame changes, which is the first one when no other is open
      cases own with
      | nil =>
        obtain ⟨inner'', frames_eq⟩ := exists_frames_declare frames_eq
        exact ⟨[], inner'', moves.symm, frames_eq⟩
      | cons frame own =>
        obtain ⟨frame', frames_eq⟩ := exists_frames_declare frames_eq
        exact ⟨frame' :: own, inner', moves.symm, frames_eq⟩
    | lookup name => exact ⟨own, inner', moves.symm, frames_eq⟩

end

/-- A frame that is opened and closed again, with balanced actions between, leaves no trace. -/
theorem after_push_pop (s : Scope) (balanced : Balanced actions) :
    s.after (.push :: actions ++ [.pop]) = s := by
  have frames_eq : s.push.frames = [] :: s.frames := rfl
  obtain ⟨own, inner, length_eq, frames_eq⟩ := frames_after frames_eq balanced
  obtain rfl := List.eq_nil_of_length_eq_zero length_eq
  rw [after_concat]
  exact congrArg Scope.mk (congrArg List.tail frames_eq)

/-! ## Bindings by frame -/

/-- The binding of a name in the frame that is `n` frames out from the innermost one. -/
def bindingAt (s : Scope) (n : Nat) (name : String) : Option Binding :=
  s.frames[n]?.bind (List.lookup name)

section

variable (inner : List (String × Binding)) (outer : List (List (String × Binding)))

@[simp] theorem bindingAt_nil : (Scope.mk []).bindingAt n name = none := rfl

@[simp] theorem bindingAt_zero : (Scope.mk (inner :: outer)).bindingAt 0 name = inner.lookup name :=
  rfl

@[simp] theorem bindingAt_succ :
    (Scope.mk (inner :: outer)).bindingAt (n + 1) name = (Scope.mk outer).bindingAt n name := rfl

end

theorem bindingAt_declare {name' : String} {b' : Binding} :
    (s.act (.declare name' b')).bindingAt n name = some b ↔
      (name' = name ∧ b' = b ∧ n = 0 ∧ ∃ s', s.declare name' b' = .ok s') ∨
        s.bindingAt n name = some b := by
  have ends := s.declares name' b'
  simp only [act]
  generalize s.declare name' b' = result at ends
  cases ends with
  | taken bound => simp
  | first | fresh free =>
    cases n with
    | succ n => simp
    | zero =>
      by_cases same : name' = name
      · subst same
        simp [*]
      · simp [List.lookup_cons, beq_false_of_ne (Ne.symm same), same]

/-- What an action does to the bindings of a frame: it adds one, or it moves the frame. -/
theorem bindingAt_act :
    (s.act a).bindingAt n name = some b ↔
      (a = .declare name b ∧ n = 0 ∧ ∃ s', s.declare name b = .ok s') ∨
        ∃ k, s.bindingAt k name = some b ∧ a.Moves k n := by
  cases a with
  | push => cases n <;> simp [act, push, Action.Moves]
  | pop =>
    obtain ⟨frames⟩ := s
    cases frames <;> simp [act, pop, Action.Moves]
  | lookup name' => simp [act, Action.Moves]
  | declare name' b' =>
    rw [bindingAt_declare]
    constructor
    · rintro (⟨rfl, rfl, rfl, declared⟩ | found)
      · exact .inl ⟨rfl, rfl, declared⟩
      · exact .inr ⟨n, found, rfl⟩
    · rintro (⟨same, rfl, declared⟩ | ⟨k, found, rfl⟩)
      · cases same
        exact .inl ⟨rfl, rfl, rfl, declared⟩
      · exact .inr found

/-- A name is looked up in the innermost frame that has it. -/
theorem lookup_eq_some_iff :
    s.lookup name = some b ↔
      ∃ n, s.bindingAt n name = some b ∧ ∀ k b', s.bindingAt k name = some b' → n ≤ k := by
  obtain ⟨frames⟩ := s
  induction frames with
  | nil => simp [lookup]
  | cons inner outer ih =>
    rw [lookup, List.findSome?_cons]
    cases found : inner.lookup name with
    | some c =>
      constructor
      · rintro ⟨⟩
        exact ⟨0, found, fun _ _ _ => Nat.zero_le _⟩
      · rintro ⟨n, bound, least⟩
        obtain rfl := Nat.le_zero.1 (least 0 c found)
        exact found.symm.trans bound
    | none =>
      refine ih.trans ⟨?_, ?_⟩
      · rintro ⟨n, bound, least⟩
        refine ⟨n + 1, bound, fun k b' bound' => ?_⟩
        cases k with
        | zero => cases found.symm.trans bound'
        | succ k => exact Nat.succ_le_succ (least k b' bound')
      · rintro ⟨n, bound, least⟩
        cases n with
        | zero => cases found.symm.trans bound
        | succ n =>
          exact ⟨n, bound, fun k b' bound' => Nat.le_of_succ_le_succ (least (k + 1) b' bound')⟩

theorem declare_eq_error_iff {e : CompileError} :
    s.declare name b = .error e ↔
      e = .alreadyDefined name ∧ ∃ b', s.bindingAt 0 name = some b' := by
  have ends := s.declares name b
  generalize s.declare name b = result at ends
  cases ends with
  | first => simp
  | fresh free => simp [free]
  | taken bound => simp [bound, eq_comm]

/-! ## Declarations that count -/

/-- The name was declared with success, in a frame that is still open and is now `n` frames out from
the innermost one. -/
def Declared (history : List Action) (name : String) (b : Binding) (n : Nat) : Prop :=
  ∃ before later s, history = before ++ .declare name b :: later ∧
    (ofHistory before).declare name b = .ok s ∧ Opens later n

theorem not_declared_nil : ¬ Declared [] name b n := by
  rintro ⟨before, later, s, split, -⟩
  simp at split

theorem declared_concat {history : List Action} :
    Declared (history ++ [a]) name b n ↔
      (a = .declare name b ∧ n = 0 ∧ ∃ s, (ofHistory history).declare name b = .ok s) ∨
        ∃ k, Declared history name b k ∧ a.Moves k n := by
  constructor
  · rintro ⟨before, later, s, split, declared, opens⟩
    -- the declaration is the new action, or the new action comes later
    rcases List.eq_nil_or_concat later with rfl | ⟨later, c, rfl⟩
    · obtain ⟨rfl, rfl⟩ := List.append_singleton_inj.1 split
      exact .inl ⟨rfl, opens_nil.1 opens, s, declared⟩
    · rw [List.concat_eq_append] at split opens
      rw [← List.cons_append, ← List.append_assoc] at split
      obtain ⟨rfl, rfl⟩ := List.append_singleton_inj.1 split
      obtain ⟨k, opens, moves⟩ := opens_concat.1 opens
      exact .inr ⟨k, ⟨before, later, s, rfl, declared, opens⟩, moves⟩
  · rintro (⟨rfl, rfl, s, declared⟩ | ⟨k, ⟨before, later, s, rfl, declared, opens⟩, moves⟩)
    · exact ⟨history, [], s, rfl, declared, opens_nil.2 rfl⟩
    · refine ⟨before, later ++ [a], s, ?_, declared, opens_concat.2 ⟨k, opens, moves⟩⟩
      rw [List.append_assoc, List.cons_append]

/-- The bindings of each frame are the declarations that count for it. -/
theorem bindingAt_ofHistory (history : List Action) :
    (ofHistory history).bindingAt n name = some b ↔ Declared history name b n := by
  induction history using List.reverseRecOn generalizing n with
  | nil => exact iff_of_false (by simp [ofHistory, after, bindingAt]) not_declared_nil
  | append_singleton history a ih =>
    -- an action does to the bindings what it does to the declarations that count
    have concat : ofHistory (history ++ [a]) = (ofHistory history).act a := after_concat {} history a
    rw [concat, bindingAt_act, declared_concat]
    simp only [ih]

/-! ## Scopes with a history -/

/-- No frame has a name twice. -/
def Distinct (s : Scope) : Prop := ∀ frame ∈ s.frames, (frame.map Prod.fst).Nodup

theorem lookup_eq_none_iff {frame : List (String × Binding)} :
    frame.lookup name = none ↔ name ∉ frame.map Prod.fst := by
  simp only [List.lookup_eq_none_iff, bne_iff_ne, List.mem_map, not_exists, not_and]
  exact forall₂_congr fun _ _ => ne_comm

theorem Distinct.act (h : s.Distinct) (a : Action) : (s.act a).Distinct := by
  cases a with
  | push => exact List.forall_mem_cons.2 ⟨List.nodup_nil, h⟩
  | pop => exact fun frame mem => h frame (List.mem_of_mem_tail mem)
  | lookup name => exact h
  | declare name b =>
    have ends := s.declares name b
    simp only [Scope.act]
    generalize s.declare name b = result at ends
    cases ends with
    | first => simp [Distinct]
    | taken bound => exact h
    | fresh free =>
      obtain ⟨inner, outer⟩ := List.forall_mem_cons.1 h
      exact List.forall_mem_cons.2 ⟨List.nodup_cons.2 ⟨lookup_eq_none_iff.1 free, inner⟩, outer⟩

theorem distinct_ofHistory (history : List Action) : (ofHistory history).Distinct := by
  induction history using List.reverseRecOn with
  | nil => simp [ofHistory, after, Distinct]
  | append_singleton history a ih =>
    rw [ofHistory, after_concat]
    exact ih.act a

/-- The names of a frame can be declared one after the other, the latest last. -/
theorem after_declarations (s : Scope) {frame : List (String × Binding)}
    (nodup : (frame.map Prod.fst).Nodup) :
    s.push.after (frame.reverse.map fun (name, b) => .declare name b) = ⟨frame :: s.frames⟩ := by
  induction frame with
  | nil => rfl
  | cons first rest ih =>
    obtain ⟨new, nodup⟩ := List.nodup_cons.1 nodup
    rw [List.reverse_cons, List.map_append, List.map_cons, List.map_nil, after_concat, ih nodup]
    simp [act, declare, lookup_eq_none_iff.2 new]

theorem exists_history (h : s.Distinct) : ∃ history, ofHistory history = s := by
  obtain ⟨frames⟩ := s
  induction frames with
  | nil => exact ⟨[], rfl⟩
  | cons frame outer ih =>
    obtain ⟨nodup, distinct⟩ := List.forall_mem_cons.1 h
    obtain ⟨history, made⟩ := ih distinct
    refine ⟨history ++ .push :: frame.reverse.map fun (name, b) => .declare name b, ?_⟩
    have opened : after {} history = ⟨outer⟩ := made
    rw [ofHistory, after_append, opened]
    exact after_declarations ⟨outer⟩ nodup

/-! ## Nesting -/

/-- What a history tells about a name. -/
structure Told (history : List Action) (name : String) : Prop where
  /-- The name means its declaration in the innermost frame that has one. -/
  lookup_iff : ∀ b, (ofHistory history).lookup name = some b ↔
    ∃ n, Declared history name b n ∧ ∀ k b', Declared history name b' k → n ≤ k
  /-- Only a name that the innermost frame already has cannot be declared. -/
  error_iff : ∀ b e, (ofHistory history).declare name b = .error e ↔
    e = .alreadyDefined name ∧ ∃ b', Declared history name b' 0
  /-- In place, a declaration makes the same scope, or it fails and leaves the scope as it was. -/
  in_place_ok : ∀ b s, (declareInPlace name b).run (ofHistory history) = .ok () s ↔
    (ofHistory history).declare name b = .ok s
  in_place_error : ∀ b e s, (declareInPlace name b).run (ofHistory history) = .error e s ↔
    (ofHistory history).declare name b = .error e ∧ s = ofHistory history

/-- Scopes nest: what balanced actions do in a frame of their own cannot be seen behind it. And at
any time a scope is what its history tells, where every scope without repeated names has one. -/
theorem scopes_nest :
    (∀ (s : Scope) (actions : List Action), Balanced actions →
      (s.after (.push :: actions ++ [.pop])).depth = s.depth ∧
        ∀ name, (s.after (.push :: actions ++ [.pop])).lookup name = s.lookup name) ∧
      (∀ s : Scope, s.Distinct ↔ ∃ history, ofHistory history = s) ∧
        ∀ (history : List Action) (name : String), Told history name := by
  refine ⟨fun s actions balanced => ?_, fun s => ⟨exists_history, ?_⟩, fun history name => ?_⟩
  · rw [after_push_pop s balanced]
    exact ⟨rfl, fun _ => rfl⟩
  · rintro ⟨history, rfl⟩
    exact distinct_ofHistory history
  · constructor
    · intro b
      simp only [lookup_eq_some_iff, bindingAt_ofHistory]
    · intro b e
      simp only [declare_eq_error_iff, bindingAt_ofHistory]
    · intro b s
      rw [declareInPlace_eq]
      cases (ofHistory history).declare name b <;> simp
    · intro b e s
      rw [declareInPlace_eq]
      cases (ofHistory history).declare name b <;> simp [eq_comm]

end

/-- A name that is declared twice in one frame, and once more in a frame inside it. -/
def shadowing : List Action :=
  [.declare "x" ⟨2, .int⟩, .declare "x" ⟨3, .int⟩, .push, .declare "x" ⟨4, .double⟩, .lookup "x",
    .pop, .declare "y" ⟨5, .int⟩]

/-- A declaration in the frame around it. There is no frame yet, so it opens one. -/
def shadowed : List Action := [.declare "x" ⟨1, .int⟩]

theorem scopes_nest_shadowing :
    Balanced shadowing ∧
      ((ofHistory shadowed).after (.push :: shadowing ++ [.pop])).depth = 1 ∧
      ((ofHistory shadowed).after (.push :: shadowing ++ [.pop])).lookup "x" = some ⟨1, .int⟩ ∧
      (∃ n, Declared (shadowed ++ .push :: shadowing) "x" ⟨2, .int⟩ n ∧
        ∀ k b, Declared (shadowed ++ .push :: shadowing) "x" b k → n ≤ k) ∧
      ∃ b, Declared (shadowed ++ .push :: shadowing) "y" b 0 := by
  have balanced : Balanced shadowing := by decide
  obtain ⟨nests, -, told⟩ := scopes_nest
  obtain ⟨depth_eq, lookup_eq⟩ := nests (ofHistory shadowed) shadowing balanced
  refine ⟨balanced, depth_eq, lookup_eq "x", ?_, ?_⟩
  · exact ((told _ "x").lookup_iff _).1 (by decide)
  · exact (((told _ "y").error_iff ⟨6, .int⟩ (.alreadyDefined "y")).1 (by decide)).2

end RegLisp.Scope
