import RegLisp.Proofs.Evaluation

/-!
# Pending calls

The evaluator of programs, which in addition keeps the greatest depth of calls so far. The depth
grows by one for a call that has to come back, and stays the same for a call in return position:
the body of a definition is there, and so are the branches of a conditional that is there. What is
kept makes no difference to values and errors. Calls that only go on to each other in return
position never get deeper, however many they are.
-/

namespace RegLisp

/-- An evaluation that keeps the greatest depth of calls so far. -/
abbrev Counted := StateT Nat Eval

/-- Calls are nested too deep. -/
def Counted.tooDeep {α : Type} : Counted α := fun _ => Eval.tooDeep

/-- Calls have the given depth now. -/
def Counted.enter (pending : Nat) : Counted Unit := modify (max · pending)

mutual

/-- The value of an expression among `pending` calls, in return position or not. -/
def Expr.count (call : Nat → String → List Int64 → Counted Int64) (env : List (String × Int64))
    (pending : Nat) (tail : Bool) : Expr → Counted Int64
  | .const _ value => pure value.toWord.toInt64
  | .var _ _ name =>
    match env.lookup name with
    | some value => pure value
    | none => throw (.unboundVariable name)
  | .binary _ op lhs rhs => do
    let x ← lhs.count call env pending false
    let y ← rhs.count call env pending false
    op.eval x y
  | .cond _ test onTrue onFalse => do
    let x ← test.count call env pending false
    if x = 0 then onFalse.count call env pending tail else onTrue.count call env pending tail
  | .call _ callee args => do
    let values ← Expr.countArgs call env pending args
    if tail then call pending callee values
    else do
      Counted.enter (pending + 1)
      call (pending + 1) callee values

/-- The values of arguments, none of which is in return position. -/
def Expr.countArgs (call : Nat → String → List Int64 → Counted Int64)
    (env : List (String × Int64)) (pending : Nat) : List Expr → Counted (List Int64)
  | [] => pure []
  | arg :: args => do
    let value ← arg.count call env pending false
    let values ← Expr.countArgs call env pending args
    return value :: values

end

/-- The value of a call, which is one of `pending` calls. -/
def countCall (definitions : List Definition) :
    Nat → Nat → String → List Int64 → Counted Int64
  | 0, _, _, _ => .tooDeep
  | depth + 1, pending, name, values =>
    match definitions.find? (·.name == name) with
    | none => throw (.undefinedFunction name)
    | some d =>
      if d.params.length = values.length then
        d.body.count (countCall definitions depth) ((d.params.map Param.name).zip values) pending
          true
      else throw (.wrongArity name)

/-- The last value of expressions that are evaluated in order, outside of all calls. -/
def countEntries (call : Nat → String → List Int64 → Counted Int64) (last : Int64) :
    List Expr → Counted Int64
  | [] => pure last
  | e :: es => do
    let value ← e.count call [] 0 false
    countEntries call value es

/-- Evaluate the entry expressions of the first of some programs, with the greatest depth that
calls come to. -/
def evaluateCounted (programs : List Program) (depth : Nat) : Eval (Int64 × Nat) :=
  (countEntries (countCall (programs.flatMap Program.definitions) depth) 0
    ((programs.head?.map Program.entries).getD [])).run 0

/-- Programs have the value, and their calls come to the depth. -/
def Peaks (programs : List Program) (v : Int64) (peak : Nat) : Prop :=
  ∃ depth, evaluateCounted programs depth = pure (v, peak)

/-! ## Values -/

/-- What the counted evaluation gives, apart from the depth, is what the evaluation gives. -/
def Counted.Erases {α : Type} (x : Counted α) (y : Eval α) : Prop :=
  ∀ peak, Prod.fst <$> x.run peak = y

namespace Counted.Erases

variable {α β : Type}

theorem pure (a : α) : Erases (Pure.pure a) (Pure.pure a) := fun _ => rfl

theorem throw (e : EvalError) : Erases (MonadExcept.throw e : Counted α) (MonadExcept.throw e) :=
  fun _ => rfl

theorem tooDeep : Erases (Counted.tooDeep : Counted α) Eval.tooDeep := fun _ => rfl

theorem bind {x : Counted α} {y : Eval α} {f : α → Counted β} {g : α → Eval β} (h : x.Erases y)
    (h' : ∀ a, (f a).Erases (g a)) : (x >>= f).Erases (y >>= g) := by
  intro peak
  rw [← h peak, StateT.run_bind, map_bind, bind_map_left]
  exact bind_congr fun r => h' r.1 r.2

theorem lift (x : Eval α) : Erases (liftM x) x := by
  intro peak
  simp [liftM, monadLift, MonadLift.monadLift]

/-- The depth is kept beside the evaluation. -/
theorem enter {x : Counted α} {y : Eval α} (pending : Nat) (h : x.Erases y) :
    (do Counted.enter pending; x).Erases y :=
  fun peak => h (max peak pending)

end Counted.Erases

mutual

theorem Expr.count_erases {count : Nat → String → List Int64 → Counted Int64}
    {call : String → List Int64 → Eval Int64}
    (h : ∀ pending name values, (count pending name values).Erases (call name values))
    (env : List (String × Int64)) (pending : Nat) (tail : Bool) :
    ∀ e : Expr, (e.count count env pending tail).Erases (e.eval call env)
  | .const _ _ => .pure _
  | .var _ _ name => by
    simp only [Expr.count, Expr.eval]
    cases env.lookup name with
    | none => exact .throw _
    | some value => exact .pure value
  | .binary _ op lhs rhs => by
    simp only [Expr.count, Expr.eval]
    exact (lhs.count_erases h env pending false).bind fun x =>
      (rhs.count_erases h env pending false).bind fun y => .lift (op.eval x y)
  | .cond _ test onTrue onFalse => by
    simp only [Expr.count, Expr.eval]
    refine (test.count_erases h env pending false).bind fun x => ?_
    split
    · exact onFalse.count_erases h env pending tail
    · exact onTrue.count_erases h env pending tail
  | .call _ callee args => by
    simp only [Expr.count, Expr.eval]
    refine (Expr.countArgs_erases h env pending args).bind fun values => ?_
    split
    · exact h pending callee values
    · exact .enter (pending + 1) (h (pending + 1) callee values)

theorem Expr.countArgs_erases {count : Nat → String → List Int64 → Counted Int64}
    {call : String → List Int64 → Eval Int64}
    (h : ∀ pending name values, (count pending name values).Erases (call name values))
    (env : List (String × Int64)) (pending : Nat) :
    ∀ args : List Expr,
      (Expr.countArgs count env pending args).Erases (Expr.evalArgs call env args)
  | [] => .pure _
  | arg :: args => by
    simp only [Expr.countArgs, Expr.evalArgs]
    exact (arg.count_erases h env pending false).bind fun _ =>
      (Expr.countArgs_erases h env pending args).bind fun _ => .pure _

end

theorem countCall_erases (definitions : List Definition) (depth pending : Nat) (name : String)
    (values : List Int64) :
    (countCall definitions depth pending name values).Erases
      (evalCall definitions depth name values) := by
  induction depth generalizing pending name values with
  | zero => exact .tooDeep
  | succ depth ih =>
    simp only [countCall, evalCall]
    cases definitions.find? (·.name == name) with
    | none => exact .throw _
    | some d =>
      dsimp only
      split
      · exact Expr.count_erases ih _ _ _ _
      · exact .throw _

theorem countEntries_erases {count : Nat → String → List Int64 → Counted Int64}
    {call : String → List Int64 → Eval Int64}
    (h : ∀ pending name values, (count pending name values).Erases (call name values))
    (last : Int64) (es : List Expr) :
    (countEntries count last es).Erases (evalEntries call last es) := by
  induction es generalizing last with
  | nil => exact .pure _
  | cons e es ih => exact (e.count_erases h [] 0 false).bind fun value => ih value

/-- Counting does not change the outcome. -/
theorem fst_evaluateCounted (programs : List Program) (depth : Nat) :
    Prod.fst <$> evaluateCounted programs depth = evaluate programs depth :=
  countEntries_erases (countCall_erases _ depth) _ _ 0

/-- Programs that have a value have a depth of calls, and conversely. -/
theorem evaluates_iff_peaks {programs : List Program} {v : Int64} :
    Evaluates programs (.ok v) ↔ ∃ peak, Peaks programs v peak := by
  constructor
  · rintro ⟨depth, evaluated⟩
    have erased := fst_evaluateCounted programs depth
    rw [evaluated] at erased
    cases counted : evaluateCounted programs depth with
    | none =>
      rw [counted] at erased
      cases erased
    | some outcome =>
      rw [counted] at erased
      cases outcome with
      | error e => cases erased
      | ok r =>
        obtain ⟨w, peak⟩ := r
        cases erased
        exact ⟨peak, depth, counted⟩
  · rintro ⟨peak, depth, counted⟩
    refine ⟨depth, ?_⟩
    rw [← fst_evaluateCounted, counted]
    rfl

/-! ## Chains of calls -/

/-- The evaluation does not bring calls above the depth. -/
def Counted.AtMost {α : Type} (bound : Nat) (x : Counted α) : Prop :=
  ∀ peak a peak', peak ≤ bound → x.run peak = pure (a, peak') → peak' ≤ bound

namespace Counted.AtMost

variable {α β : Type} {bound : Nat}

theorem pure (a : α) : AtMost bound (Pure.pure a) := by
  intro peak _ _ le h
  cases h
  exact le

theorem throw (e : EvalError) : AtMost bound (MonadExcept.throw e : Counted α) := nofun

theorem tooDeep : AtMost bound (Counted.tooDeep : Counted α) := nofun

theorem bind {x : Counted α} {f : α → Counted β} (h : x.AtMost bound)
    (h' : ∀ a, (f a).AtMost bound) : (x >>= f).AtMost bound := by
  intro peak b peak' le ran
  rw [StateT.run_bind] at ran
  cases first : x.run peak with
  | none =>
    rw [first] at ran
    cases ran
  | some outcome =>
    rw [first] at ran
    cases outcome with
    | error e => cases ran
    | ok r => exact h' r.1 r.2 b peak' (h peak r.1 r.2 le first) ran

theorem lift (x : Eval α) : AtMost bound (liftM x) := by
  intro peak a peak' le ran
  cases x with
  | none => cases ran
  | some outcome =>
    cases outcome with
    | error e => cases ran
    | ok b =>
      cases ran
      exact le

theorem enter {x : Counted α} {pending : Nat} (le : pending ≤ bound) (h : x.AtMost bound) :
    (do Counted.enter pending; x).AtMost bound :=
  fun peak a peak' le' => h (max peak pending) a peak' (Nat.max_le.2 ⟨le', le⟩)

end Counted.AtMost

mutual

/-- Whether each call of an expression is allowed, given its position and its callee. -/
def Expr.callsOnly (allowed : Bool → String → Bool) (tail : Bool) : Expr → Bool
  | .const _ _ | .var _ _ _ => true
  | .binary _ _ lhs rhs => lhs.callsOnly allowed false && rhs.callsOnly allowed false
  | .cond _ test onTrue onFalse =>
    test.callsOnly allowed false &&
      (onTrue.callsOnly allowed tail && onFalse.callsOnly allowed tail)
  | .call _ callee args => allowed tail callee && Expr.argsCallOnly allowed args

def Expr.argsCallOnly (allowed : Bool → String → Bool) : List Expr → Bool
  | [] => true
  | arg :: args => arg.callsOnly allowed false && Expr.argsCallOnly allowed args

end

/-- The calls that are allowed among `pending` calls do not come above the depth. -/
def StaysBelow (bound pending : Nat) (call : Nat → String → List Int64 → Counted Int64)
    (allowed : Bool → String → Bool) : Prop :=
  ∀ name values,
    (allowed true name = true → (call pending name values).AtMost bound) ∧
      (allowed false name = true →
        pending + 1 ≤ bound ∧ (call (pending + 1) name values).AtMost bound)

mutual

theorem Expr.count_atMost {call : Nat → String → List Int64 → Counted Int64}
    {allowed : Bool → String → Bool} {bound pending : Nat}
    (h : StaysBelow bound pending call allowed) (env : List (String × Int64)) (tail : Bool) :
    ∀ e : Expr, e.callsOnly allowed tail = true → (e.count call env pending tail).AtMost bound
  | .const _ _, _ => .pure _
  | .var _ _ name, _ => by
    simp only [Expr.count]
    cases env.lookup name with
    | none => exact .throw _
    | some value => exact .pure value
  | .binary _ op lhs rhs, only => by
    simp only [Expr.callsOnly, Bool.and_eq_true] at only
    obtain ⟨left, right⟩ := only
    simp only [Expr.count]
    exact (lhs.count_atMost h env false left).bind fun x =>
      (rhs.count_atMost h env false right).bind fun y => .lift (op.eval x y)
  | .cond _ test onTrue onFalse, only => by
    simp only [Expr.callsOnly, Bool.and_eq_true] at only
    obtain ⟨tested, yes, no⟩ := only
    simp only [Expr.count]
    refine (test.count_atMost h env false tested).bind fun x => ?_
    split
    · exact onFalse.count_atMost h env tail no
    · exact onTrue.count_atMost h env tail yes
  | .call _ callee args, only => by
    simp only [Expr.callsOnly, Bool.and_eq_true] at only
    obtain ⟨allows, others⟩ := only
    simp only [Expr.count]
    refine (Expr.countArgs_atMost h env args others).bind fun values => ?_
    cases tail with
    | true => exact (h callee values).1 allows
    | false =>
      obtain ⟨le, below⟩ := (h callee values).2 allows
      exact .enter le below

theorem Expr.countArgs_atMost {call : Nat → String → List Int64 → Counted Int64}
    {allowed : Bool → String → Bool} {bound pending : Nat}
    (h : StaysBelow bound pending call allowed) (env : List (String × Int64)) :
    ∀ args : List Expr, Expr.argsCallOnly allowed args = true →
      (Expr.countArgs call env pending args).AtMost bound
  | [], _ => .pure _
  | arg :: args, only => by
    simp only [Expr.argsCallOnly, Bool.and_eq_true] at only
    obtain ⟨first, others⟩ := only
    simp only [Expr.countArgs]
    exact (arg.count_atMost h env false first).bind fun _ =>
      (Expr.countArgs_atMost h env args others).bind fun _ => .pure _

end

/-- Definitions of the named functions call only each other, and only in return position. -/
def Chained (definitions : List Definition) (chain : String → Bool) : Prop :=
  ∀ d ∈ definitions, chain d.name = true →
    d.body.callsOnly (fun tail name => tail && chain name) true = true

instance (definitions : List Definition) (chain : String → Bool) :
    Decidable (Chained definitions chain) :=
  inferInstanceAs (Decidable (∀ d ∈ definitions, _ → _))

/-- A call that goes on in a chain of calls stays at its own depth, however long the chain is. -/
theorem Chained.countCall_atMost {definitions : List Definition} {chain : String → Bool}
    (h : Chained definitions chain) (depth pending bound : Nat) {name : String}
    (values : List Int64) (chained : chain name = true) :
    (countCall definitions depth pending name values).AtMost bound := by
  induction depth generalizing name values with
  | zero => exact .tooDeep
  | succ depth ih =>
    simp only [countCall]
    split
    · exact .throw _
    · rename_i d found
      split
      · have named := List.find?_some found
        rw [← eq_of_beq named] at chained
        refine Expr.count_atMost ?_ _ _ _ (h d (List.mem_of_find?_eq_some found) chained)
        exact fun callee values => ⟨fun allowed => ih values allowed, nofun⟩
      · exact .throw _

theorem countEntries_atMost {call : Nat → String → List Int64 → Counted Int64}
    {allowed : Bool → String → Bool} {bound : Nat} (h : StaysBelow bound 0 call allowed)
    (last : Int64) {es : List Expr} (only : ∀ e ∈ es, e.callsOnly allowed false = true) :
    (countEntries call last es).AtMost bound := by
  induction es generalizing last with
  | nil => exact .pure _
  | cons e es ih =>
    rw [List.forall_mem_cons] at only
    exact (e.count_atMost h [] false only.1).bind fun value => ih value only.2

/-- Programs that only start chains of calls have one call pending at most. -/
theorem Chained.peak_le {programs : List Program} {chain : String → Bool} {v : Int64} {peak : Nat}
    (h : Chained (programs.flatMap Program.definitions) chain)
    (starts : ∀ e ∈ (programs.head?.map Program.entries).getD [],
      e.callsOnly (fun _ name => chain name) false = true)
    (peaks : Peaks programs v peak) : peak ≤ 1 := by
  obtain ⟨depth, counted⟩ := peaks
  refine countEntries_atMost ?_ 0 starts 0 v peak (Nat.zero_le _) counted
  exact fun name values => ⟨h.countCall_atMost depth 0 1 values,
    fun chained => ⟨Nat.le_refl _, h.countCall_atMost depth 1 1 values chained⟩⟩

end RegLisp
