import RegLisp.Program.Basic

/-!
# What programs mean

A big-step evaluator of programs, without registers or code. Expressions are evaluated from left
to right, arguments before the call, and a call finds its callee by name among the definitions of
all programs. The evaluator counts how deep calls are nested; when the given depth is not enough
there is no outcome yet, and an outcome once found stays the same for every greater depth.
-/

namespace RegLisp

/-- Why an expression has no value. -/
inductive EvalError where
  | divisionByZero
  /-- The quotient has no 64-bit representation. -/
  | arithmeticOverflow
  | unboundVariable (name : String)
  | undefinedFunction (name : String)
  | wrongArity (name : String)
  deriving DecidableEq, Repr

/-- A value, an error, or nothing when calls are nested too deep. -/
abbrev Eval := ExceptT EvalError Option

/-- Calls are nested too deep. -/
def Eval.tooDeep {α : Type} : Eval α := (none : Option (Except EvalError α))

/-- The value of an operation. Sums, differences and products wrap around; a quotient is rounded
toward zero. -/
def BinaryOp.eval : BinaryOp → Int64 → Int64 → Eval Int64
  | add, x, y => pure (x + y)
  | sub, x, y => pure (x - y)
  | mul, x, y => pure (x * y)
  | div, x, y =>
    if y = 0 then throw .divisionByZero
    else if x = Int64.minValue ∧ y = -1 then throw .arithmeticOverflow
    else pure (.ofInt (x.toInt.tdiv y.toInt))
  | gt, x, y => pure (if y < x then 1 else 0)

mutual

/-- The value of an expression, given what calls give and the values of variables. -/
def Expr.eval (call : String → List Int64 → Eval Int64) (env : List (String × Int64)) :
    Expr → Eval Int64
  | .const _ value => pure value.toWord.toInt64
  | .var _ _ name =>
    match env.lookup name with
    | some value => pure value
    | none => throw (.unboundVariable name)
  | .binary _ op lhs rhs => do
    let x ← lhs.eval call env
    let y ← rhs.eval call env
    op.eval x y
  | .cond _ test onTrue onFalse => do
    let x ← test.eval call env
    if x = 0 then onFalse.eval call env else onTrue.eval call env
  | .call _ callee args => do
    let values ← Expr.evalArgs call env args
    call callee values

/-- The values of arguments, from left to right. -/
def Expr.evalArgs (call : String → List Int64 → Eval Int64) (env : List (String × Int64)) :
    List Expr → Eval (List Int64)
  | [] => pure []
  | arg :: args => do
    let value ← arg.eval call env
    let values ← Expr.evalArgs call env args
    return value :: values

end

/-- The value of a call, when at most `depth` calls are nested. -/
def evalCall (definitions : List Definition) : Nat → String → List Int64 → Eval Int64
  | 0, _, _ => .tooDeep
  | depth + 1, name, values =>
    match definitions.find? (·.name == name) with
    | none => throw (.undefinedFunction name)
    | some d =>
      if d.params.length = values.length then
        d.body.eval (evalCall definitions depth) ((d.params.map Param.name).zip values)
      else throw (.wrongArity name)

/-- The last value of expressions that are evaluated in order, or the given one if there are
none. -/
def evalEntries (call : String → List Int64 → Eval Int64) (last : Int64) :
    List Expr → Eval Int64
  | [] => pure last
  | e :: es => do
    let value ← e.eval call []
    evalEntries call value es

/-- Evaluate the entry expressions of the first of some programs, with the definitions of all of
them. -/
def evaluate (programs : List Program) (depth : Nat) : Eval Int64 :=
  evalEntries (evalCall (programs.flatMap Program.definitions) depth) 0
    ((programs.head?.map Program.entries).getD [])

/-- The outcome of programs, at some depth of calls. -/
def Evaluates (programs : List Program) (outcome : Except EvalError Int64) : Prop :=
  ∃ depth, evaluate programs depth = some outcome

/-! ## Depth -/

/-- Everything that the first computation gives, the second gives as well. -/
def Eval.Below {α : Type} (x y : Eval α) : Prop :=
  ∀ r : Except EvalError α, x = some r → y = some r

namespace Eval

variable {α β : Type}

theorem Below.refl (x : Eval α) : x.Below x := fun _ h => h

theorem tooDeep_below (x : Eval α) : tooDeep.Below x := nofun

theorem Below.bind {x y : Eval α} {f g : α → Eval β} (h : x.Below y)
    (h' : ∀ a, (f a).Below (g a)) : (x >>= f).Below (y >>= g) := by
  intro r hr
  cases x with
  | none => cases hr
  | some o =>
    rw [h o rfl]
    cases o with
    | error e => exact hr
    | ok a => exact h' a r hr

end Eval

mutual

theorem Expr.eval_below {call call' : String → List Int64 → Eval Int64}
    (h : ∀ name values, (call name values).Below (call' name values))
    (env : List (String × Int64)) : ∀ e : Expr, (e.eval call env).Below (e.eval call' env)
  | .const _ _ => .refl _
  | .var _ _ _ => .refl _
  | .binary _ _ lhs rhs => by
    simp only [Expr.eval]
    exact (lhs.eval_below h env).bind fun _ => (rhs.eval_below h env).bind fun _ => .refl _
  | .cond _ test onTrue onFalse => by
    simp only [Expr.eval]
    refine (test.eval_below h env).bind fun x => ?_
    split
    · exact onFalse.eval_below h env
    · exact onTrue.eval_below h env
  | .call _ callee args => by
    simp only [Expr.eval]
    exact (Expr.evalArgs_below h env args).bind fun values => h callee values

theorem Expr.evalArgs_below {call call' : String → List Int64 → Eval Int64}
    (h : ∀ name values, (call name values).Below (call' name values))
    (env : List (String × Int64)) :
    ∀ args : List Expr, (Expr.evalArgs call env args).Below (Expr.evalArgs call' env args)
  | [] => .refl _
  | arg :: args => by
    simp only [Expr.evalArgs]
    exact (arg.eval_below h env).bind fun _ =>
      (Expr.evalArgs_below h env args).bind fun _ => .refl _

end

theorem evalCall_below (definitions : List Definition) (depth : Nat) (name : String)
    (values : List Int64) :
    (evalCall definitions depth name values).Below
      (evalCall definitions (depth + 1) name values) := by
  induction depth generalizing name values with
  | zero => exact Eval.tooDeep_below _
  | succ depth ih =>
    simp only [evalCall]
    split
    · exact .refl _
    · split
      · exact Expr.eval_below ih _ _
      · exact .refl _

theorem evalEntries_below {call call' : String → List Int64 → Eval Int64}
    (h : ∀ name values, (call name values).Below (call' name values)) (last : Int64)
    (es : List Expr) : (evalEntries call last es).Below (evalEntries call' last es) := by
  induction es generalizing last with
  | nil => exact .refl _
  | cons e es ih => exact (e.eval_below h []).bind fun value => ih value

/-- A greater depth keeps an outcome. -/
theorem evaluate_mono {programs : List Program} {depth depth' : Nat} (le : depth ≤ depth')
    {outcome : Except EvalError Int64} (h : evaluate programs depth = some outcome) :
    evaluate programs depth' = some outcome := by
  induction le with
  | refl => exact h
  | step _ ih => exact evalEntries_below (evalCall_below _ _) _ _ _ ih

/-- Programs have at most one outcome. -/
theorem Evaluates.unique {programs : List Program} {o o' : Except EvalError Int64}
    (h : Evaluates programs o) (h' : Evaluates programs o') : o = o' := by
  obtain ⟨depth, h⟩ := h
  obtain ⟨depth', h'⟩ := h'
  have one := evaluate_mono (Nat.le_max_left depth depth') h
  have other := evaluate_mono (Nat.le_max_right depth depth') h'
  exact Option.some.inj (one.symm.trans other)

end RegLisp
