import RegLisp.Value

/-!
# Programs

A program is a list of globals: definitions of functions, declarations of functions that other
modules define, and expressions that the module evaluates when it runs. Each expression carries a
flag that says whether it stands in return position; a call in return position may reuse the
frame of its caller.
-/

namespace RegLisp

/-- The operators on two operands. -/
inductive BinaryOp where
  | add
  | sub
  | mul
  | div
  | gt
  deriving DecidableEq, Repr

def BinaryOp.symbol : BinaryOp → String
  | add => "+"
  | sub => "-"
  | mul => "*"
  | div => "/"
  | gt => ">"

def BinaryOp.ofSymbol? : String → Option BinaryOp
  | "+" => some add
  | "-" => some sub
  | "*" => some mul
  | "/" => some div
  | ">" => some gt
  | _ => none

@[simp] theorem BinaryOp.ofSymbol?_symbol (op : BinaryOp) : ofSymbol? op.symbol = some op := by
  cases op <;> rfl

/-- An expression. The flag of each node says whether it stands in return position. -/
inductive Expr where
  | const (tail : Bool) (value : Literal)
  /-- A variable, with the type that its use asks for. -/
  | var (tail : Bool) (type : ValueType) (name : String)
  | binary (tail : Bool) (op : BinaryOp) (lhs rhs : Expr)
  | cond (tail : Bool) (test onTrue onFalse : Expr)
  | call (tail : Bool) (callee : String) (args : List Expr)
  deriving Repr, Inhabited

namespace Expr

/-- Whether an expression stands in return position. -/
def isTail : Expr → Bool
  | const tail _ | var tail _ _ | binary tail _ _ _ | cond tail _ _ _ | call tail _ _ => tail

/-- Whether an expression is a call in return position. -/
def isTailCall : Expr → Bool
  | call tail _ _ => tail
  | _ => false

/-- The type that an expression has by itself: that of a literal, or the one that the use of a
variable asks for. -/
def ownType : Expr → ValueType
  | const _ value => value.type
  | var _ type _ => type
  | _ => .unknown

/-- Put an expression in or out of return position. The branches of a conditional go with it; its
test never does. -/
def setTail (tail : Bool) : Expr → Expr
  | const _ value => const tail value
  | var _ type name => var tail type name
  | binary _ op lhs rhs => binary tail op lhs rhs
  | cond _ test onTrue onFalse => cond tail test (onTrue.setTail tail) (onFalse.setTail tail)
  | call _ callee args => call tail callee args

@[simp] theorem isTail_setTail (tail : Bool) (e : Expr) : (e.setTail tail).isTail = tail := by
  cases e <;> rfl

end Expr

/-- A named parameter. -/
structure Param where
  name : String
  type : ValueType
  deriving DecidableEq, Repr

/-- The definition of a function. -/
structure Definition where
  name : String
  params : List Param
  /-- The declared type of the result, or `unknown` to take the body's. -/
  returns : ValueType
  body : Expr
  deriving Repr

/-- A definition with the given body in return position. -/
def Definition.ofBody (name : String) (params : List Param) (returns : ValueType) (body : Expr) :
    Definition :=
  ⟨name, params, returns, body.setTail true⟩

def Definition.paramTypes (d : Definition) : List ValueType := d.params.map Param.type

/-- The declaration of a function that another module defines. -/
structure Declaration where
  name : String
  params : List ValueType
  returns : ValueType
  deriving DecidableEq, Repr

/-- A top-level item of a program. -/
inductive Global where
  | define (definition : Definition)
  | declare (declaration : Declaration)
  /-- An expression that the module evaluates when it runs. -/
  | entry (body : Expr)
  deriving Repr

/-- The globals of a module in the order of its text. -/
structure Program where
  globals : List Global
  deriving Repr

def Program.definitions (p : Program) : List Definition :=
  p.globals.filterMap fun
    | .define d => some d
    | _ => none

def Program.entries (p : Program) : List Expr :=
  p.globals.filterMap fun
    | .entry e => some e
    | _ => none

end RegLisp
