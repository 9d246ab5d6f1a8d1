import RegLisp.Program.Basic
import RegLisp.Syntax.Reader

/-!
# Surface forms

How s-expressions are read as programs:

* `(def name (params) [type] body)` defines a function; a parameter is a name, which is an `int`,
  or `(name type)`;
* `(extern name (types) type)` declares one;
* every other top-level form is an expression: a literal, a variable, an operator with two
  operands, `(if test then else)`, or a call.

A branch of a conditional may stand in one more pair of parentheses.
-/

namespace RegLisp

open RegLisp.Syntax

/-- The roles of a name. -/
inductive NameRole where
  | function
  | parameter
  | var
  deriving DecidableEq, Repr

def NameRole.text : NameRole → String
  | function => "function"
  | parameter => "parameter"
  | var => "variable"

/-- Why an s-expression is no program form. What was found is given as its text. -/
inductive FormError where
  | expectedName (role : NameRole) (found : String)
  | expectedType (found : String)
  | expectedParameter (found : String)
  | malformedDefinition (found : String)
  | malformedDeclaration (found : String)
  | parametersNotList (function : String)
  | typesNotList (function : String)
  | emptyForm
  | expectedHead (found : String)
  | operandCount (operator : String) (expected found : Nat)
  | notTopLevel (keyword : String)
  deriving DecidableEq, Repr

def FormError.message : FormError → String
  | expectedName role found => s!"expected {role.text} name, found {found}"
  | expectedType found => s!"expected type (int, single or double), found {found}"
  | expectedParameter found => s!"expected (name type), found {found}"
  | malformedDefinition found => s!"def expects (def name (params) [type] body), found {found}"
  | malformedDeclaration found => s!"extern expects (extern name (types) type), found {found}"
  | parametersNotList function => s!"parameter list of {function} must be a list"
  | typesNotList function => s!"parameter types of {function} must be a list"
  | emptyForm => "empty expression ()"
  | expectedHead found => s!"expected operator or function name, found {found}"
  | operandCount operator expected found => s!"{operator} expects {expected} operands, found {found}"
  | notTopLevel keyword => s!"{keyword} is only allowed at top level"

/-- The words that open a form of the language. -/
def keywords : List String := ["def", "extern", "if"]

/-- Whether a symbol can name a function, parameter or variable: it is no keyword and no
operator. -/
def isName (symbol : String) : Bool :=
  !keywords.contains symbol && (BinaryOp.ofSymbol? symbol).isNone

/-- The name that an expression is. -/
def nameOf (role : NameRole) (e : SExpr) : Except FormError String :=
  match e.symbol? with
  | some symbol => if isName symbol then .ok symbol else .error (.expectedName role e.text)
  | none => .error (.expectedName role e.text)

/-- The type that an expression names. -/
def typeOf (e : SExpr) : Except FormError ValueType :=
  match e.symbol?.bind ValueType.ofName? with
  | some type => .ok type
  | none => .error (.expectedType e.text)

/-- A parameter: a name of type `int`, or a name and a type. -/
def Param.ofSExpr (e : SExpr) : Except FormError Param :=
  match e with
  | .list [name, type] => do return ⟨← nameOf .parameter name, ← typeOf type⟩
  | .list _ => .error (.expectedParameter e.text)
  | .atom _ => do return ⟨← nameOf .parameter e, .int⟩

/-- Whether the only item of a branch is the branch itself. A name is one only when it is a
parameter; other names in parentheses are calls without arguments. -/
def standsAlone (params : List String) : SExpr → Bool
  | .atom (.symbol name) => params.contains name
  | _ => true

mutual

/-- Read an expression in a function with the given parameters. A `branch` of a conditional may
stand in one more pair of parentheses. -/
def Expr.ofSExpr (params : List String) (branch : Bool) : SExpr → Except FormError Expr
  | .atom (.literal value) => .ok (.const false value)
  | .atom (.symbol name) => do
    return .var false .unknown (← nameOf .var (.atom (.symbol name)))
  | .list items => Expr.ofItems params branch items

/-- Read the expression in a list of items: an operator, a conditional or a call. -/
def Expr.ofItems (params : List String) (branch : Bool) : List SExpr → Except FormError Expr
  | [] => .error .emptyForm
  | head :: args =>
    if branch && args.isEmpty && standsAlone params head then Expr.ofSExpr params false head
    else
      match head.symbol? with
      | none => .error (.expectedHead head.text)
      | some symbol =>
        match BinaryOp.ofSymbol? symbol with
        | some op =>
          match args with
          | [lhs, rhs] => do
            let lhs ← Expr.ofSExpr params false lhs
            let rhs ← Expr.ofSExpr params false rhs
            return .binary false op lhs rhs
          | _ => .error (.operandCount symbol 2 args.length)
        | none =>
          if symbol == "if" then
            match args with
            | [test, onTrue, onFalse] => do
              let test ← Expr.ofSExpr params false test
              let onTrue ← Expr.ofSExpr params true onTrue
              let onFalse ← Expr.ofSExpr params true onFalse
              return .cond false test onTrue onFalse
            | _ => .error (.operandCount symbol 3 args.length)
          else if keywords.contains symbol then .error (.notTopLevel symbol)
          else do return .call false symbol (← Expr.ofArgs params args)

/-- Read the arguments of a call. -/
def Expr.ofArgs (params : List String) : List SExpr → Except FormError (List Expr)
  | [] => .ok []
  | arg :: args => do
    let arg ← Expr.ofSExpr params false arg
    let args ← Expr.ofArgs params args
    return arg :: args

end

/-- Read a definition from the items of its form. -/
def Definition.ofItems (items : List SExpr) : Except FormError Definition := do
  let (name, params, returns, body) ←
    match items with
    | [_, name, params, body] => .ok (name, params, none, body)
    | [_, name, params, type, body] => .ok (name, params, some type, body)
    | _ => .error (.malformedDefinition (SExpr.list items).text)
  let name ← nameOf .function name
  let params ←
    match params.items? with
    | some params => params.mapM Param.ofSExpr
    | none => .error (.parametersNotList name)
  let returns ←
    match returns with
    | some type => typeOf type
    | none => .ok .unknown
  let body ← Expr.ofSExpr (params.map Param.name) false body
  return .ofBody name params returns body

/-- Read a declaration from the items of its form. -/
def Declaration.ofItems (items : List SExpr) : Except FormError Declaration := do
  let (name, params, returns) ←
    match items with
    | [_, name, params, returns] => .ok (name, params, returns)
    | _ => .error (.malformedDeclaration (SExpr.list items).text)
  let name ← nameOf .function name
  let params ←
    match params.items? with
    | some params => params.mapM typeOf
    | none => .error (.typesNotList name)
  return ⟨name, params, ← typeOf returns⟩

/-- Read a top-level form. -/
def Global.ofSExpr (e : SExpr) : Except FormError Global :=
  match e with
  | .list items =>
    match items.head?.bind SExpr.symbol? with
    | some "def" => do return .define (← Definition.ofItems items)
    | some "extern" => do return .declare (← Declaration.ofItems items)
    | _ => do return .entry (← Expr.ofSExpr [] false e)
  | .atom _ => do return .entry (← Expr.ofSExpr [] false e)

/-- Why a text is no program. -/
inductive SyntaxError where
  | read (cause : ReadError)
  | form (cause : FormError)
  deriving DecidableEq, Repr

def SyntaxError.message : SyntaxError → String
  | read cause => cause.message
  | form cause => cause.message

/-- Read a program from its text. -/
def Program.parse (text : String) : Except SyntaxError Program :=
  match SExpr.parse text with
  | .error e => .error (.read e)
  | .ok forms =>
    match forms.mapM Global.ofSExpr with
    | .error e => .error (.form e)
    | .ok globals => .ok ⟨globals⟩

end RegLisp
