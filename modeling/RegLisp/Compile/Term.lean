import RegLisp.Program.Basic

/-!
# Terms

A term is an expression with everything that its code needs: the register of its value, its type,
its slots in the constant pool, and the index of each function that it calls.
-/

namespace RegLisp

/-- An expression with registers, types, slots and indices. -/
inductive Term where
  | const (reg slot : Nat) (value : Literal)
  | var (reg : Nat) (type : ValueType) (name : String)
  | binary (reg : Nat) (type : ValueType) (op : BinaryOp) (lhs rhs : Term)
  /-- The slots hold the addresses behind the conditional and of its second branch. -/
  | cond (reg : Nat) (type : ValueType) (joinSlot elseSlot : Nat) (test onTrue onFalse : Term)
  /-- The index is what looking the callee up gives. -/
  | call (reg : Nat) (type : ValueType) (tail : Bool) (callee : String) (index : Nat)
      (args : List Term)
  deriving Repr, Inhabited

namespace Term

/-- The register that holds the value. -/
def reg : Term → Nat
  | const reg _ _ | var reg _ _ | binary reg _ _ _ _ | cond reg _ _ _ _ _ _ | call reg _ _ _ _ _ => reg

/-- The type of the value. -/
def type : Term → ValueType
  | const _ _ value => value.type
  | var _ type _ | binary _ type _ _ _ | cond _ type _ _ _ _ _ | call _ type _ _ _ _ => type

/-- Whether a term is a call that reuses the frame of its caller. -/
def isTailCall : Term → Bool
  | call _ _ tail _ _ _ => tail
  | _ => false

end Term

/-- A global that has code: an entry expression, or the body of the function at an index. -/
inductive Item where
  | entry (value : Term)
  | body (index : Nat) (value : Term)
  deriving Repr

/-- The values that the entry section computes. -/
def entryTerms (items : List Item) : List Term :=
  items.filterMap fun
    | .entry value => some value
    | .body _ _ => none

/-- The bodies of the functions, with their indices. -/
def bodies (items : List Item) : List (Nat × Term) :=
  items.filterMap fun
    | .entry _ => none
    | .body index value => some (index, value)

end RegLisp
