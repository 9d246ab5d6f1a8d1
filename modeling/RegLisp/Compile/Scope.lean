import RegLisp.Compile.Error

/-!
# Scopes

Names bound to registers, in frames that nest. A name means its binding in the innermost frame
that has one, and a frame binds a name at most once.
-/

namespace RegLisp

/-- The register and type of a bound name. -/
structure Binding where
  reg : Nat
  type : ValueType
  deriving DecidableEq, Repr

/-- The frames of a scope, innermost first, each with its bindings, latest first. -/
structure Scope where
  frames : List (List (String × Binding)) := []
  deriving DecidableEq, Repr

namespace Scope

def depth (s : Scope) : Nat := s.frames.length

/-- Open a frame. -/
def push (s : Scope) : Scope := ⟨[] :: s.frames⟩

/-- Close the innermost frame, if there is one. -/
def pop (s : Scope) : Scope := ⟨s.frames.tail⟩

/-- Bind a name in the innermost frame; without a frame one is opened. -/
def declare (s : Scope) (name : String) (binding : Binding) : Except CompileError Scope :=
  match s.frames with
  | [] => .ok ⟨[[(name, binding)]]⟩
  | inner :: outer =>
    if (inner.lookup name).isSome then .error (.alreadyDefined name)
    else .ok ⟨((name, binding) :: inner) :: outer⟩

/-- The binding of a name in the innermost frame that has one. -/
def lookup (s : Scope) (name : String) : Option Binding :=
  s.frames.findSome? (List.lookup name)

end Scope

end RegLisp
