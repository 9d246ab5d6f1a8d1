import RegLisp.Proofs.ReturnPosition

/-!
# The globals that forms are read as

Reading a top-level form gives a global whose names are free, whose declared types are known and
whose flags say truly what stands in return position. Every such global is read from a form: the
one that it is written as. A branch that is a list is written in one more pair of parentheses,
because the only pair around a parameter's name would be taken for the optional one.
-/

namespace RegLisp

open RegLisp.Syntax

/-! ## Well-formed globals -/

/-- A name that means nothing else in a form: no keyword and no operator. -/
def FreeName (name : String) : Prop :=
  name ∉ ["def", "extern", "if"] ∧ ∀ op : BinaryOp, name ≠ op.symbol

theorem isName_iff {name : String} : isName name = true ↔ FreeName name := by
  rw [isName_iff_not_mem]
  refine and_congr Iff.rfl ?_
  rw [Option.eq_none_iff_forall_ne_some]
  exact forall_congr' fun op => not_congr BinaryOp.ofSymbol?_eq_some_iff

mutual

/-- All variables and callees of an expression have free names, and no use of a variable asks for
a type yet. -/
def Expr.Named : Expr → Prop
  | .const _ _ => True
  | .var _ type name => type = .unknown ∧ FreeName name
  | .binary _ _ lhs rhs => lhs.Named ∧ rhs.Named
  | .cond _ test onTrue onFalse => test.Named ∧ onTrue.Named ∧ onFalse.Named
  | .call _ callee args => FreeName callee ∧ Expr.ArgsNamed args

def Expr.ArgsNamed : List Expr → Prop
  | [] => True
  | arg :: args => arg.Named ∧ Expr.ArgsNamed args

end

/-- A definition that a form can give. Its result may have any type, also the unknown one. -/
structure Definition.WellFormed (d : Definition) : Prop where
  name : FreeName d.name
  params : ∀ p ∈ d.params, FreeName p.name ∧ p.type.isKnown = true
  named : d.body.Named
  flagged : d.body.Flagged true

structure Declaration.WellFormed (d : Declaration) : Prop where
  name : FreeName d.name
  params : ∀ type ∈ d.params, type.isKnown = true
  returns : d.returns.isKnown = true

def Global.WellFormed : Global → Prop
  | .define d => d.WellFormed
  | .declare d => d.WellFormed
  | .entry e => e.Named ∧ e.Flagged false

/-! ## Forms give well-formed globals -/

theorem Expr.Named.setTail (tail : Bool) : ∀ {e : Expr}, e.Named → (e.setTail tail).Named
  | .const _ _, h => h
  | .var _ _ _, h => h
  | .binary _ _ _ _, h => h
  | .cond _ _ _ _, ⟨test, onTrue, onFalse⟩ => ⟨test, onTrue.setTail tail, onFalse.setTail tail⟩
  | .call _ _ _, h => h

mutual

theorem Expr.ofSExpr_named {params : List String} : ∀ (s : SExpr) {branch : Bool} {e : Expr},
    Expr.ofSExpr params branch s = .ok e → e.Named
  | .atom (.literal _), _, _, h => by
    cases h
    trivial
  | .atom (.symbol _), _, _, h => by
    simp only [Expr.ofSExpr, except_bind_eq_ok] at h
    rcases h with ⟨name, named, h⟩
    cases h
    exact ⟨rfl, isName_iff.1 (nameOf_eq_ok_iff.1 named).2⟩
  | .list items, _, _, h => by
    rw [Expr.ofSExpr] at h
    exact Expr.ofItems_named items h
termination_by s => sizeOf s

theorem Expr.ofItems_named {params : List String} : ∀ (items : List SExpr) {branch : Bool}
    {e : Expr}, Expr.ofItems params branch items = .ok e → e.Named
  | items, _, _, h => by
    cases Expr.formOf_of_ofItems h with
    | alone _ read => exact Expr.ofSExpr_named _ read
    | binary left right => exact ⟨Expr.ofSExpr_named _ left, Expr.ofSExpr_named _ right⟩
    | cond tested first second =>
      exact ⟨Expr.ofSExpr_named _ tested, Expr.ofSExpr_named _ first,
        Expr.ofSExpr_named _ second⟩
    | call name _ read => exact ⟨isName_iff.1 name, Expr.ofArgs_named _ read⟩
termination_by items => sizeOf items

theorem Expr.ofArgs_named {params : List String} : ∀ (args : List SExpr) {es : List Expr},
    Expr.ofArgs params args = .ok es → Expr.ArgsNamed es
  | [], _, h => by
    cases h
    trivial
  | arg :: args, _, h => by
    simp only [Expr.ofArgs, except_bind_eq_ok] at h
    rcases h with ⟨_, first, _, rest, h⟩
    cases h
    exact ⟨Expr.ofSExpr_named arg first, Expr.ofArgs_named args rest⟩
termination_by args => sizeOf args

end

theorem Definition.ofItems_wellFormed {items : List SExpr} {d : Definition}
    (h : Definition.ofItems items = .ok d) : d.WellFormed := by
  have flagged := Definition.ofItems_flagged h
  rcases Definition.ofItems_eq_ok h with ⟨_, params, _, body, _, _, name, read, bodyRead, rfl⟩
  refine ⟨isName_iff.1 name, ?_, (Expr.ofSExpr_named _ bodyRead).setTail true, flagged⟩
  intro p mem
  rcases exists_of_mem_mapM_ok read mem with ⟨item, -, paramRead⟩
  rcases Param.ofSExpr_eq_ok paramRead with ⟨named, known⟩
  exact ⟨isName_iff.1 named, known⟩

theorem Global.ofSExpr_wellFormed {s : SExpr} {g : Global} (h : Global.ofSExpr s = .ok g) :
    g.WellFormed := by
  cases Global.formOf_of_ofSExpr h with
  | define read => exact Definition.ofItems_wellFormed read
  | declare read =>
    rcases Declaration.ofItems_eq_ok read with ⟨name, params, returns⟩
    exact ⟨isName_iff.1 name, params, returns⟩
  | entry read => exact ⟨Expr.ofSExpr_named _ read, Expr.ofSExpr_flagged _ read⟩

/-! ## How a global is written -/

/-- A branch as it is written: a list stands in one more pair of parentheses. -/
def Syntax.SExpr.inParens : SExpr → SExpr
  | .atom a => .atom a
  | .list items => .list [.list items]

mutual

def Expr.toSExpr : Expr → SExpr
  | .const _ value => .atom (.literal value)
  | .var _ _ name => .atom (.symbol name)
  | .binary _ op lhs rhs => .list [.atom (.symbol op.symbol), lhs.toSExpr, rhs.toSExpr]
  | .cond _ test onTrue onFalse =>
    .list [.atom (.symbol "if"), test.toSExpr, onTrue.toSExpr.inParens, onFalse.toSExpr.inParens]
  | .call _ callee args => .list (.atom (.symbol callee) :: Expr.argsToSExprs args)

def Expr.argsToSExprs : List Expr → List SExpr
  | [] => []
  | arg :: args => arg.toSExpr :: Expr.argsToSExprs args

end

def ValueType.toSExpr (type : ValueType) : SExpr := .atom (.symbol type.name)

def Param.toSExpr (p : Param) : SExpr := .list [.atom (.symbol p.name), p.type.toSExpr]

/-- The item for the type of a result. There is none for the unknown type. -/
def ValueType.item? : ValueType → Option SExpr
  | .unknown => none
  | type => some type.toSExpr

def Definition.toSExpr (d : Definition) : SExpr :=
  .list ([.atom (.symbol "def"), .atom (.symbol d.name), .list (d.params.map Param.toSExpr)] ++
    d.returns.item?.toList ++ [d.body.toSExpr])

def Declaration.toSExpr (d : Declaration) : SExpr :=
  .list [.atom (.symbol "extern"), .atom (.symbol d.name),
    .list (d.params.map ValueType.toSExpr), d.returns.toSExpr]

def Global.toSExpr : Global → SExpr
  | .define d => d.toSExpr
  | .declare d => d.toSExpr
  | .entry e => e.toSExpr

/-! ## Well-formed globals are read from what they are written as -/

theorem typeOf_toSExpr {type : ValueType} (known : type.isKnown = true) :
    typeOf type.toSExpr = .ok type :=
  typeOf_eq_ok_iff.2 ⟨known, rfl⟩

theorem ValueType.elim_item? (type : ValueType) :
    type.item?.elim (.ok .unknown) typeOf = .ok type := by
  cases type with
  | unknown | int | single | double => rfl

theorem nameOf_symbol (role : NameRole) {name : String} (free : FreeName name) :
    nameOf role (.atom (.symbol name)) = .ok name :=
  nameOf_eq_ok_iff.2 ⟨rfl, isName_iff.2 free⟩

theorem Expr.Flagged.setTail_eq : ∀ {e : Expr} {tail : Bool}, e.Flagged tail → e.setTail tail = e
  | .const _ _, _, rfl => rfl
  | .var _ _ _, _, rfl => rfl
  | .binary _ _ _ _, _, ⟨rfl, _, _⟩ => rfl
  | .cond _ _ _ _, _, ⟨rfl, _, onTrue, onFalse⟩ => by
    rw [Expr.setTail, onTrue.setTail_eq, onFalse.setTail_eq]
  | .call _ _ _, _, ⟨rfl, _⟩ => rfl

theorem Expr.setTail_setTail (tail tail' : Bool) : ∀ e : Expr,
    (e.setTail tail').setTail tail = e.setTail tail := by
  intro e
  fun_induction Expr.setTail tail' e with
  | case4 _ test onTrue onFalse ihTrue ihFalse => simp only [Expr.setTail, ihTrue, ihFalse]
  | case1 | case2 | case3 | case5 => rfl

/-- Whatever a branch is, in its parentheses it is read as it is elsewhere. -/
theorem Expr.ofSExpr_inParens (params : List String) (s : SExpr) :
    Expr.ofSExpr params true s.inParens = Expr.ofSExpr params false s := by
  cases s with
  | atom a => cases a <;> simp only [SExpr.inParens, Expr.ofSExpr]
  | list items =>
    rw [SExpr.inParens, Expr.ofSExpr.eq_def]
    simp [Expr.ofItems, standsAlone]

-- in one pair of parentheses a parameter's name is the parameter, and in two it is called
example :
    Expr.ofSExpr ["g"] true (.list [.atom (.symbol "g")]) = .ok (.var false .unknown "g") ∧
      Expr.ofSExpr ["g"] true (SExpr.list [.atom (.symbol "g")]).inParens =
        .ok (.call false "g" []) := by
  constructor
  · cbv
  · cbv

mutual

/-- What an expression is written as is read as the expression out of return position. -/
theorem Expr.ofSExpr_toSExpr (params : List String) : ∀ {e : Expr} {tail : Bool},
    e.Named → e.Flagged tail → Expr.ofSExpr params false e.toSExpr = .ok (e.setTail false)
  | .const _ _, _, _, _ => by
    simp only [Expr.toSExpr, Expr.ofSExpr, Expr.setTail]
  | .var _ _ _, _, ⟨rfl, free⟩, _ => by
    rw [Expr.toSExpr, Expr.ofSExpr, nameOf_symbol .var free]
    rfl
  | .binary _ _ _ _, _, ⟨lhs, rhs⟩, ⟨_, lhsOut, rhsOut⟩ => by
    have left := Expr.ofSExpr_toSExpr params lhs lhsOut
    have right := Expr.ofSExpr_toSExpr params rhs rhsOut
    rw [lhsOut.setTail_eq] at left
    rw [rhsOut.setTail_eq] at right
    rw [Expr.toSExpr, Expr.ofSExpr]
    exact (Expr.FormOf.binary left right).ofItems_eq
  | .cond _ _ _ _, _, ⟨test, onTrue, onFalse⟩, ⟨_, testOut, onTrueAt, onFalseAt⟩ => by
    have tested := Expr.ofSExpr_toSExpr params test testOut
    have first := Expr.ofSExpr_toSExpr params onTrue onTrueAt
    have second := Expr.ofSExpr_toSExpr params onFalse onFalseAt
    -- the test is in no return position already; the branches leave it with the conditional
    rw [testOut.setTail_eq] at tested
    rw [← Expr.ofSExpr_inParens] at first second
    rw [Expr.toSExpr, Expr.ofSExpr]
    exact (Expr.FormOf.cond tested first second).ofItems_eq
  | .call _ _ _, _, ⟨free, named⟩, ⟨_, out⟩ => by
    have read := Expr.ofArgs_argsToSExprs params named out
    rw [Expr.toSExpr, Expr.ofSExpr]
    refine (Expr.FormOf.call (isName_iff.2 free) ?_ read).ofItems_eq
    -- what stands in no branch is a call, also of a parameter's name
    intro branch
    cases branch

theorem Expr.ofArgs_argsToSExprs (params : List String) : ∀ {args : List Expr},
    Expr.ArgsNamed args → Expr.ArgsFlagged args →
      Expr.ofArgs params (Expr.argsToSExprs args) = .ok args
  | [], _, _ => by
    rw [Expr.argsToSExprs, Expr.ofArgs]
  | _ :: _, ⟨named, restNamed⟩, ⟨out, restOut⟩ => by
    have first := Expr.ofSExpr_toSExpr params named out
    rw [out.setTail_eq] at first
    rw [Expr.argsToSExprs, Expr.ofArgs, first, Expr.ofArgs_argsToSExprs params restNamed restOut]
    rfl

end

theorem Param.ofSExpr_toSExpr {p : Param} (free : FreeName p.name)
    (known : p.type.isKnown = true) : Param.ofSExpr p.toSExpr = .ok p := by
  rw [Param.toSExpr, Param.ofSExpr, nameOf_symbol .parameter free, typeOf_toSExpr known]
  rfl

theorem Definition.WellFormed.ofSExpr_eq {d : Definition} (h : d.WellFormed) :
    Global.ofSExpr d.toSExpr = .ok (.define d) := by
  have params : (d.params.map Param.toSExpr).mapM Param.ofSExpr = .ok d.params :=
    mapM_map_eq_ok fun p mem => Param.ofSExpr_toSExpr (h.params p mem).1 (h.params p mem).2
  have body := Expr.ofSExpr_toSExpr (d.params.map Param.name) h.named h.flagged
  have read := Definition.ofItems_of_parts (.atom (.symbol "def"))
    (nameOf_symbol .function h.name) params d.returns.elim_item? body
  rw [Definition.ofBody, Expr.setTail_setTail, h.flagged.setTail_eq] at read
  exact (Global.FormOf.define read).ofSExpr_eq

theorem Declaration.WellFormed.ofSExpr_eq {d : Declaration} (h : d.WellFormed) :
    Global.ofSExpr d.toSExpr = .ok (.declare d) := by
  have params : (d.params.map ValueType.toSExpr).mapM typeOf = .ok d.params :=
    mapM_map_eq_ok fun type mem => typeOf_toSExpr (h.params type mem)
  refine (Global.FormOf.declare ?_).ofSExpr_eq
  show (do
    let name ← nameOf .function (.atom (.symbol d.name))
    let params ← (d.params.map ValueType.toSExpr).mapM typeOf
    return ⟨name, params, ← typeOf d.returns.toSExpr⟩) = Except.ok d
  rw [nameOf_symbol .function h.name, params, typeOf_toSExpr h.returns]
  rfl

theorem Global.WellFormed.ofSExpr_eq {g : Global} (h : g.WellFormed) :
    Global.ofSExpr g.toSExpr = .ok g := by
  cases g with
  | define d => exact Definition.WellFormed.ofSExpr_eq h
  | declare d => exact Declaration.WellFormed.ofSExpr_eq h
  | entry e =>
    have read := Expr.ofSExpr_toSExpr [] h.1 h.2
    rw [h.2.setTail_eq] at read
    exact (Global.FormOf.entry read).ofSExpr_eq

/-- The globals that forms are read as are exactly the well-formed ones, and each of these is read
from what it is written as. -/
theorem Global.exists_ofSExpr_iff (g : Global) :
    ((∃ s, Global.ofSExpr s = .ok g) ↔ g.WellFormed) ∧
      (Global.ofSExpr g.toSExpr = .ok g ↔ g.WellFormed) := by
  constructor
  · constructor
    · intro h
      rcases h with ⟨s, read⟩
      exact Global.ofSExpr_wellFormed read
    · intro h
      exact ⟨g.toSExpr, h.ofSExpr_eq⟩
  · constructor
    · intro h
      exact Global.ofSExpr_wellFormed h
    · intro h
      exact h.ofSExpr_eq

end RegLisp
