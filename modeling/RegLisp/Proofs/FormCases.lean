import RegLisp.Program.Surface
import RegLisp.Proofs.Traversal
import RegLisp.Proofs.ModuleFile

/-!
# What a form can be read as

Reading a form goes through many checks. Here stands once for each kind of form what a successful
reading comes to: which parts the form has, and what these are read as.
-/

namespace RegLisp

open RegLisp.Syntax

/-! ## Names and types -/

theorem BinaryOp.ofSymbol?_eq_some_iff {symbol : String} {op : BinaryOp} :
    BinaryOp.ofSymbol? symbol = some op ↔ symbol = op.symbol := by
  constructor
  · intro h
    unfold BinaryOp.ofSymbol? at h
    split at h
    all_goals cases h
    all_goals rfl
  · rintro rfl
    exact BinaryOp.ofSymbol?_symbol op

theorem ValueType.ofName?_eq_some_iff {name : String} {type : ValueType} :
    ValueType.ofName? name = some type ↔ type.isKnown = true ∧ name = type.name := by
  constructor
  · intro h
    unfold ValueType.ofName? at h
    split at h
    all_goals cases h
    all_goals exact ⟨rfl, rfl⟩
  · rintro ⟨known, rfl⟩
    cases type with
    | unknown => cases known
    | int | single | double => rfl

theorem Syntax.SExpr.symbol?_eq_some_iff {e : SExpr} {symbol : String} :
    e.symbol? = some symbol ↔ e = .atom (.symbol symbol) := by
  constructor
  · intro h
    unfold SExpr.symbol? at h
    split at h
    · cases h
      rfl
    · cases h
  · rintro rfl
    rfl

theorem isName_iff_not_mem {symbol : String} :
    isName symbol = true ↔ symbol ∉ keywords ∧ BinaryOp.ofSymbol? symbol = none := by
  simp [isName]

theorem nameOf_eq_ok_iff {role : NameRole} {e : SExpr} {name : String} :
    nameOf role e = .ok name ↔ e = .atom (.symbol name) ∧ isName name = true := by
  constructor
  · intro h
    unfold nameOf at h
    split at h
    · next symbol eq =>
      split at h
      · next isName =>
        cases h
        exact ⟨SExpr.symbol?_eq_some_iff.1 eq, isName⟩
      · cases h
    · cases h
  · rintro ⟨rfl, isName⟩
    simp [nameOf, SExpr.symbol?, isName]

theorem typeOf_eq_ok_iff {e : SExpr} {type : ValueType} :
    typeOf e = .ok type ↔ type.isKnown = true ∧ e = .atom (.symbol type.name) := by
  constructor
  · intro h
    unfold typeOf at h
    split at h
    · next found =>
      cases h
      rcases Option.bind_eq_some_iff.1 found with ⟨symbol, eq, named⟩
      rcases ValueType.ofName?_eq_some_iff.1 named with ⟨known, rfl⟩
      exact ⟨known, SExpr.symbol?_eq_some_iff.1 eq⟩
    · cases h
  · rintro ⟨known, rfl⟩
    have named := ValueType.ofName?_eq_some_iff.2 ⟨known, rfl⟩
    simp [typeOf, SExpr.symbol?, named]

theorem Param.ofSExpr_eq_ok {e : SExpr} {p : Param} (h : Param.ofSExpr e = .ok p) :
    isName p.name = true ∧ p.type.isKnown = true := by
  unfold Param.ofSExpr at h
  split at h
  · simp only [except_bind_eq_ok] at h
    rcases h with ⟨name, named, type, typed, h⟩
    cases h
    exact ⟨(nameOf_eq_ok_iff.1 named).2, (typeOf_eq_ok_iff.1 typed).1⟩
  · cases h
  · simp only [except_bind_eq_ok] at h
    rcases h with ⟨name, named, h⟩
    cases h
    exact ⟨(nameOf_eq_ok_iff.1 named).2, rfl⟩

/-! ## Expressions -/

/-- What the items of a list are read as. -/
inductive Expr.FormOf (params : List String) : Bool → List SExpr → Expr → Prop
  /-- A branch in one more pair of parentheses. -/
  | alone {s : SExpr} {e : Expr} (stands : standsAlone params s = true)
    (read : Expr.ofSExpr params false s = .ok e) : FormOf params true [s] e
  | binary {branch : Bool} {op : BinaryOp} {s s' : SExpr} {lhs rhs : Expr}
    (left : Expr.ofSExpr params false s = .ok lhs)
    (right : Expr.ofSExpr params false s' = .ok rhs) :
    FormOf params branch [.atom (.symbol op.symbol), s, s'] (.binary false op lhs rhs)
  | cond {branch : Bool} {s s' s'' : SExpr} {test onTrue onFalse : Expr}
    (tested : Expr.ofSExpr params false s = .ok test)
    (first : Expr.ofSExpr params true s' = .ok onTrue)
    (second : Expr.ofSExpr params true s'' = .ok onFalse) :
    FormOf params branch [.atom (.symbol "if"), s, s', s''] (.cond false test onTrue onFalse)
  | call {branch : Bool} {callee : String} {items : List SExpr} {args : List Expr}
    (name : isName callee = true) (kept : branch = true → items = [] → callee ∉ params)
    (read : Expr.ofArgs params items = .ok args) :
    FormOf params branch (.atom (.symbol callee) :: items) (.call false callee args)

theorem Expr.formOf_of_ofItems {params : List String} {branch : Bool} {items : List SExpr}
    {e : Expr} (h : Expr.ofItems params branch items = .ok e) :
    Expr.FormOf params branch items e := by
  rw [Expr.ofItems.eq_def] at h
  split at h
  · cases h
  next head args =>
    split at h
    · next alone =>
      simp only [Bool.and_eq_true, List.isEmpty_iff] at alone
      rcases alone with ⟨⟨rfl, rfl⟩, stands⟩
      exact .alone stands h
    next together =>
      split at h
      · cases h
      next symbol eq =>
        cases SExpr.symbol?_eq_some_iff.1 eq
        split at h
        · next op found =>
          rw [BinaryOp.ofSymbol?_eq_some_iff.1 found]
          split at h
          · simp only [except_bind_eq_ok] at h
            rcases h with ⟨lhs, left, rhs, right, h⟩
            cases h
            exact .binary left right
          · cases h
        next none =>
          split at h
          · next conditional =>
            rw [beq_iff_eq.1 conditional]
            split at h
            · simp only [except_bind_eq_ok] at h
              rcases h with ⟨test, tested, onTrue, first, onFalse, second, h⟩
              cases h
              exact .cond tested first second
            · cases h
          split at h
          · cases h
          next free =>
            simp only [except_bind_eq_ok] at h
            rcases h with ⟨es, read, h⟩
            cases h
            have unlisted : symbol ∉ keywords := by simpa using free
            refine .call (isName_iff_not_mem.2 ⟨unlisted, none⟩) ?_ read
            rintro rfl rfl mem
            exact together (by simpa [standsAlone] using mem)

theorem Expr.FormOf.ofItems_eq {params : List String} {branch : Bool} {items : List SExpr}
    {e : Expr} (h : Expr.FormOf params branch items e) :
    Expr.ofItems params branch items = .ok e := by
  cases h with
  | alone stands read =>
    rw [Expr.ofItems, if_pos (by simp [stands]), read]
  | binary left right =>
    simp [Expr.ofItems, SExpr.symbol?, left, right, bind, Except.bind, pure, Except.pure]
  | cond tested first second =>
    simp [Expr.ofItems, SExpr.symbol?, BinaryOp.ofSymbol?, tested, first, second, bind,
      Except.bind, pure, Except.pure]
  | @call _ callee _ _ name kept read =>
    rcases isName_iff_not_mem.1 name with ⟨unlisted, none⟩
    have other : callee ≠ "if" := by
      rintro rfl
      exact unlisted (by decide)
    rw [Expr.ofItems, if_neg]
    · simp [SExpr.symbol?, none, other, unlisted, read, bind, Except.bind, pure, Except.pure]
    · simpa [standsAlone] using kept

/-! ## Globals -/

/-- Whichever parts the form of a definition has, its parameters are read before its body. -/
theorem Definition.ofItems_eq_ok {items : List SExpr} {d : Definition}
    (h : Definition.ofItems items = .ok d) :
    ∃ (paramItems : List SExpr) (params : List Param) (bodyItem : SExpr) (body : Expr)
      (name : String) (returns : ValueType), isName name = true ∧
        paramItems.mapM Param.ofSExpr = .ok params ∧
          Expr.ofSExpr (params.map Param.name) false bodyItem = .ok body ∧
            d = .ofBody name params returns body := by
  unfold Definition.ofItems at h
  split at h
  all_goals
    simp only [except_bind_eq_ok] at h
    rcases h with ⟨_, -, _, named, h⟩
    have name := (nameOf_eq_ok_iff.1 named).2
    split at h
  all_goals
    simp only [except_bind_eq_ok] at h
    rcases h with ⟨_, params, h⟩
    split at h
  -- no parameters are read where they are no list
  all_goals try cases params
  all_goals
    simp only [except_bind_eq_ok] at h
    rcases h with ⟨_, -, _, body, h⟩
    cases h
    exact ⟨_, _, _, _, _, _, name, params, body, rfl⟩

/-- The form of a definition is read from its parts, with or without a type for the result. -/
theorem Definition.ofItems_of_parts (head : SExpr) {nameItem bodyItem : SExpr}
    {paramItems : List SExpr} {typeItem : Option SExpr} {name : String} {params : List Param}
    {returns : ValueType} {body : Expr} (named : nameOf .function nameItem = .ok name)
    (read : paramItems.mapM Param.ofSExpr = .ok params)
    (typed : typeItem.elim (.ok .unknown) typeOf = .ok returns)
    (bodyRead : Expr.ofSExpr (params.map Param.name) false bodyItem = .ok body) :
    Definition.ofItems ([head, nameItem, .list paramItems] ++ typeItem.toList ++ [bodyItem]) =
      .ok (.ofBody name params returns body) := by
  cases typeItem with
  | none =>
    cases typed
    simp [Definition.ofItems, SExpr.items?, named, read, bodyRead, bind, Except.bind, pure,
      Except.pure]
  | some item =>
    have typed : typeOf item = .ok returns := typed
    simp [Definition.ofItems, SExpr.items?, named, read, typed, bodyRead, bind, Except.bind, pure,
      Except.pure]

theorem Declaration.ofItems_eq_ok {items : List SExpr} {d : Declaration}
    (h : Declaration.ofItems items = .ok d) :
    isName d.name = true ∧ (∀ type ∈ d.params, type.isKnown = true) ∧
      d.returns.isKnown = true := by
  unfold Declaration.ofItems at h
  split at h
  · simp only [except_bind_eq_ok] at h
    rcases h with ⟨_, -, name, named, h⟩
    split at h
    · simp only [except_bind_eq_ok] at h
      rcases h with ⟨params, read, returns, returned, h⟩
      cases h
      refine ⟨(nameOf_eq_ok_iff.1 named).2, ?_, (typeOf_eq_ok_iff.1 returned).1⟩
      intro type mem
      rcases exists_of_mem_mapM_ok read mem with ⟨item, -, typed⟩
      exact (typeOf_eq_ok_iff.1 typed).1
    · cases h
  · cases h

/-- What a top-level form is read as. -/
inductive Global.FormOf : SExpr → Global → Prop
  | define {items : List SExpr} {d : Definition}
    (read : Definition.ofItems (.atom (.symbol "def") :: items) = .ok d) :
    FormOf (.list (.atom (.symbol "def") :: items)) (.define d)
  | declare {items : List SExpr} {d : Declaration}
    (read : Declaration.ofItems (.atom (.symbol "extern") :: items) = .ok d) :
    FormOf (.list (.atom (.symbol "extern") :: items)) (.declare d)
  | entry {s : SExpr} {e : Expr} (read : Expr.ofSExpr [] false s = .ok e) : FormOf s (.entry e)

theorem Syntax.SExpr.eq_cons_of_head {items : List SExpr} {symbol : String}
    (h : items.head?.bind SExpr.symbol? = some symbol) :
    ∃ rest, items = .atom (.symbol symbol) :: rest := by
  rcases Option.bind_eq_some_iff.1 h with ⟨head, first, eq⟩
  rw [SExpr.symbol?_eq_some_iff.1 eq] at first
  exact ⟨_, List.eq_cons_of_mem_head? first⟩

theorem Global.formOf_of_ofSExpr {s : SExpr} {g : Global} (h : Global.ofSExpr s = .ok g) :
    Global.FormOf s g := by
  unfold Global.ofSExpr at h
  split at h
  · split at h
    · next head =>
      simp only [except_bind_eq_ok] at h
      rcases h with ⟨d, read, h⟩
      cases h
      rcases SExpr.eq_cons_of_head head with ⟨rest, rfl⟩
      exact .define read
    · next head =>
      simp only [except_bind_eq_ok] at h
      rcases h with ⟨d, read, h⟩
      cases h
      rcases SExpr.eq_cons_of_head head with ⟨rest, rfl⟩
      exact .declare read
    · simp only [except_bind_eq_ok] at h
      rcases h with ⟨e, read, h⟩
      cases h
      exact .entry read
  · simp only [except_bind_eq_ok] at h
    rcases h with ⟨e, read, h⟩
    cases h
    exact .entry read

/-- The list of an expression does not begin as a definition or a declaration. -/
theorem Expr.head_ne_of_ofItems {params : List String} {items : List SExpr} {e : Expr}
    (h : Expr.ofItems params false items = .ok e) :
    items.head?.bind SExpr.symbol? ≠ some "def" ∧
      items.head?.bind SExpr.symbol? ≠ some "extern" := by
  cases Expr.formOf_of_ofItems h with
  | @binary _ op =>
    show some op.symbol ≠ some "def" ∧ some op.symbol ≠ some "extern"
    cases op
    all_goals decide
  | cond _ _ _ =>
    show some "if" ≠ some "def" ∧ some "if" ≠ some "extern"
    decide
  | call name _ _ =>
    have unlisted := (isName_iff_not_mem.1 name).1
    constructor
    · rintro ⟨⟩
      exact unlisted (by decide)
    · rintro ⟨⟩
      exact unlisted (by decide)

theorem Global.FormOf.ofSExpr_eq {s : SExpr} {g : Global} (h : Global.FormOf s g) :
    Global.ofSExpr s = .ok g := by
  cases h with
  | define read =>
    simp only [Global.ofSExpr, List.head?_cons, Option.bind_some, SExpr.symbol?, read]
    rfl
  | declare read =>
    simp only [Global.ofSExpr, List.head?_cons, Option.bind_some, SExpr.symbol?, read]
    rfl
  | entry read =>
    unfold Global.ofSExpr
    split
    · have readItems := read
      rw [Expr.ofSExpr] at readItems
      have other := Expr.head_ne_of_ofItems readItems
      split
      · next head => exact absurd head other.1
      · next head => exact absurd head other.2
      · rw [read]
        rfl
    · rw [read]
      rfl

end RegLisp
