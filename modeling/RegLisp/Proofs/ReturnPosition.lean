import RegLisp.Proofs.FormCases

/-!
# Return position

In a program that was read from a text, the flag of every expression says truly whether it stands
in return position: the body of a definition does, and with a conditional its branches do. So an
entry expression makes no call that reuses a frame.
-/

namespace RegLisp

open RegLisp.Syntax

mutual

/-- Every flag of an expression is right, when the expression itself is in return position or
not as given. -/
def Expr.Flagged (tail : Bool) : Expr → Prop
  | .const flag _ => flag = tail
  | .var flag _ _ => flag = tail
  | .binary flag _ lhs rhs => flag = tail ∧ lhs.Flagged false ∧ rhs.Flagged false
  | .cond flag test onTrue onFalse =>
    flag = tail ∧ test.Flagged false ∧ onTrue.Flagged tail ∧ onFalse.Flagged tail
  | .call flag _ args => flag = tail ∧ Expr.ArgsFlagged args

/-- No argument is in return position. -/
def Expr.ArgsFlagged : List Expr → Prop
  | [] => True
  | arg :: args => arg.Flagged false ∧ Expr.ArgsFlagged args

end

/-- Putting an expression in another position changes its flags as they should be. -/
theorem Expr.Flagged.setTail (tail' : Bool) : ∀ {e : Expr} {tail : Bool},
    e.Flagged tail → (e.setTail tail').Flagged tail'
  | .const _ _, _, _ => rfl
  | .var _ _ _, _, _ => rfl
  | .binary _ _ _ _, _, ⟨_, lhs, rhs⟩ => ⟨rfl, lhs, rhs⟩
  | .cond _ _ _ _, _, ⟨_, test, onTrue, onFalse⟩ =>
    ⟨rfl, test, onTrue.setTail tail', onFalse.setTail tail'⟩
  | .call _ _ _, _, ⟨_, args⟩ => ⟨rfl, args⟩

mutual

/-- What is read from an s-expression is in no return position yet. -/
theorem Expr.ofSExpr_flagged {params : List String} : ∀ (s : SExpr) {branch : Bool} {e : Expr},
    Expr.ofSExpr params branch s = .ok e → e.Flagged false
  | .atom (.literal _), _, _, h => by
    cases h
    rfl
  | .atom (.symbol _), _, _, h => by
    simp only [Expr.ofSExpr, except_bind_eq_ok] at h
    obtain ⟨_, -, h⟩ := h
    cases h
    rfl
  | .list items, _, _, h => by
    rw [Expr.ofSExpr] at h
    exact Expr.ofItems_flagged items h
termination_by s => sizeOf s

theorem Expr.ofItems_flagged {params : List String} : ∀ (items : List SExpr) {branch : Bool}
    {e : Expr}, Expr.ofItems params branch items = .ok e → e.Flagged false
  | items, _, _, h => by
    cases Expr.formOf_of_ofItems h with
    | alone _ read => exact Expr.ofSExpr_flagged _ read
    | binary left right =>
      exact ⟨rfl, Expr.ofSExpr_flagged _ left, Expr.ofSExpr_flagged _ right⟩
    | cond tested first second =>
      exact ⟨rfl, Expr.ofSExpr_flagged _ tested, Expr.ofSExpr_flagged _ first,
        Expr.ofSExpr_flagged _ second⟩
    | call _ _ read => exact ⟨rfl, Expr.ofArgs_flagged _ read⟩
termination_by items => sizeOf items

theorem Expr.ofArgs_flagged {params : List String} : ∀ (args : List SExpr) {es : List Expr},
    Expr.ofArgs params args = .ok es → Expr.ArgsFlagged es
  | [], _, h => by
    cases h
    trivial
  | arg :: args, _, h => by
    simp only [Expr.ofArgs, except_bind_eq_ok] at h
    obtain ⟨_, ha, _, has, h⟩ := h
    cases h
    exact ⟨Expr.ofSExpr_flagged arg ha, Expr.ofArgs_flagged args has⟩
termination_by args => sizeOf args

end

theorem Definition.ofItems_flagged {items : List SExpr} {d : Definition}
    (h : Definition.ofItems items = .ok d) : d.body.Flagged true := by
  obtain ⟨_, _, _, body, _, _, -, -, read, rfl⟩ := Definition.ofItems_eq_ok h
  exact (Expr.ofSExpr_flagged _ read).setTail true

/-- Every flag of a program is right. -/
structure Program.Flagged (p : Program) : Prop where
  entries : ∀ e ∈ p.entries, e.Flagged false
  definitions : ∀ d ∈ p.definitions, d.body.Flagged true

theorem Global.ofSExpr_flagged {s : SExpr} {g : Global} (h : Global.ofSExpr s = .ok g) :
    (∀ e, g = .entry e → e.Flagged false) ∧ ∀ d, g = .define d → d.body.Flagged true := by
  cases Global.formOf_of_ofSExpr h with
  | define read =>
    refine ⟨nofun, ?_⟩
    rintro d ⟨⟩
    exact Definition.ofItems_flagged read
  | declare _ => exact ⟨nofun, nofun⟩
  | entry read =>
    refine ⟨?_, nofun⟩
    rintro e ⟨⟩
    exact Expr.ofSExpr_flagged _ read

/-- What holds of every form that can be read holds of all globals of a program that was read from
a text. -/
theorem Program.forall_of_parse {P : Global → Prop}
    (each : ∀ {s : SExpr} {g : Global}, Global.ofSExpr s = .ok g → P g) {text : String}
    {p : Program} (h : Program.parse text = .ok p) : ∀ g ∈ p.globals, P g := by
  unfold Program.parse at h
  split at h
  · cases h
  split at h
  · cases h
  rename_i forms _ globals hg
  cases h
  intro g mem
  obtain ⟨s, -, hs⟩ := exists_of_mem_mapM_ok hg mem
  exact each hs

theorem Program.mem_definitions {p : Program} {d : Definition} :
    d ∈ p.definitions ↔ .define d ∈ p.globals := by
  constructor
  · intro mem
    obtain ⟨g, hg, eq⟩ := List.mem_filterMap.1 mem
    cases g with
    | define d =>
      cases eq
      exact hg
    | entry body => cases eq
    | declare d => cases eq
  · intro mem
    exact List.mem_filterMap.2 ⟨_, mem, rfl⟩

theorem Program.mem_entries {p : Program} {e : Expr} (mem : e ∈ p.entries) :
    .entry e ∈ p.globals := by
  obtain ⟨g, hg, eq⟩ := List.mem_filterMap.1 mem
  cases g with
  | entry body =>
    cases eq
    exact hg
  | define d => cases eq
  | declare d => cases eq

/-- A program that was read from a text has all its flags right. -/
theorem Program.flagged_of_parse {text : String} {p : Program} (h : Program.parse text = .ok p) :
    p.Flagged := by
  have flagged := Program.forall_of_parse Global.ofSExpr_flagged h
  constructor
  · intro e mem
    exact (flagged _ (Program.mem_entries mem)).1 e rfl
  · intro d mem
    exact (flagged _ (Program.mem_definitions.1 mem)).2 d rfl

end RegLisp
