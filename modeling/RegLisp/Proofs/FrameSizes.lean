import RegLisp.Proofs.Reloading
import RegLisp.Proofs.Reservations
import RegLisp.Proofs.Simulation

/-!
# Frame sizes

Frame sizes are found twice. Allocation notes how far the registers of a function reach, and loading
a module takes the greatest register that the code of the function names. A call that reuses the
frame has a register that its code never names, and parameters may be left unused. Still, the second
size is never greater than the first. The two are the same for the entry section, and for each
function whose body is more than a variable or a call without arguments.
-/

namespace RegLisp

/-! ## Frames of code -/

/-- How many registers of its frame an instruction needs. -/
def Instruction.frame (i : Instruction) : Nat := (i.maxLocalRegister.map (· + 1)).getD 0

/-- How many registers of their frame instructions need. -/
def codeFrame : List Instruction → Nat
  | [] => 0
  | i :: is => max i.frame (codeFrame is)

@[simp] theorem codeFrame_nil : codeFrame [] = 0 := rfl

@[simp] theorem codeFrame_cons (i : Instruction) (is : List Instruction) :
    codeFrame (i :: is) = max i.frame (codeFrame is) := rfl

@[simp] theorem codeFrame_append (is js : List Instruction) :
    codeFrame (is ++ js) = max (codeFrame is) (codeFrame js) := by
  induction is with
  | nil => exact (Nat.zero_max _).symm
  | cons i is ih => rw [List.cons_append, codeFrame_cons, ih, codeFrame_cons, Nat.max_assoc]

theorem foldl_frame (is : List Instruction) (n : Nat) :
    is.foldl (fun n i => max n i.frame) n = max n (codeFrame is) := by
  induction is generalizing n with
  | nil => exact (Nat.max_zero n).symm
  | cons i is ih => rw [List.foldl_cons, ih, codeFrame_cons, Nat.max_assoc]

/-- What is derived from the code of a section is what its instructions need. -/
theorem frameSize_eq_codeFrame (before is after : List Instruction) :
    frameSize (before ++ is ++ after).toArray before.length (before.length + is.length) =
      codeFrame is := by
  have part : ((before ++ is ++ after).toArray.extract before.length
      (before.length + is.length)).toList = is := by
    simp
  unfold frameSize
  rw [← Array.foldl_toList, part]
  exact (foldl_frame is 0).trans (Nat.zero_max _)

section

variable {a b : Nat}

theorem Instruction.frame_eq {i : Instruction} {r : Nat} (h : i.maxLocalRegister = some r) :
    i.frame = r + 1 := by
  rw [frame, h]
  rfl

theorem frame_loadi (small : a < 256) (slot : UInt16) :
    (Instruction.const .loadi (.ofNat a) slot).frame = a + 1 := by
  refine Instruction.frame_eq ?_
  simp only [Instruction.maxLocalRegister, Instruction.op?_const, Opcode.shape, reduceCtorEq,
    ↓reduceIte]
  simp only [Instruction.const, byte_toNat small]

theorem frame_jmp (slot : UInt16) : (Instruction.const .jmp 0 slot).frame = 0 := by
  simp [Instruction.frame, Instruction.maxLocalRegister, Opcode.shape]

theorem frame_nullary (op : Opcode) (shape : op.shape = .nullary) :
    (Instruction.nullary op).frame = 0 := by
  simp [Instruction.frame, Instruction.maxLocalRegister, shape]

theorem frame_callFor (external tail : Bool) (index : UInt32) :
    (Instruction.call (.callFor external tail) index).frame = 0 := by
  cases external <;> cases tail <;>
    simp [Instruction.frame, Instruction.maxLocalRegister, Opcode.callFor, Opcode.shape]

theorem frame_mov_fromWindow (dst : b < 256) :
    (movCode .fromWindow a b).frame = b + 1 := by
  refine Instruction.frame_eq ?_
  simp only [Instruction.maxLocalRegister, Instruction.op?_movCode, Opcode.shape,
    Instruction.moveMode?_movCode]
  simp only [movCode, Instruction.mov, byte_toNat dst]

theorem codeFrame_moveCode (src : a < 256) (dst : b < 256) :
    codeFrame (moveCode a b) = if a = b then 0 else max a b + 1 := by
  unfold moveCode
  split
  · rfl
  · rw [codeFrame_cons, Instruction.frame_eq (maxLocalRegister_mov_frame src dst)]
    exact Nat.max_zero _

/-- Passing arguments touches the last of them. -/
theorem codeFrame_passCode {mode : MoveMode} {reg count : Nat} (inside : reg + 1 + count ≤ 256)
    (source : mode = .frame ∨ mode = .toWindow) :
    codeFrame (passCode mode reg count) = if count = 0 then 0 else reg + 1 + count := by
  induction count with
  | zero => rfl
  | succ count ih =>
    have last : (movCode mode (reg + 1 + count) (1 + count)).frame = reg + 1 + count + 1 := by
      rcases source with rfl | rfl
      · rw [Instruction.frame_eq (maxLocalRegister_mov_frame (by omega) (by omega))]
        omega
      · rw [Instruction.frame_eq (maxLocalRegister_mov_toWindow (by omega) _)]
    rw [Machine.passCode_succ, codeFrame_append, ih (by omega), codeFrame_cons, last, codeFrame_nil,
      if_neg (Nat.succ_ne_zero count)]
    split <;> omega

theorem codeFrame_callCode {external tail : Bool} {reg index count : Nat}
    (inside : reg + 1 + count ≤ 256) :
    codeFrame (callCode external tail reg index count) =
      max (if count = 0 then 0 else reg + 1 + count) (if tail then 0 else reg + 1) := by
  cases tail with
  | true =>
    simp only [callCode, ↓reduceIte, codeFrame_append, codeFrame_cons, codeFrame_nil,
      frame_callFor, codeFrame_passCode inside (.inl rfl)]
    omega
  | false =>
    simp only [callCode, Bool.false_eq_true, ↓reduceIte, codeFrame_append, codeFrame_cons,
      codeFrame_nil, frame_callFor, codeFrame_passCode inside (.inr rfl),
      frame_mov_fromWindow (show reg < 256 by omega)]
    omega

end

/-! ## Reach and registers -/

section

variable {scope : Scope} {t : Tables} {reg : Nat} {e : Expr} {term : Term}

theorem Placed.reg_le (placed : Placed scope t reg e term) : term.reg ≤ reg := by
  cases placed with
  | var bound below => exact Nat.le_of_lt below
  | _ => exact Nat.le_refl _

theorem Placed.reg_lt_of_le (placed : Placed scope t reg e term) (le : reg ≤ 256) :
    term.reg < 256 := by
  cases placed with
  | var bound below => exact Nat.lt_of_lt_of_le below le
  | const room | binary room | cond room | call room => exact room

/-- A term that is no variable reaches over its register. -/
theorem Placed.lt_reach (placed : Placed scope t reg e term) (wide : 0 < e.width) :
    term.reg = reg ∧ reg < term.reach := by
  cases placed with
  | var => cases wide
  | const => exact ⟨rfl, Nat.lt_succ_self _⟩
  | binary | cond | call =>
    refine ⟨rfl, ?_⟩
    simp only [Term.reach]
    omega

theorem Placed.reg_lt_max (placed : Placed scope t reg e term) :
    term.reg < max reg term.reach := by
  cases placed with
  | var bound below =>
    simp only [Term.reg]
    omega
  | const | binary | cond | call =>
    simp only [Term.reg, Term.reach]
    omega

/-- The registers that stay in use behind a term are within its reach. -/
theorem Placed.add_width_le : ∀ {e : Expr} {term : Term} {reg : Nat},
    Placed scope t reg e term → reg + e.width ≤ max reg term.reach
  | .binary _ _ _ _, _, _, .binary _ left right => by
    have := left.add_width_le
    have := right.add_width_le
    simp only [Expr.width, Term.reach]
    omega
  | .var _ _ _, _, _, .var _ _ => Nat.le_max_left _ _
  | .const _ _, _, _, .const _ _ => Nat.le_max_right _ _
  | .cond _ _ _ _, _, _, .cond _ _ _ _ => by
    simp only [Expr.width, Term.reach]
    omega
  | .call _ _ _, _, _, .call _ _ _ _ _ => by
    simp only [Expr.width, Term.reach]
    omega

mutual

/-- No term reaches over the end of the greatest frame. -/
theorem Placed.reach_le : ∀ {e : Expr} {term : Term} {reg : Nat},
    Placed scope t reg e term → term.reach ≤ frameRegisters
  | .const _ _, _, _, .const room _ => room
  | .var _ _ _, _, _, .var _ _ => Nat.zero_le _
  | .binary _ _ _ _, _, _, .binary room left right =>
    Nat.max_le.2 ⟨room, Nat.max_le.2 ⟨left.reach_le, right.reach_le⟩⟩
  | .cond _ _ _ _, _, _, .cond room tested yes no =>
    Nat.max_le.2 ⟨Nat.max_le.2 ⟨tested.reach_le, Nat.max_le.2 ⟨yes.reach_le, no.reach_le⟩⟩, room⟩
  | .call _ _ _, _, _, .call room passed _ _ _ => Nat.max_le.2 ⟨room, passed.reach_le⟩

theorem PlacedArgs.reach_le : ∀ {args : List Expr} {terms : List Term} {slot : Nat},
    PlacedArgs scope t slot args terms → Term.argsReach slot terms ≤ frameRegisters
  | [], _, _, .nil => Nat.zero_le _
  | _ :: _, _, _, .cons room first others =>
    Nat.max_le.2 ⟨Nat.max_le.2 ⟨first.reach_le, room⟩, others.reach_le⟩

end

theorem PlacedArgs.add_length_le : ∀ {args : List Expr} {terms : List Term} {slot : Nat},
    PlacedArgs scope t slot args terms →
      slot + terms.length ≤ max slot (Term.argsReach slot terms)
  | [], _, _, .nil => Nat.le_max_left _ _
  | _ :: _, _, _, .cons _ _ others => by
    have := others.add_length_le
    simp only [List.length_cons, Term.argsReach]
    omega

end

/-! ## Reach and code -/

/-- Settling a value names no register over the two it goes between. -/
theorem Term.codeFrame_settleCode_le (term : Term) {dst : Nat} (src : term.reg < 256)
    (small : dst < 256) : codeFrame (term.settleCode dst) ≤ max term.reg dst + 1 := by
  unfold settleCode
  split
  · exact Nat.zero_le _
  · rw [codeFrame_moveCode src small]
    split <;> omega

section

variable (external : Nat → Bool) {reg : Nat}

theorem codeFrame_binary {type : ValueType} (op : BinaryOp) {lhs rhs : Term}
    (left : lhs.reg < 256) (right : rhs.reg < 256) (room : reg < 256) :
    codeFrame ((Term.binary reg type op lhs rhs).code external) =
      max (max (codeFrame (lhs.code external)) (codeFrame (rhs.code external)))
        (max (max lhs.reg rhs.reg) reg + 1) := by
  rw [Term.code, codeFrame_append, codeFrame_append, codeFrame_cons, codeFrame_nil, Nat.max_zero,
    Instruction.frame_eq (Machine.maxLocalRegister_ternary op left right room)]

theorem codeFrame_cond {type : ValueType} {joinSlot elseSlot : Nat} {test onTrue onFalse : Term}
    (tested : test.reg < 256) :
    codeFrame ((Term.cond reg type joinSlot elseSlot test onTrue onFalse).code external) =
      max (max (codeFrame (test.code external)) (max (test.reg + 1)
        (max (codeFrame (onTrue.code external)) (codeFrame (onTrue.settleCode reg)))))
          (max (codeFrame (onFalse.code external)) (codeFrame (onFalse.settleCode reg))) := by
  simp only [Term.code, codeFrame_append, codeFrame_cons, frame_jmp, Nat.zero_max,
    Instruction.frame_eq (Machine.maxLocalRegister_jmpc tested _)]

theorem codeFrame_call {type : ValueType} {tail : Bool} {callee : String} {index : Nat}
    {args : List Term} (inside : reg + 1 + args.length ≤ 256) :
    codeFrame ((Term.call reg type tail callee index args).code external) =
      max (codeFrame (Term.argsCode external (reg + 1) args))
        (max (if args.length = 0 then 0 else reg + 1 + args.length)
          (if tail then 0 else reg + 1)) := by
  rw [Term.code, codeFrame_append, codeFrame_callCode inside]

end

/-- A frame that has the register of the term is large enough for the code exactly if it is as large
as the term reaches. The code may leave out the register of the term: a call that reuses the frame
does not name it. -/
def Term.Covered (external : Nat → Bool) (term : Term) : Prop :=
  ∀ n : Nat, term.reg < n → (codeFrame (term.code external) ≤ n ↔ term.reach ≤ n)

/-- The same of arguments, in a frame that has a register for each. -/
def Term.ArgsCovered (external : Nat → Bool) (slot : Nat) (terms : List Term) : Prop :=
  ∀ n : Nat, slot + terms.length ≤ n →
    (codeFrame (Term.argsCode external slot terms) ≤ n ↔ Term.argsReach slot terms ≤ n)

section

variable {scope : Scope} {t : Tables} {external : Nat → Bool} {reg : Nat}

/-- The second operand of an operation lies behind the first, and still in the greatest frame. -/
theorem Placed.add_width_le_of_le {e : Expr} {term : Term} (placed : Placed scope t reg e term)
    (le : reg ≤ 256) : reg + e.width ≤ 256 := by
  have width := placed.add_width_le
  have reach_le : term.reach ≤ 256 := placed.reach_le
  omega

theorem Term.Covered.binary {type : ValueType} {op : BinaryOp} {lhs rhs : Expr} {lhs' rhs' : Term}
    (room : reg < 256) (left : Placed scope t (reg + 1) lhs lhs')
    (right : Placed scope t (reg + 1 + lhs.width) rhs rhs') (first : lhs'.Covered external)
    (second : rhs'.Covered external) : (Term.binary reg type op lhs' rhs').Covered external := by
  intro n (own : reg < n)
  have leftWidth := left.add_width_le
  have leftReg := left.reg_lt_max
  have rightReg := right.reg_lt_max
  rw [codeFrame_binary external op (left.reg_lt_of_le room)
    (right.reg_lt_of_le (left.add_width_le_of_le room)) room]
  simp only [Term.reach, Nat.max_le]
  constructor
  · rintro ⟨⟨fromLeft, fromRight⟩, named⟩
    exact ⟨own, (first n (by omega)).1 fromLeft, (second n (by omega)).1 fromRight⟩
  · rintro ⟨-, fromLeft, fromRight⟩
    have leftNamed : lhs'.reg < n := by omega
    have rightNamed : rhs'.reg < n := by omega
    refine ⟨⟨(first n leftNamed).2 fromLeft, (second n rightNamed).2 fromRight⟩, ?_⟩
    omega

theorem Term.Covered.cond {type : ValueType} {joinSlot elseSlot : Nat} {test onTrue onFalse : Expr}
    {test' onTrue' onFalse' : Term} (room : reg < 256) (tested : Placed scope t reg test test')
    (yes : Placed scope t reg onTrue onTrue') (no : Placed scope t reg onFalse onFalse')
    (atTest : test'.Covered external) (atYes : onTrue'.Covered external)
    (atNo : onFalse'.Covered external) :
    (Term.cond reg type joinSlot elseSlot test' onTrue' onFalse').Covered external := by
  intro n (own : reg < n)
  have le : reg ≤ 256 := Nat.le_of_lt room
  have testReg := tested.reg_lt_max
  have yesReg := yes.reg_le
  have noReg := no.reg_le
  have yesSettled := onTrue'.codeFrame_settleCode_le (yes.reg_lt_of_le le) room
  have noSettled := onFalse'.codeFrame_settleCode_le (no.reg_lt_of_le le) room
  rw [codeFrame_cond external (tested.reg_lt_of_le le)]
  simp only [Term.reach, Nat.max_le, atYes n (Nat.lt_of_le_of_lt yesReg own),
    atNo n (Nat.lt_of_le_of_lt noReg own)]
  constructor
  · rintro ⟨⟨fromTest, named, fromYes, -⟩, fromNo, -⟩
    exact ⟨⟨(atTest n named).1 fromTest, fromYes, fromNo⟩, own⟩
  · rintro ⟨⟨fromTest, fromYes, fromNo⟩, -⟩
    have named : test'.reg < n := by omega
    refine ⟨⟨(atTest n named).2 fromTest, named, fromYes, ?_⟩, fromNo, ?_⟩
    all_goals omega

theorem Term.Covered.call {type : ValueType} {tail : Bool} {callee : String} {index : Nat}
    {args : List Expr} {args' : List Term} (room : reg < 256)
    (passed : PlacedArgs scope t (reg + 1) args args')
    (covered : Term.ArgsCovered external (reg + 1) args') :
    (Term.call reg type tail callee index args').Covered external := by
  intro n (own : reg < n)
  have reach := passed.add_length_le
  rw [codeFrame_call external (passed.slot_le room)]
  simp only [Term.reach, Nat.max_le]
  constructor
  · rintro ⟨fromArgs, named, -⟩
    have inside : reg + 1 + args'.length ≤ n := by
      split at named <;> omega
    exact ⟨own, (covered n inside).1 fromArgs⟩
  · rintro ⟨-, fromArgs⟩
    have inside : reg + 1 + args'.length ≤ n := by omega
    refine ⟨(covered n inside).2 fromArgs, ?_, ?_⟩
    all_goals split <;> omega

theorem Term.ArgsCovered.cons {arg : Expr} {arg' : Term} {args' : List Term} (room : reg < 256)
    (first : Placed scope t reg arg arg') (covered : arg'.Covered external)
    (others : Term.ArgsCovered external (reg + 1) args') :
    Term.ArgsCovered external reg (arg' :: args') := by
  intro n inside
  have firstReg := first.reg_le
  rw [List.length_cons] at inside
  have moved : codeFrame (moveCode arg'.reg reg) ≤ n := by
    rw [codeFrame_moveCode (first.reg_lt_of_le (Nat.le_of_lt room)) room]
    split <;> omega
  simp only [Term.argsCode, Term.argsReach, codeFrame_append, Nat.max_le,
    covered n (by omega), others n (by omega)]
  constructor
  · rintro ⟨⟨fromFirst, -⟩, fromOthers⟩
    exact ⟨⟨fromFirst, by omega⟩, fromOthers⟩
  · rintro ⟨⟨fromFirst, -⟩, fromOthers⟩
    exact ⟨⟨fromFirst, moved⟩, fromOthers⟩

end

section

variable {scope : Scope} {t : Tables} (external : Nat → Bool)

mutual

theorem Placed.covered : ∀ {e : Expr} {term : Term} {reg : Nat},
    Placed scope t reg e term → term.Covered external
  | .const _ _, _, _, .const room _ => by
    intro n _
    rw [Term.code, codeFrame_cons, codeFrame_nil, frame_loadi room, Nat.max_zero]
    rfl
  | .var _ _ _, _, _, .var _ _ => fun _ _ => Iff.rfl
  | .binary _ _ _ _, _, _, .binary room left right =>
    .binary room left right left.covered right.covered
  | .cond _ _ _ _, _, _, .cond room tested yes no =>
    .cond room tested yes no tested.covered yes.covered no.covered
  | .call _ _ _, _, _, .call room passed _ _ _ => .call room passed passed.covered

theorem PlacedArgs.covered : ∀ {args : List Expr} {terms : List Term} {slot : Nat},
    PlacedArgs scope t slot args terms → Term.ArgsCovered external slot terms
  | [], _, _, .nil => fun _ _ => Iff.rfl
  | _ :: _, _, _, .cons room first others => .cons room first first.covered others.covered

end

variable {reg : Nat}

/-- The value of a variable has to be moved to a register of its own. -/
theorem Placed.lt_codeFrame_settleCode {e : Expr} {term : Term}
    (placed : Placed scope t reg e term) (room : reg < 256) (narrow : e.width = 0) :
    reg < codeFrame (term.settleCode reg) := by
  cases placed with
  | @var _ _ _ _ b bound below =>
    show reg < codeFrame (moveCode b.reg reg)
    rw [codeFrame_moveCode (Nat.lt_trans below room) room, if_neg (Nat.ne_of_lt below)]
    omega
  | const | binary | cond | call =>
    simp only [Expr.width] at narrow
    omega

/-- A conditional brings the value of its first branch to its register, or the branch has it there
already. -/
theorem lt_codeFrame_cond {type : ValueType} {joinSlot elseSlot : Nat}
    {test onTrue : Expr} {test' onTrue' onFalse' : Term} (room : reg < 256)
    (tested : Placed scope t reg test test') (yes : Placed scope t reg onTrue onTrue')
    (named : 0 < onTrue.width → reg < codeFrame (onTrue'.code external)) :
    reg < codeFrame ((Term.cond reg type joinSlot elseSlot test' onTrue' onFalse').code
      external) := by
  rw [codeFrame_cond external (tested.reg_lt_of_le (Nat.le_of_lt room))]
  by_cases wide : 0 < onTrue.width
  · have := named wide
    omega
  · have := yes.lt_codeFrame_settleCode room (Nat.eq_zero_of_not_pos wide)
    omega

/-- Code that comes back names the register of its term, if the term is no variable. -/
theorem Placed.lt_codeFrame : ∀ {e : Expr} {term : Term} {reg : Nat},
    Placed scope t reg e term → e.Flagged false → 0 < e.width →
      reg < codeFrame (term.code external)
  | .const _ _, _, _, .const room _, _, _ => by
    rw [Term.code, codeFrame_cons, frame_loadi room]
    omega
  | .var _ _ _, _, _, .var _ _, _, wide => absurd wide (Nat.lt_irrefl 0)
  | .binary _ op _ _, _, _, .binary room left right, _, _ => by
    rw [codeFrame_binary external op (left.reg_lt_of_le room)
      (right.reg_lt_of_le (left.add_width_le_of_le room)) room]
    omega
  | .cond _ _ _ _, _, _, .cond room tested yes _, flagged, _ =>
    lt_codeFrame_cond external room tested yes (yes.lt_codeFrame flagged.2.2.1)
  | .call _ _ _, _, _, .call room passed _ _ _, flagged, _ => by
    rw [codeFrame_call external (passed.slot_le room), flagged.1]
    simp only [Bool.false_eq_true, ↓reduceIte]
    omega

end

/-! ## Sections -/

section

variable {scope : Scope} {t : Tables} {reg : Nat} {e : Expr} {term : Term}

/-- The code of an entry expression names each register that allocation reserves for it. -/
theorem Placed.codeFrame_entry (external : Nat → Bool) (placed : Placed {} t 0 e term)
    (flagged : e.Flagged false) :
    codeFrame (term.entryCode external) = max term.reach 1 % 65536 := by
  have wide : 0 < e.width := by
    rcases placed.reg_cases with ⟨wide, -⟩ | ⟨-, name, b, found, -⟩
    · exact wide
    · cases found
  have named := placed.lt_codeFrame external flagged wide
  have reach_le : term.reach ≤ 256 := placed.reach_le
  rcases placed.lt_reach wide with ⟨reg_eq, reached⟩
  have code_eq : codeFrame (term.code external) = term.reach := by
    apply Nat.le_antisymm
    · exact (placed.covered external _ (reg_eq ▸ reached)).2 le_rfl
    · exact (placed.covered external _ (reg_eq ▸ named)).1 le_rfl
  have settled : moveCode term.reg 0 = [] := by rw [reg_eq, moveCode, if_pos rfl]
  rw [Term.entryCode, settled, List.append_nil, code_eq]
  omega

theorem codeFrame_entrySection (external : Nat → Bool) {es : List Expr} {ts : List Term}
    (placed : List.Forall₂ (Placed {} t 0) es ts) (flagged : ∀ e ∈ es, e.Flagged false) :
    codeFrame (entrySection external ts) = entriesReach ts := by
  induction placed with
  | nil =>
    show max (Instruction.nullary .halt).frame 0 = 0
    rw [frame_nullary .halt rfl]
    rfl
  | @cons e term es ts first others ih =>
    have first_eq := first.codeFrame_entry external (flagged e List.mem_cons_self)
    rw [Term.entryCode] at first_eq
    rw [entrySection_cons, codeFrame_append, first_eq,
      ih fun e mem => flagged e (List.mem_cons_of_mem _ mem)]
    rfl

/-- An expression that is a variable, or a call without arguments. As a body it may name no register
behind the parameters. -/
def Expr.isBare : Expr → Bool
  | .var _ _ _ => true
  | .call _ _ args => args.isEmpty
  | _ => false

theorem Term.codeFrame_bodyCode (external : Nat → Bool) (term : Term) :
    codeFrame (term.bodyCode external) =
      max (codeFrame (term.code external)) (codeFrame (term.settleCode 0)) := by
  simp only [bodyCode, codeFrame_append, codeFrame_cons, codeFrame_nil, frame_nullary .ret rfl,
    Nat.max_zero]

/-- The code of a body names no register over those that allocation reserves. -/
theorem Placed.codeFrame_bodyCode_le (external : Nat → Bool) (placed : Placed scope t reg e term)
    (le : reg ≤ 256) : codeFrame (term.bodyCode external) ≤ max reg term.reach := by
  have own := placed.reg_lt_max
  have settled := term.codeFrame_settleCode_le (placed.reg_lt_of_le le) (Nat.zero_lt_succ 255)
  rw [Term.codeFrame_bodyCode, Nat.max_le]
  exact ⟨(placed.covered external _ own).2 (Nat.le_max_right _ _), by omega⟩

/-- The code of a body that is not bare names a register behind the parameters. A call names the
register of its last argument, and all others move their value from their own register to that of
the result. -/
theorem Placed.lt_codeFrame_bodyCode (external : Nat → Bool) (placed : Placed scope t reg e term)
    (pos : 0 < reg) (body : e.isBare = false) : reg < codeFrame (term.bodyCode external) := by
  rw [Term.codeFrame_bodyCode]
  have moved (small : reg < 256) : reg < codeFrame (moveCode reg 0) := by
    rw [codeFrame_moveCode small (Nat.zero_lt_succ 255), if_neg (Nat.ne_of_gt pos)]
    omega
  cases placed with
  | var => cases body
  | const room | binary room | cond room => exact lt_max_of_lt_right (moved room)
  | @call _ _ _ _ _ _ args args' room passed =>
    refine lt_max_of_lt_left ?_
    have several : args'.length ≠ 0 := by
      intro empty
      obtain rfl := List.length_eq_zero_iff.1 empty
      cases passed
      cases body
    rw [codeFrame_call external (passed.slot_le room), if_neg several]
    omega

theorem Placed.codeFrame_bodyCode_eq (external : Nat → Bool) (placed : Placed scope t reg e term)
    (pos : 0 < reg) (le : reg ≤ 256) (body : e.isBare = false) :
    codeFrame (term.bodyCode external) = max reg term.reach := by
  have named := placed.lt_codeFrame_bodyCode external pos body
  apply Nat.le_antisymm (placed.codeFrame_bodyCode_le external le)
  refine Nat.max_le.2 ⟨Nat.le_of_lt named, ?_⟩
  refine (placed.covered external _ (Nat.lt_of_le_of_lt placed.reg_le named)).1 ?_
  rw [Term.codeFrame_bodyCode]
  exact Nat.le_max_left _ _

end

namespace LaidOut

variable {fs : Array FunctionEntry} {code : List Instruction} {external : Nat → Bool}
  {front : List Instruction} {bs : List (Nat × Term)} {l : Laid}

/-- The frame of the entry section has the registers that its code names. -/
theorem entryReservation_ofParts (h : LaidOut fs code external front bs) (name : String)
    (constants : Array UInt64) :
    (Module.ofParts name fs constants code.toArray).entryReservation = codeFrame front := by
  simp only [Module.ofParts_eq, List.size_toArray, h.firstStart_eq]
  have size := frameSize_eq_codeFrame [] front
  simp only [List.nil_append, List.length_nil, Nat.zero_add] at size
  rw [h.code_eq, size]

/-- So has the frame of each body. -/
theorem frameSize_body (h : LaidOut fs code external front bs)
    (mem : l ∈ layBodies front.length bs) :
    frameSize code.toArray l.start l.stop = codeFrame (l.term.bodyCode external) := by
  obtain ⟨before, after, split, length⟩ := layBodies_code external front mem
  have size := frameSize_eq_codeFrame before (l.term.bodyCode external) after
  rwa [← split, ← h.code_eq, length, Term.length_bodyCode] at size

end LaidOut

/-! ## Units and modules -/

/-- The entries of a definition, in a unit and in the module that is read back from its file. The
first has the frame size that allocation noted, the second the one that is derived from the code. -/
structure FramesAgree (d : Definition) (noted derived : FunctionEntry) : Prop where
  noted_name : noted.name = d.name
  derived_name : derived.name = d.name
  noted_defined : noted.isExternal = false
  derived_defined : derived.isExternal = false
  frame_le : derived.reservation ≤ noted.reservation
  frame_eq : d.body.isBare = false → derived.reservation = noted.reservation

/-- Frame sizes are the same in a unit and in the module that is read back from its file, but for
functions with a bare body. -/
structure CompiledUnit.FramesDerived (p : Program) (unit : CompiledUnit) (m : Module) : Prop where
  entry_eq : m.entryReservation = unit.entryReservation
  definition : ∀ d ∈ p.definitions, ∃ (i : Nat) (noted derived : FunctionEntry),
    unit.functions[i]? = some noted ∧ m.functions[i]? = some derived ∧ FramesAgree d noted derived
  defined : ∀ (i : Nat) (noted : FunctionEntry), unit.functions[i]? = some noted →
    noted.isExternal = false → ∃ d ∈ p.definitions, ∃ derived, m.functions[i]? = some derived ∧
      FramesAgree d noted derived

namespace AllocatedGlobals

variable {p : Program} {items : List Item} {t : Tables}

theorem entryReservation_tableModule (h : AllocatedGlobals {} p.globals items t)
    (reserved : ReservedGlobals {} p.globals items t) (flagged : p.Flagged) (name : String)
    (small : (tableCode items t).length < UInt64.size) :
    (tableModule name items t).entryReservation = t.entryReservation := by
  rw [tableModule, (h.laidOut small).entryReservation_ofParts,
    codeFrame_entrySection _ h.entries flagged.entries, reserved.entry_eq]
  exact (Nat.zero_max _).symm

/-- The entries of a definition agree. -/
theorem framesAgree (h : AllocatedGlobals {} p.globals items t)
    (reserved : ReservedGlobals {} p.globals items t) (name : String)
    (small : (tableCode items t).length < UInt64.size) {n : Nat} {d : Definition} {b : Nat × Term}
    (hd : p.definitions[n]? = some d) (hb : (bodies items)[n]? = some b) :
    ∃ noted derived, (placedTable items t)[b.1]? = some noted ∧
      (tableModule name items t).functions[b.1]? = some derived ∧ FramesAgree d noted derived := by
  obtain ⟨b', hb', placedBody⟩ := h.exists_body hd
  obtain rfl : b = b' := Option.some.inj (hb.symm.trans hb')
  let start := entriesSize (entryTerms items) + 1 + bodiesSize ((bodies items).take n)
  let l : Laid := ⟨b.1, start, b.2⟩
  have laid : l ∈ laidBodies items := List.mem_of_getElem? (layBodies_getElem? _ hb)
  have mem : l ∈ layBodies (entrySection (isExternalAt (placedTable items t))
      (entryTerms items)).length (bodies items) := by
    rwa [length_entrySection]
  obtain ⟨f, hf, entry⟩ := h.entry_of_laid laid
  have bare : ((placedTable items t).map FunctionEntry.bare)[l.index]? =
      some { f with address := some (.ofNat l.start), reservation := 0 } := by
    rw [Array.getElem?_map, entry, Option.map_some, bare_placed small laid]
  have derived := (h.laidOut small).getElem?_ofParts name (patchedPool items t) mem bare rfl
  rw [(h.laidOut small).frameSize_body mem] at derived
  obtain ⟨f', hf', named, -⟩ := placedBody.entered
  obtain rfl : f = f' := Option.some.inj (hf.symm.trans hf')
  obtain ⟨f', hf', -, frame⟩ := reserved.body hd hb
  obtain rfl : f = f' := Option.some.inj (hf.symm.trans hf')
  obtain ⟨scope, -, placed⟩ := placedBody.placed
  have params_le : d.params.length ≤ 254 := placedBody.params_le
  have reach_le : b.2.reach ≤ 256 := placed.reach_le
  have noted : f.reservation = max (d.params.length + 1) b.2.reach := by
    rw [frame]
    omega
  refine ⟨_, _, entry, derived, named, named, rfl, rfl, ?_, ?_⟩
  · show codeFrame _ ≤ f.reservation
    rw [noted]
    exact placed.codeFrame_bodyCode_le _ (by omega)
  · intro body
    show codeFrame _ = f.reservation
    rw [noted]
    exact placed.codeFrame_bodyCode_eq _ (Nat.succ_pos _) (by omega) body

theorem framesDerived (h : AllocatedGlobals {} p.globals items t)
    (reserved : ReservedGlobals {} p.globals items t) (flagged : p.Flagged) (name : String)
    (small : (tableCode items t).length < UInt64.size) :
    (CompiledUnit.generate name items t).FramesDerived p (tableModule name items t) := by
  refine ⟨h.entryReservation_tableModule reserved flagged name small, ?_, ?_⟩
  · intro d mem
    obtain ⟨n, hd⟩ := List.mem_iff_getElem?.1 mem
    obtain ⟨b, hb, -⟩ := h.exists_body hd
    rw [h.generate_eq]
    exact ⟨b.1, h.framesAgree reserved name small hd hb⟩
  · intro i noted found defined
    rw [h.generate_eq] at found
    obtain ⟨n, d, b, hd, hb, rfl⟩ := h.exists_body_of_defined found defined
    obtain ⟨noted', derived, found', read, agree⟩ := h.framesAgree reserved name small hd hb
    obtain rfl : noted = noted' := Option.some.inj (found.symm.trans found')
    exact ⟨d, List.mem_of_getElem? hd, derived, read, agree⟩

end AllocatedGlobals

/-- A text that compiles gives a file that can be read back, and the frame sizes that are derived
from the code are those that allocation noted, as far as the code names the registers. The header
counts instructions with a machine word, and lists have no bound of their own. -/
theorem compileSource_framesDerived {name text : String} {unit : CompiledUnit}
    (h : compileSource name text = .ok unit) (fits : unit.bytes.length < UInt64.size) :
    ∃ p m, Program.parse text = .ok p ∧ unit.toModule = .ok m ∧ unit.FramesDerived p m := by
  unfold compileSource at h
  split at h
  · cases h
  rename_i p parsed
  obtain ⟨items, t, allocated, small, rfl, read⟩ := Program.toModule_of_compile h fits
  have spec := Program.allocate_spec allocated
  have reserved := Program.allocate_reserves allocated
  have flagged := Program.flagged_of_parse parsed
  exact ⟨p, _, parsed, read, spec.framesDerived reserved flagged name small⟩

/-- A text with bare bodies of either kind, and with calls that reuse the frame at two depths of a
conditional. -/
def relaying : String :=
  "(def first (a b) a) (def relay (n) (elsewhere)) " ++
  "(def down (n m) (if n (down (- n 1) m) (if m (first n m) n))) (down 3 4)"

theorem compileSource_framesDerived_relaying :
    ∃ unit, compileSource "relaying" relaying = .ok unit ∧ unit.bytes.length < UInt64.size ∧
      unit.functions.map FunctionEntry.reservation = #[3, 3, 0, 6] ∧
      unit.toModule.toOption.map (fun m => m.functions.map FunctionEntry.reservation) =
        some #[2, 0, 0, 6] ∧
      ∃ p m, Program.parse relaying = .ok p ∧ unit.toModule = .ok m ∧ unit.FramesDerived p m := by
  have compiles : (compileSource "relaying" relaying).toOption.map (fun unit =>
      (unit.bytes.length, unit.functions.map FunctionEntry.reservation,
        unit.toModule.toOption.map fun m => m.functions.map FunctionEntry.reservation)) =
          some (260, #[3, 3, 0, 6], some #[2, 0, 0, 6]) := by
    decide +kernel
  cases compiled : compileSource "relaying" relaying with
  | error e =>
    rw [compiled] at compiles
    cases compiles
  | ok unit =>
    rw [compiled] at compiles
    obtain ⟨length, sizes⟩ := Prod.mk.inj (Option.some.inj compiles)
    obtain ⟨noted, derived⟩ := Prod.mk.inj sizes
    have fits : unit.bytes.length < UInt64.size := by
      rw [length]
      decide
    exact ⟨unit, rfl, fits, noted, derived, compileSource_framesDerived compiled fits⟩

end RegLisp
