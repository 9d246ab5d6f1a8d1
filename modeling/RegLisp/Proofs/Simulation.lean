import RegLisp.Proofs.LinkedProgram
import RegLisp.Proofs.Segments

/-!
# Code computes what expressions mean

The code of a term, run where nothing limits it, leaves the value of its expression in the
register of the term and keeps all registers below its own; or it faults as the expression errs.
In return position it may instead end the whole call. The stack gets as deep as calls are pending
in the evaluation. The proof follows the expression, and for calls the depth that the evaluation
has left.
-/

namespace RegLisp

/-- The definitions of all sources. -/
def definitionsOf (sources : List Source) : List Definition :=
  (sources.map Source.program).flatMap Program.definitions

namespace Linked

variable {sources : List Source} {img : Image}

theorem small (h : Linked sources img) : img.Small := by
  refine Image.small_of_link ?_ h.image_eq
  intro m mem
  obtain ⟨j, hm⟩ := List.mem_iff_getElem?.1 mem
  obtain ⟨s, -, o, rfl⟩ := getElem?_source hm
  obtain ⟨unit, -, loaded⟩ := s.reload_eq
  exact .moved o (.decoded loaded)

theorem exists_resides {definition : Definition} (mem : definition ∈ definitionsOf sources) :
    ∃ d s l g, Resides sources d s definition l g := by
  simp only [definitionsOf, List.mem_flatMap, List.mem_map] at mem
  obtain ⟨_, ⟨s, mem_s, rfl⟩, mem⟩ := mem
  obtain ⟨d, hd⟩ := List.mem_iff_getElem?.1 mem_s
  rw [← List.map_fst_zip (Nat.le_of_eq s.compiled.laid_placed.length_eq)] at mem
  obtain ⟨⟨_, l⟩, paired, rfl⟩ := List.mem_map.1 mem
  obtain ⟨g, entry_eq, address_eq, -⟩ := s.compiled.body_owned l (List.of_mem_zip paired).2
  exact ⟨d, s, l, g, hd, paired, entry_eq, address_eq⟩

/-- Looking a definition up by its name finds it. -/
theorem find?_definitionsOf (h : Linked sources img) {d : Nat} {s : Source}
    {definition : Definition} {l : Laid} {g : FunctionEntry}
    (r : Resides sources d s definition l g) :
    (definitionsOf sources).find? (·.name == definition.name) = some definition := by
  have mem : definition ∈ definitionsOf sources := by
    simp only [definitionsOf, List.mem_flatMap, List.mem_map]
    exact ⟨s.program, ⟨s, List.mem_of_getElem? r.source_eq, rfl⟩, (List.of_mem_zip r.paired).1⟩
  cases found : (definitionsOf sources).find? (·.name == definition.name) with
  | none =>
    have := List.find?_eq_none.1 found definition mem
    simp at this
  | some definition' =>
    have name_eq := List.find?_some found
    obtain ⟨d', s', l', g', r'⟩ := exists_resides (List.mem_of_find?_eq_some found)
    rw [h.definition_unique r r' (eq_of_beq name_eq).symm]

/-- A call evaluates the body of the definition. -/
theorem countCall_eq (h : Linked sources img) {d : Nat} {s : Source} {definition : Definition}
    {l : Laid} {g : FunctionEntry} (r : Resides sources d s definition l g)
    (depth pending : Nat) {values : List Int64}
    (length_eq : values.length = definition.params.length) :
    countCall (definitionsOf sources) (depth + 1) pending definition.name values =
      definition.body.count (countCall (definitionsOf sources) depth)
        ((definition.params.map Param.name).zip values) pending true := by
  rw [countCall, h.find?_definitionsOf r]
  exact if_pos length_eq.symm

end Linked

/-! ## Registers of names and terms -/

/-- Each name of the scope has a value, which is in its register below the given one. -/
def Bound (scope : Scope) (env : List (String × Int64)) (lo : Nat) (m : Machine) : Prop :=
  ∀ name b, scope.lookup name = some b → b.reg < lo ∧ b.reg < 256 ∧
    ∃ v, env.lookup name = some v ∧ (b.reg < m.reservation → m.register (m.base + b.reg) = v)

theorem Bound.kept {scope : Scope} {env : List (String × Int64)} {lo lo' : Nat} {m m' : Machine}
    (h : Bound scope env lo m) (kept : Machine.Kept lo m m') (le : lo ≤ lo') :
    Bound scope env lo' m' := by
  intro name b bound
  obtain ⟨below, small, v, value, register_eq⟩ := h name b bound
  refine ⟨by omega, small, v, value, ?_⟩
  rw [kept.reservation_eq, kept.base_eq]
  intro inside
  rw [kept.register_eq _ (by omega) (by omega)]
  exact register_eq inside

/-- The value of a variable stays in its register; every other term has a register of its own. -/
theorem Placed.reg_cases {scope : Scope} {t : Tables} {reg : Nat} {e : Expr} {term : Term}
    (placed : Placed scope t reg e term) :
    0 < e.width ∧ term.reg = reg ∧ reg < 256 ∨
      e.width = 0 ∧ ∃ name b, scope.lookup name = some b ∧ term.reg = b.reg := by
  cases placed with
  | const room => exact .inl ⟨by simp [Expr.width], rfl, room⟩
  | var bound below => exact .inr ⟨rfl, _, _, bound, rfl⟩
  | binary room => exact .inl ⟨by simp only [Expr.width]; omega, rfl, room⟩
  | cond room => exact .inl ⟨by simp [Expr.width], rfl, room⟩
  | call room => exact .inl ⟨by simp [Expr.width], rfl, room⟩

theorem Placed.reg_lt {scope : Scope} {t : Tables} {reg lo : Nat} {e : Expr} {term : Term}
    {env : List (String × Int64)} {m : Machine} (placed : Placed scope t reg e term)
    (bound : Bound scope env lo m) : term.reg < 256 := by
  rcases placed.reg_cases with ⟨-, reg_eq, small⟩ | ⟨-, name, b, found, reg_eq⟩
  · omega
  · have := (bound name b found).2.1
    omega

theorem Placed.width_pos {scope : Scope} {t : Tables} {reg : Nat} {e : Expr} {term : Term}
    {env : List (String × Int64)} {m : Machine} (placed : Placed scope t reg e term)
    (bound : Bound scope env reg m) : term.reg = reg → 0 < e.width := by
  intro own
  rcases placed.reg_cases with ⟨wide, -⟩ | ⟨-, name, b, found, reg_eq⟩
  · exact wide
  · have := (bound name b found).1
    omega

theorem PlacedArgs.slot_le {scope : Scope} {t : Tables} {slot : Nat} {es : List Expr}
    {ts : List Term} (placed : PlacedArgs scope t slot es ts) (le : slot ≤ 256) :
    slot + ts.length ≤ 256 := by
  induction es generalizing slot ts with
  | nil =>
    cases placed
    exact le
  | cons e es ih =>
    cases placed with
    | cons room first others =>
      have := ih others room
      rw [List.length_cons]
      omega

/-! ## Ends of segments -/

namespace Machine

/-- The term at `m` has been executed to its end. -/
structure Finished (reg : Nat) (e : Expr) (t : Term) (m : Machine) (v : Int64) (m' : Machine) :
    Prop where
  kept : Kept reg m m'
  pc_eq : m'.pc = m.pc + t.size
  /-- The register of a variable may be outside a frame that does not use it. -/
  value_eq : 0 < e.width ∨ t.reg < m.reservation → m'.register (m.base + t.reg) = v
  comesBack : t.isTailCall = false

/-- The call that the frame of `m` belongs to has ended with a value. -/
structure Answered (caller : Frame) (m : Machine) (v : Int64) (m' : Machine) : Prop where
  stack_eq : m.stack = m'.stack.push caller
  pc_eq : m'.pc = caller.returnPc
  base_eq : m'.base = caller.base
  reservation_eq : m'.reservation = caller.reservation
  module_eq : m'.module = caller.module
  status_eq : m'.status = m.status
  size_eq : m'.registers.size = m.registers.size
  value_eq : m'.register m.base = v
  register_eq : ∀ x < m.base, m'.register x = m.register x

variable {img : Image} {limits : Limits} {depth : Nat} {m m₁ m₂ m' : Machine} {caller : Frame}
  {v : Int64}

/-- What happened in the frame before the call ended does not matter to the caller. -/
theorem Answered.of_same (same : SameFrame m m₁)
    (register_eq : ∀ x < m.base, m₁.register x = m.register x)
    (h : Answered caller m₁ v m') : Answered caller m v m' := by
  refine ⟨same.stack_eq ▸ h.stack_eq, h.pc_eq, h.base_eq, h.reservation_eq, h.module_eq,
    h.status_eq.trans same.status_eq, h.size_eq.trans same.size_eq, same.base_eq ▸ h.value_eq, ?_⟩
  intro x lt
  rw [h.register_eq x (by rwa [same.base_eq]), register_eq x lt]

theorem Answered.of_kept {lo : Nat} (kept : Kept lo m m₁) (h : Answered caller m₁ v m') :
    Answered caller m v m' :=
  h.of_same kept.toSameFrame fun x _ => kept.register_eq x (by omega) (by omega)

/-- The value of a finished term is brought to a register at or below its own. -/
theorem Finished.settles {scope : Scope} {tables : Tables} {env : List (String × Int64)}
    {reg dst : Nat} {e : Expr} {t : Term} (finished : Finished reg e t m v m₁)
    (ready : Ready limits depth m) (placed : Placed scope tables reg e t)
    (bound : Bound scope env reg m) (le : dst ≤ reg) (small : dst < 256)
    (own : t.reg = dst → 0 < e.width)
    (holds : Holds img m.reservation (m.pc + t.size) (moveCode t.reg dst)) :
    ∃ count m₂, Proceeds img limits count m₁ m₂ ∧ Kept dst m m₂ ∧
      m₂.pc = m.pc + (t.size + moveSize t.reg dst) ∧ m₂.register (m.base + dst) = v := by
  have kept := finished.kept
  rw [← finished.pc_eq, ← kept.reservation_eq] at holds
  obtain ⟨count, m₂, proceeds, moved, pc_eq, register_eq, source⟩ :=
    (ready.same kept.toSameFrame).moves (placed.reg_lt bound) small holds
  refine ⟨count, m₂, proceeds, (kept.mono le).trans moved (Nat.le_refl _), ?_, ?_⟩
  · rw [pc_eq, finished.pc_eq, Nat.add_assoc]
  · rw [kept.base_eq] at register_eq
    rw [register_eq]
    apply finished.value_eq
    by_cases same : t.reg = dst
    · exact .inl (own same)
    · exact .inr (kept.reservation_eq ▸ source same)

/-- From the end of a body, control goes back to the caller. -/
theorem Kept.answers {lo : Nat} (kept : Kept lo m m₁) (ready : Ready limits depth m)
    (caller_eq : m.stack.back? = some caller)
    (fetched : img.code[m₁.pc]? = some (.nullary .ret)) (value_eq : m₁.register m.base = v) :
    ∃ m', Proceeds img limits 1 m₁ m' ∧ Answered caller m v m' := by
  have planned : m₁.plan img limits .ret (.nullary .ret) = .ok (.leave caller) := by
    simp only [plan, kept.stack_eq, caller_eq]
  obtain ⟨stack, stack_eq⟩ := Array.back?_eq_some_iff.1 caller_eq
  refine ⟨_, (ready.same kept.toSameFrame).proceeds_apply fetched rfl planned, ?_⟩
  refine ⟨?_, rfl, rfl, rfl, rfl, kept.status_eq, kept.size_eq, value_eq, ?_⟩
  · simp only [Machine.apply, kept.stack_eq, stack_eq, Array.pop_push]
  · intro x lt
    exact kept.register_eq x (by omega) (by omega)

theorem Finished.settleCode_eq {reg : Nat} {e : Expr} {t : Term}
    (finished : Finished reg e t m v m₁) (dst : Nat) :
    t.settleCode dst = moveCode t.reg dst ∧ t.settleSize dst = moveSize t.reg dst := by
  simp [Term.settleCode, Term.settleSize, finished.comesBack]

end Machine

/-! ## Calls -/

open Machine

/-- The machine is at the start of a definition, with its arguments in their registers. -/
structure Enters (img : Image) (d : Nat) (l : Laid) (g : FunctionEntry) (values : List Int64)
    (caller : Frame) (m : Machine) : Prop where
  module_eq : m.module = d
  pc_eq : m.pc = img.codeOffset d + l.start
  reservation_eq : m.reservation = g.reservation
  caller_eq : m.stack.back? = some caller
  value_eq : ∀ (i : Nat) (v : Int64), values[i]? = some v → m.register (m.base + 1 + i) = v

/-- Every definition, once entered, computes its body and goes back to the caller. -/
def BodiesAgree (sources : List Source) (img : Image) (limits : Limits) (depth : Nat) : Prop :=
  ∀ (d : Nat) (s : Source) (definition : Definition) (l : Laid) (g : FunctionEntry)
    (values : List Int64) (caller : Frame) (m : Machine),
    Resides sources d s definition l g → values.length = definition.params.length →
      Enters img d l g values caller m → Ready limits depth m →
        Follows img limits depth m (Answered caller m)
          (definition.body.count (countCall (definitionsOf sources) depth)
            ((definition.params.map Param.name).zip values) m.stack.size true)

/-- A call, with its arguments above its register, goes to a definition. -/
structure CallsTo (sources : List Source) (img : Image) (external : Bool) (reg index : Nat)
    (values : List Int64) (m : Machine) (d : Nat) (s : Source) (definition : Definition) (l : Laid)
    (g : FunctionEntry) : Prop where
  resides : Resides sources d s definition l g
  length_eq : values.length = definition.params.length
  small : reg + values.length < 256
  value_eq : ∀ (i : Nat) (v : Int64), values[i]? = some v → reg + 1 + i < m.reservation →
    m.register (m.base + (reg + 1 + i)) = v
  found : ∀ (m' : Machine) (op : Opcode), m'.module = m.module →
    m'.callee img external (Instruction.call op (.ofNat index)).callIndex =
      .ok ⟨img.codeOffset d + l.start, d, g.reservation⟩

namespace CallsTo

variable {sources : List Source} {img : Image} {limits : Limits} {depth : Nat} {external : Bool}
  {reg index : Nat} {values : List Int64} {m : Machine} {d : Nat} {s : Source}
  {definition : Definition} {l : Laid} {g : FunctionEntry}

theorem reservation_le (calls : CallsTo sources img external reg index values m d s definition l g)
    (h : Linked sources img) : g.reservation ≤ 256 :=
  callee_reservation_le h.small (calls.found m .nop rfl)

/-- The value of a passed argument. -/
theorem register_eq {place : Nat} {m' : Machine}
    (calls : CallsTo sources img external reg index values m d s definition l g)
    (copied : ∀ i < values.length, reg + 1 + i < m.reservation ∧
      m'.register (place + 1 + i) = m.register (m.base + (reg + 1 + i)))
    {i : Nat} {v : Int64} (hv : values[i]? = some v) : m'.register (place + 1 + i) = v := by
  have lt := (List.getElem?_eq_some_iff.1 hv).1
  obtain ⟨inside, eq⟩ := copied i lt
  exact eq.trans (calls.value_eq i v hv inside)

/-- A call that comes back leaves its value in its register. -/
theorem comesBack (calls : CallsTo sources img external reg index values m d s definition l g)
    (h : Linked sources img) (bodies : BodiesAgree sources img limits depth)
    (ready : Ready limits (depth + 1) m)
    (holds : Holds img m.reservation m.pc (callCode external false reg index values.length)) :
    Follows img limits (depth + 1) m
      (fun v m' => Kept reg m m' ∧ m'.pc = m.pc + (values.length + 2) ∧
        m'.register (m.base + reg) = v)
      (do
        Counted.enter (m.stack.size + 1)
        countCall (definitionsOf sources) (depth + 1) (m.stack.size + 1) definition.name
          values) := by
  have small := calls.small
  simp only [callCode, Bool.false_eq_true, ↓reduceIte] at holds
  obtain ⟨m₁, proceeds, same, pc_eq, copied, others⟩ := ready.passes .window small holds.left
  have rest := holds.right
  rw [length_passCode, ← pc_eq] at rest
  obtain ⟨step, ready₂⟩ := (ready.same same).enters rest.head
    (fun op => calls.found m₁ op same.module_eq) (calls.reservation_le h)
  have entered : Enters img d l g values ⟨m₁.pc + 1, m₁.base, m₁.module, m₁.reservation⟩
      (m₁.apply (.enter ⟨img.codeOffset d + l.start, d, g.reservation⟩)) := by
    refine ⟨rfl, rfl, rfl, Array.back?_push, ?_⟩
    intro i v hv
    change m₁.register (m₁.base + m₁.reservation + 1 + i) = v
    rw [same.base_eq, same.reservation_eq]
    exact calls.register_eq copied hv
  have body := bodies d s definition l g values _ _ calls.resides calls.length_eq entered ready₂
  have deeper : (m₁.apply (.enter ⟨img.codeOffset d + l.start, d, g.reservation⟩)).stack.size =
      m.stack.size + 1 := by
    simp only [Machine.apply, Array.size_push, same.stack_eq]
  rw [deeper] at body
  rw [h.countCall_eq calls.resides depth _ calls.length_eq]
  refine Follows.of_proceeds proceeds (Nat.le_add_left _ _)
    (Follows.of_enter step ?_ (Nat.le_of_eq (Nat.add_comm _ _)) (body.extend ?_))
  · simp only [Machine.apply, same.stack_eq]
  intro v m₃ answered
  -- The frame of the callee was the window, so that its result is in the first register there.
  have same₃ : SameFrame m m₃ := by
    refine same.trans ⟨?_, answered.base_eq, answered.reservation_eq, answered.module_eq,
      answered.status_eq, answered.size_eq⟩
    exact (Array.push_inj_left.1 answered.stack_eq).symm
  have ready₃ := ready.same same₃
  have back : m₃.pc = m₁.pc + 1 := answered.pc_eq
  have mov := rest.tail.head
  rw [← back] at mov
  have inside := ready₃.frame_lt (show reg < 256 by omega)
  refine ⟨1, _, ready₃.proceeds_apply mov rfl (plan_mov_fromWindow (by omega) (by omega)),
    ⟨same₃.trans (sameFrame_write _ _ _), ?_⟩, ?_, ?_⟩
  · intro x below within
    have below' : x < m₁.base + m₁.reservation := by
      rw [same.base_eq, same.reservation_eq]
      omega
    rw [register_write inside, if_neg (by rw [same₃.base_eq]; omega),
      answered.register_eq x below']
    exact others x (by omega)
  · simp only [Machine.apply, back, pc_eq]
    omega
  · rw [register_write inside, same₃.base_eq, if_pos rfl, same₃.reservation_eq, ← same.base_eq,
      ← same.reservation_eq]
    exact answered.value_eq

/-- A call in return position ends the call that its frame belongs to. -/
theorem ends {caller : Frame}
    (calls : CallsTo sources img external reg index values m d s definition l g)
    (h : Linked sources img) (bodies : BodiesAgree sources img limits depth)
    (ready : Ready limits (depth + 1) m) (caller_eq : m.stack.back? = some caller)
    (holds : Holds img m.reservation m.pc (callCode external true reg index values.length)) :
    Follows img limits (depth + 1) m (Answered caller m)
      (countCall (definitionsOf sources) (depth + 1) m.stack.size definition.name values) := by
  have small := calls.small
  simp only [callCode, ↓reduceIte] at holds
  obtain ⟨m₁, proceeds, same, pc_eq, copied, others⟩ := ready.passes .frame small holds.left
  have rest := holds.right
  rw [length_passCode, ← pc_eq] at rest
  obtain ⟨step, ready₂⟩ := (ready.same same).reenters rest.head
    (fun op => calls.found m₁ op same.module_eq) (calls.reservation_le h)
  have entered : Enters img d l g values caller
      (m₁.apply (.reenter ⟨img.codeOffset d + l.start, d, g.reservation⟩)) := by
    refine ⟨rfl, rfl, rfl, same.stack_eq ▸ caller_eq, ?_⟩
    intro i v hv
    change m₁.register (m₁.base + 1 + i) = v
    rw [same.base_eq]
    exact calls.register_eq copied hv
  have body := bodies d s definition l g values _ _ calls.resides calls.length_eq entered ready₂
  have level : (m₁.apply (.reenter ⟨img.codeOffset d + l.start, d, g.reservation⟩)).stack.size =
      m.stack.size := by
    simp only [Machine.apply, same.stack_eq]
  rw [level] at body
  rw [h.countCall_eq calls.resides depth _ calls.length_eq]
  refine Follows.of_proceeds (proceeds.trans step) (by omega) (body.imp ?_)
  intro v m₂ answered
  -- The callee has another module and reservation, but they are not what its caller gets back.
  have ended : Answered caller m₁ v m₂ :=
    ⟨answered.stack_eq, answered.pc_eq, answered.base_eq, answered.reservation_eq,
      answered.module_eq, answered.status_eq, answered.size_eq, answered.value_eq,
      answered.register_eq⟩
  exact ended.of_same same fun x lt => others x (.inl (by omega))

end CallsTo

/-! ## Terms -/

/-- What stays the same while the code of an expression is run: the program, the limits and the
depth that is left for calls, the calls that are pending, the module, and the names with their
values. -/
structure Setting where
  sources : List Source
  img : Image
  linked : Linked sources img
  limits : Limits
  depth : Nat
  pending : Nat
  module : Nat
  s : Source
  source_eq : sources[module]? = some s
  scope : Scope
  env : List (String × Int64)

namespace Setting

def external (c : Setting) : Nat → Bool := isExternalAt c.s.module.functions

/-- The address in the image of an address of the module. -/
def address (c : Setting) (a : Nat) : Nat := c.img.codeOffset c.module + a

/-- The meaning of an expression, in return position or not. -/
def count (c : Setting) (tail : Bool) (e : Expr) : Counted Int64 :=
  e.count (countCall (definitionsOf c.sources) c.depth) c.env c.pending tail

def countArgs (c : Setting) (es : List Expr) : Counted (List Int64) :=
  Expr.countArgs (countCall (definitionsOf c.sources) c.depth) c.env c.pending es

/-- The code of a term is in the image, and its slots are filled. -/
structure Emits (c : Setting) (reservation a : Nat) (t : Term) : Prop where
  holds : Holds c.img reservation (c.address a) (t.code c.external)
  filled : ∀ x ∈ t.fills a, c.s.module.constants[x.1]? = some x.2
  words : c.address a + t.size < UInt64.size

/-- The code of arguments is in the image, and its slots are filled. -/
structure EmitsArgs (c : Setting) (reservation a slot : Nat) (ts : List Term) : Prop where
  holds : Holds c.img reservation (c.address a) (Term.argsCode c.external slot ts)
  filled : ∀ x ∈ Term.argsFills a slot ts, c.s.module.constants[x.1]? = some x.2
  words : c.address a + Term.argsSize slot ts < UInt64.size

/-- The machine is at an address of the module, with the values of all names in registers below
the given one. -/
structure Stands (c : Setting) (lo a : Nat) (m : Machine) : Prop where
  module_eq : m.module = c.module
  pc_eq : m.pc = c.address a
  ready : Ready c.limits c.depth m
  pending_eq : m.stack.size = c.pending
  bound : Bound c.scope c.env lo m

/-- The code of a term computes its expression; in return position it may end the call. -/
def Simulates (c : Setting) (tail : Bool) (reg : Nat) (e : Expr) (t : Term) : Prop :=
  ∀ (a : Nat) (m : Machine) (caller : Frame), c.Emits m.reservation a t → c.Stands reg a m →
    (tail = true → m.stack.back? = some caller) →
      Follows c.img c.limits c.depth m
        (fun v m' => Finished reg e t m v m' ∨ tail = true ∧ Answered caller m v m')
        (c.count tail e)

variable {c : Setting} {tail : Bool} {reg lo lo' a a' : Nat} {e : Expr} {t : Term}
  {m m' : Machine}

theorem Stands.kept (stands : c.Stands lo a m) (kept : Kept lo m m')
    (pc_eq : m'.pc = c.address a') (le : lo ≤ lo') : c.Stands lo' a' m' where
  module_eq := kept.module_eq.trans stands.module_eq
  pc_eq := pc_eq
  ready := stands.ready.same kept.toSameFrame
  pending_eq := kept.stack_eq ▸ stands.pending_eq
  bound := stands.bound.kept kept le

theorem Stands.mono (stands : c.Stands lo a m) (le : lo ≤ lo') : c.Stands lo' a m :=
  stands.kept (.refl lo m) stands.pc_eq le

/-- Outside of return position, the code of a term comes to its end. -/
theorem Simulates.finishes (h : c.Simulates false reg e t) (emits : c.Emits m.reservation a t)
    (stands : c.Stands reg a m) :
    Follows c.img c.limits c.depth m (Finished reg e t m) (c.count false e) := by
  refine (h a m ⟨0, 0, 0, 0⟩ emits stands (by simp)).imp ?_
  rintro v m' (finished | ⟨⟨⟩, -⟩)
  exact finished

/-- The value of a term is brought to a register at or below its own, unless the call has
ended. -/
theorem Simulates.settles {dst : Nat} {caller : Frame} (h : c.Simulates tail reg e t)
    (placed : Placed c.scope c.s.compiled.tables reg e t) (le : dst ≤ reg) (small : dst < 256)
    (own : t.reg = dst → 0 < e.width) (emits : c.Emits m.reservation a t)
    (holds : Holds c.img m.reservation (c.address a + t.size) (t.settleCode dst))
    (stands : c.Stands reg a m) (nested : tail = true → m.stack.back? = some caller) :
    Follows c.img c.limits c.depth m
      (fun v m' => (Kept dst m m' ∧ m'.pc = m.pc + (t.size + t.settleSize dst) ∧
          m'.register (m.base + dst) = v) ∨ tail = true ∧ Answered caller m v m')
      (c.count tail e) := by
  refine (h a m caller emits stands nested).extend ?_
  rintro v m₁ (finished | answered)
  · obtain ⟨code_eq, size_eq⟩ := finished.settleCode_eq dst
    rw [code_eq, ← stands.pc_eq] at holds
    obtain ⟨count, m₂, proceeds, kept, pc_eq, value_eq⟩ :=
      finished.settles stands.ready placed stands.bound le small own holds
    rw [← size_eq] at pc_eq
    exact ⟨count, m₂, proceeds, .inl ⟨kept, pc_eq, value_eq⟩⟩
  · exact ⟨0, m₁, .refl _ _ _, .inr answered⟩

theorem simulates_const {flag : Bool} {slot : Nat} {value : Literal} (room : reg < 256) :
    c.Simulates tail reg (.const flag value) (.const reg slot value) := by
  intro a m caller emits stands _
  have filled := emits.filled (slot, value.toWord) (List.mem_singleton.2 rfl)
  have fetched := emits.holds.head
  rw [← stands.pc_eq] at fetched
  have planned : m.plan c.img c.limits .loadi (.const .loadi (.ofNat reg) (.ofNat slot)) =
      .ok (.write (m.base + reg) value.toWord.toInt64) := by
    simp only [plan, c.linked.constant_eq_ok c.source_eq stands.module_eq filled]
    simp only [writeReg, Instruction.const, byte_toNat room]
  have inside := stands.ready.frame_lt room
  refine .value (stands.ready.proceeds_apply fetched rfl planned) (.inl ?_)
  refine ⟨kept_write inside _ (Nat.le_refl _), rfl, ?_, rfl⟩
  intro _
  exact (register_write inside _ _).trans (if_pos rfl)

theorem simulates_var {flag : Bool} {type : ValueType} {name : String} {b : Binding}
    (bound : c.scope.lookup name = some b) :
    c.Simulates tail reg (.var flag type name) (.var b.reg b.type name) := by
  intro a m caller _ stands _
  obtain ⟨-, -, v, value, register_eq⟩ := stands.bound name b bound
  simp only [Setting.count, Expr.count, value]
  refine .value (.refl _ _ _) (.inl ⟨.refl _ _, rfl, ?_, rfl⟩)
  rintro (impossible | inside)
  · simp [Expr.width] at impossible
  · exact register_eq inside

theorem simulates_binary {flag : Bool} {type : ValueType} {op : BinaryOp} {lhs rhs : Expr}
    {lhs' rhs' : Term} (room : reg < 256)
    (placed : Placed c.scope c.s.compiled.tables (reg + 1) lhs lhs')
    (placed' : Placed c.scope c.s.compiled.tables (reg + 1 + lhs.width) rhs rhs')
    (left : c.Simulates false (reg + 1) lhs lhs')
    (right : c.Simulates false (reg + 1 + lhs.width) rhs rhs') :
    c.Simulates tail reg (.binary flag op lhs rhs) (.binary reg type op lhs' rhs') := by
  intro a m caller ⟨holds, filled, words⟩ stands _
  simp only [Term.code] at holds
  simp only [Term.fills, List.forall_mem_append] at filled
  simp only [Term.size] at words
  have emits : c.Emits m.reservation a lhs' := ⟨holds.left.left, filled.1, by omega⟩
  have stands₀ : c.Stands (reg + 1) a m := stands.mono (by omega)
  simp only [Setting.count, Expr.count]
  refine (left.finishes emits stands₀).bind fun x m₁ first => ?_
  have stands₁ : c.Stands (reg + 1 + lhs.width) (a + lhs'.size) m₁ := by
    refine stands₀.kept first.kept ?_ (by omega)
    rw [first.pc_eq, stands.pc_eq, address, address, Nat.add_assoc]
  have emits' : c.Emits m₁.reservation (a + lhs'.size) rhs' := by
    have code := holds.left.right
    rw [Term.length_code, address, Nat.add_assoc] at code
    rw [first.kept.reservation_eq]
    exact ⟨code, filled.2, by rw [address] at words ⊢; omega⟩
  refine (right.finishes emits' stands₁).bind fun y m₂ second => ?_
  have kept : Kept (reg + 1) m m₂ := first.kept.trans second.kept (by omega)
  have last := holds.right
  rw [List.length_append, Term.length_code, Term.length_code, ← Nat.add_assoc, ← stands.pc_eq,
    ← first.pc_eq, ← second.pc_eq] at last
  have small := placed.reg_lt stands₀.bound
  have small' := placed'.reg_lt stands₁.bound
  have inside := last.head_lt (maxLocalRegister_ternary op small small' room)
  -- The first operand lies below all registers of the second one, which therefore keeps it.
  have lhs_eq : m₂.register (m₂.base + lhs'.reg) = x := by
    rw [second.kept.base_eq, second.kept.register_eq, first.kept.base_eq]
    · exact first.value_eq (.inr (by omega))
    · rcases placed.reg_cases with ⟨wide, reg_eq, -⟩ | ⟨-, name, b, found, reg_eq⟩
      · omega
      · have := (stands.bound name b found).1
        omega
    · rw [first.kept.reservation_eq]
      omega
  have rhs_eq : m₂.register (m₂.base + rhs'.reg) = y := by
    rw [second.kept.base_eq]
    exact second.value_eq (.inr (by rw [first.kept.reservation_eq]; omega))
  have ready := stands.ready.same kept.toSameFrame
  have written := ready.frame_lt room
  rw [← lhs_eq, ← rhs_eq]
  refine (Follows.lift (ready.operates small small' room last.head) ?_).imp ?_
  · rintro v _ rfl
    rfl
  rintro v _ rfl
  refine .inl ⟨(kept.mono (by omega)).trans (kept_write written _ (Nat.le_refl _)) (Nat.le_refl _),
    ?_, ?_, rfl⟩
  · simp only [Machine.apply, Term.size, second.pc_eq, first.pc_eq]
    omega
  · intro _
    rw [register_write written, kept.base_eq]
    exact if_pos rfl

/-- The parts of a conditional are in the image, and its jumps go to its second branch and behind
it. -/
structure EmitsCond (c : Setting) (reservation a reg joinSlot elseSlot : Nat)
    (test onTrue onFalse : Term) (thenStart elseStart join : Nat) : Prop where
  tested : c.Emits reservation a test
  branch : Holds c.img reservation (c.address a + test.size)
    [.const .jmpc (.ofNat test.reg) (.ofNat elseSlot)]
  yes : c.Emits reservation thenStart onTrue
  settleYes : Holds c.img reservation (c.address thenStart + onTrue.size) (onTrue.settleCode reg)
  skip : Holds c.img reservation (c.address thenStart + (onTrue.size + onTrue.settleSize reg))
    [.const .jmp 0 (.ofNat joinSlot)]
  no : c.Emits reservation elseStart onFalse
  settleNo : Holds c.img reservation (c.address elseStart + onFalse.size) (onFalse.settleCode reg)
  elseSlot_eq : c.s.module.constants[elseSlot]? = some (.ofNat elseStart)
  joinSlot_eq : c.s.module.constants[joinSlot]? = some (.ofNat join)
  elseStart_lt : c.address elseStart < UInt64.size
  join_lt : c.address join < UInt64.size

theorem Emits.cond {reservation joinSlot elseSlot : Nat} {type : ValueType}
    {test onTrue onFalse : Term}
    (h : c.Emits reservation a (.cond reg type joinSlot elseSlot test onTrue onFalse)) :
    c.EmitsCond reservation a reg joinSlot elseSlot test onTrue onFalse (a + test.size + 1)
      (a + test.size + 1 + (onTrue.size + onTrue.settleSize reg) + 1)
      (a + test.size + 1 + (onTrue.size + onTrue.settleSize reg) + 1 +
        (onFalse.size + onFalse.settleSize reg)) := by
  obtain ⟨holds, filled, words⟩ := h
  simp only [Term.code] at holds
  simp only [Term.fills, List.forall_mem_cons, List.forall_mem_append] at filled
  simp only [Term.size, address] at words
  obtain ⟨join, other, ⟨filledTest, filledYes⟩, filledNo⟩ := filled
  have first := holds.left.right
  have second := holds.right
  simp only [List.length_append, List.length_cons, Term.length_code, Term.length_settleCode,
    address] at first second
  have settleYes := first.tail.right
  have settleNo := second.tail.right
  rw [Term.length_code] at settleYes settleNo
  refine ⟨⟨holds.left.left, filledTest, ?_⟩, first.single, ⟨first.tail.left.cast ?_, filledYes, ?_⟩,
    settleYes.cast ?_, second.single.cast ?_, ⟨second.tail.left.cast ?_, filledNo, ?_⟩,
    settleNo.cast ?_, other, join, ?_, ?_⟩
  all_goals
    simp only [address]
    omega

/-- A branch, when nothing has changed since the conditional was begun, ends with its value in the
register of the conditional, unless the call has ended. -/
theorem Simulates.branch {start : Nat} {caller : Frame} (h : c.Simulates tail reg e t)
    (room : reg < 256) (placed : Placed c.scope c.s.compiled.tables reg e t)
    (emits : c.Emits m.reservation start t)
    (holds : Holds c.img m.reservation (c.address start + t.size) (t.settleCode reg))
    (stands : c.Stands reg a m) (nested : tail = true → m.stack.back? = some caller)
    (kept : Kept reg m m') (pc_eq : m'.pc = c.address start) :
    Follows c.img c.limits c.depth m'
      (fun v m'' => (Kept reg m m'' ∧ m''.pc = c.address start + (t.size + t.settleSize reg) ∧
          m''.register (m.base + reg) = v) ∨ tail = true ∧ Answered caller m v m'')
      (c.count tail e) := by
  have own := placed.width_pos stands.bound
  rw [← kept.reservation_eq] at emits holds
  rw [← kept.stack_eq] at nested
  have stands' : c.Stands reg start m' := stands.kept kept pc_eq (Nat.le_refl _)
  refine (h.settles placed (Nat.le_refl _) room own emits holds stands' nested).imp ?_
  rintro v m'' (⟨kept', pc_eq', value_eq⟩ | ⟨on, answered⟩)
  · rw [pc_eq] at pc_eq'
    rw [kept.base_eq] at value_eq
    exact .inl ⟨kept.trans kept' (Nat.le_refl _), pc_eq', value_eq⟩
  · exact .inr ⟨on, answered.of_kept kept⟩

theorem simulates_cond {flag : Bool} {type : ValueType} {joinSlot elseSlot : Nat}
    {test onTrue onFalse : Expr} {test' onTrue' onFalse' : Term} (room : reg < 256)
    (placed : Placed c.scope c.s.compiled.tables reg test test')
    (placedYes : Placed c.scope c.s.compiled.tables reg onTrue onTrue')
    (placedNo : Placed c.scope c.s.compiled.tables reg onFalse onFalse')
    (tested : c.Simulates false reg test test') (yes : c.Simulates tail reg onTrue onTrue')
    (no : c.Simulates tail reg onFalse onFalse') :
    c.Simulates tail reg (.cond flag test onTrue onFalse)
      (.cond reg type joinSlot elseSlot test' onTrue' onFalse') := by
  intro a m caller emits stands nested
  have parts := emits.cond
  simp only [Setting.count, Expr.count]
  refine (tested.finishes parts.tested stands).bind fun x m₁ finished => ?_
  have kept := finished.kept
  have ready := stands.ready.same kept.toSameFrame
  have module_eq := kept.module_eq.trans stands.module_eq
  have small := placed.reg_lt stands.bound
  have branch := parts.branch
  rw [← stands.pc_eq, ← finished.pc_eq] at branch
  have planned : m₁.plan c.img c.limits .jmpc _ = _ := plan_jmpc small
    (c.linked.jumpTarget_eq_ok c.source_eq module_eq parts.elseSlot_eq parts.elseStart_lt)
  have inside := branch.head_lt (maxLocalRegister_jmpc small _)
  rw [kept.base_eq, finished.value_eq (.inr inside)] at planned
  by_cases zero : x = 0
  · rw [if_pos zero] at planned ⊢
    have proceeds := ready.proceeds_apply branch.head rfl planned
    refine Follows.of_proceeds proceeds (Nat.le_add_left c.depth 1) ?_
    refine (no.branch room placedNo parts.no parts.settleNo stands nested
      (kept.trans (kept_jump reg _ _) (Nat.le_refl _)) rfl).imp ?_
    rintro v m₂ (⟨kept', pc_eq, value_eq⟩ | answered)
    · refine .inl ⟨kept', ?_, fun _ => value_eq, rfl⟩
      rw [pc_eq, stands.pc_eq]
      simp only [Term.size, address]
      omega
    · exact .inr answered
  · rw [if_neg zero] at planned ⊢
    have proceeds := ready.proceeds_apply branch.head rfl planned
    refine Follows.of_proceeds proceeds (Nat.le_add_left c.depth 1) ?_
    have pc_eq : (m₁.apply .proceed).pc = c.address (a + test'.size + 1) := by
      simp only [Machine.apply, finished.pc_eq, stands.pc_eq, address]
      omega
    refine (yes.branch room placedYes parts.yes parts.settleYes stands nested
      (kept.trans (kept_proceed reg _) (Nat.le_refl _)) pc_eq).extend ?_
    rintro v m₂ (⟨kept', pc_eq, value_eq⟩ | answered)
    · have skip := parts.skip.head
      rw [← pc_eq] at skip
      have planned : m₂.plan c.img c.limits .jmp (.const .jmp 0 (.ofNat joinSlot)) = _ := plan_jmp
        (c.linked.jumpTarget_eq_ok c.source_eq (kept'.module_eq.trans stands.module_eq)
          parts.joinSlot_eq parts.join_lt)
      have ready' := stands.ready.same kept'.toSameFrame
      refine ⟨1, _, ready'.proceeds_apply skip rfl planned,
        .inl ⟨kept'.trans (kept_jump reg _ _) (Nat.le_refl _), ?_, fun _ => value_eq, rfl⟩⟩
      simp only [Machine.apply, stands.pc_eq, Term.size, address]
      omega
    · exact ⟨0, m₂, .refl _ _ _, .inr answered⟩

/-! ## Arguments -/

/-- Arguments have been brought to consecutive registers. -/
structure Passed (slot size : Nat) (m : Machine) (values : List Int64) (m' : Machine) : Prop where
  kept : Kept slot m m'
  pc_eq : m'.pc = m.pc + size
  value_eq : ∀ (i : Nat) (v : Int64), values[i]? = some v → slot + i < m.reservation →
    m'.register (m.base + (slot + i)) = v

/-- The code of arguments computes them, and leaves them in consecutive registers. -/
def SimulatesArgs (c : Setting) (slot : Nat) (es : List Expr) (ts : List Term) : Prop :=
  ∀ (a : Nat) (m : Machine), c.EmitsArgs m.reservation a slot ts → c.Stands slot a m →
    Follows c.img c.limits c.depth m
      (fun values m' => values.length = ts.length ∧ Passed slot (Term.argsSize slot ts) m values m')
      (c.countArgs es)

theorem simulatesArgs_nil (slot : Nat) : c.SimulatesArgs slot [] [] := by
  intro a m _ _
  exact .value (.refl _ _ _) ⟨rfl, .refl _ _, rfl, nofun⟩

theorem simulatesArgs_cons {slot : Nat} {es : List Expr} {ts : List Term} (room : slot < 256)
    (placed : Placed c.scope c.s.compiled.tables slot e t) (first : c.Simulates false slot e t)
    (others : c.SimulatesArgs (slot + 1) es ts) : c.SimulatesArgs slot (e :: es) (t :: ts) := by
  intro a m ⟨holds, filled, words⟩ stands
  simp only [Term.argsCode] at holds
  simp only [Term.argsFills, List.forall_mem_append] at filled
  simp only [Term.argsSize] at words
  have emits : c.Emits m.reservation a t := ⟨holds.left.left, filled.1, by omega⟩
  have own := placed.width_pos stands.bound
  simp only [Setting.countArgs, Expr.countArgs]
  refine (first.finishes emits stands).bind fun v m₁ finished => ?_
  have move := holds.left.right
  rw [Term.length_code, ← stands.pc_eq] at move
  obtain ⟨count, m₂, proceeds, kept, pc_eq, value_eq⟩ :=
    finished.settles stands.ready placed stands.bound (Nat.le_refl _) room own move
  refine Follows.of_proceeds proceeds (Nat.le_add_left _ _) ?_
  have pc_eq' : m₂.pc = c.address (a + (t.size + moveSize t.reg slot)) := by
    rw [pc_eq, stands.pc_eq, address, address, Nat.add_assoc]
  have emits' : c.EmitsArgs m₂.reservation (a + (t.size + moveSize t.reg slot)) (slot + 1) ts := by
    rw [kept.reservation_eq]
    refine ⟨holds.right.cast ?_, filled.2, ?_⟩
    · rw [List.length_append, Term.length_code, length_moveCode, address, address, Nat.add_assoc]
    · simp only [address] at words ⊢
      omega
  refine (others _ m₂ emits' (stands.kept kept pc_eq' (Nat.le_succ _))).bind ?_
  rintro values m₃ ⟨length_eq, passed⟩
  refine .value (.refl _ _ _) ⟨by rw [List.length_cons, length_eq, List.length_cons],
    kept.trans passed.kept (Nat.le_succ _), ?_, ?_⟩
  · rw [passed.pc_eq, pc_eq, Term.argsSize]
    omega
  · intro i w found inside
    cases i with
    | zero =>
      cases found
      rw [passed.kept.register_eq _ (by rw [kept.base_eq]; omega)
        (by rw [kept.base_eq, kept.reservation_eq]; omega)]
      exact value_eq
    | succ i =>
      have later := passed.value_eq i w found (by rw [kept.reservation_eq]; omega)
      rw [kept.base_eq] at later
      rw [show slot + (i + 1) = slot + 1 + i by omega]
      exact later

theorem simulates_call {type : ValueType} {callee : String} {index : Nat} {f : FunctionEntry}
    {args : List Expr} {args' : List Term} (room : reg < 256)
    (placed : PlacedArgs c.scope c.s.compiled.tables (reg + 1) args args')
    (passed : c.SimulatesArgs (reg + 1) args args')
    (entered : c.s.compiled.tables.functions[index]? = some f) (named : f.name = callee)
    (arity : f.types.length = args'.length + 1)
    (bodies : ∀ k, c.depth = k + 1 → BodiesAgree c.sources c.img c.limits k) :
    c.Simulates tail reg (.call tail callee args) (.call reg type tail callee index args') := by
  intro a m caller ⟨holds, filled, words⟩ stands nested
  simp only [Term.code] at holds
  simp only [Term.fills] at filled
  simp only [Term.size] at words
  have emits : c.EmitsArgs m.reservation a (reg + 1) args' := ⟨holds.left, filled, by omega⟩
  simp only [Setting.count, Expr.count]
  refine (passed a m emits (stands.mono (Nat.le_succ _))).bind ?_
  rintro values m₁ ⟨length_eq, kept, pc_eq, value_eq⟩
  obtain ⟨d, s, definition, l, g, resides, name_eq, params_eq, found⟩ :=
    c.linked.callee_eq c.source_eq entered
  have slot_le := placed.slot_le room
  have calls :
      CallsTo c.sources c.img (c.external index) reg index values m₁ d s definition l g := by
    refine ⟨resides, by omega, by omega, ?_, ?_⟩
    · rw [kept.reservation_eq, kept.base_eq]
      exact value_eq
    · intro m' op module_eq
      exact found m' op (module_eq.trans (kept.module_eq.trans stands.module_eq))
  have code := holds.right
  rw [Term.length_argsCode, ← stands.pc_eq, ← pc_eq, ← length_eq, ← kept.reservation_eq] at code
  have ready := stands.ready.same kept.toSameFrame
  have pending_eq : c.pending = m₁.stack.size := by
    rw [kept.stack_eq, stands.pending_eq]
  rw [← named, ← name_eq, pending_eq]
  cases left : c.depth with
  | zero =>
    cases tail with
    | true => exact .tooDeep rfl
    | false => exact Agrees.tooDeep (Nat.zero_le _) (.refl _ _ m₁)
  | succ k =>
    -- The call instruction is a step of its own, which makes up for the depth that it takes.
    rw [left] at ready
    cases tail with
    | true =>
      have caller_eq : m₁.stack.back? = some caller := kept.stack_eq ▸ nested rfl
      refine (calls.ends c.linked (bodies k left) ready caller_eq code).imp ?_
      intro v m₂ answered
      exact .inr ⟨rfl, answered.of_kept kept⟩
    | false =>
      refine (calls.comesBack c.linked (bodies k left) ready code).imp ?_
      rintro v m₂ ⟨kept', pc_eq', value_eq'⟩
      refine .inl ⟨(kept.mono (Nat.le_succ _)).trans kept' (Nat.le_refl _), ?_, ?_, rfl⟩
      · rw [pc_eq', pc_eq, length_eq]
        simp only [Term.size, Bool.false_eq_true, ↓reduceIte]
        omega
      · intro _
        rw [← kept.base_eq]
        exact value_eq'

end Setting

mutual

/-- The code of every term computes its expression. -/
theorem Placed.simulates {c : Setting}
    (bodies : ∀ k, c.depth = k + 1 → BodiesAgree c.sources c.img c.limits k) :
    ∀ {e : Expr} {t : Term} {reg : Nat} {tail : Bool},
      Placed c.scope c.s.compiled.tables reg e t → e.Flagged tail → c.Simulates tail reg e t
  | .const _ _, _, _, _, .const room _, _ => Setting.simulates_const room
  | .var _ _ _, _, _, _, .var bound _, _ => Setting.simulates_var bound
  | .binary _ _ _ _, .binary _ _ _ _ _, _, _, .binary room left right, ⟨_, flagged, flagged'⟩ =>
    Setting.simulates_binary room left right (left.simulates bodies flagged)
      (right.simulates bodies flagged')
  | .cond _ _ _ _, .cond _ _ _ _ _ _ _, _, _, .cond room tested yes no,
      ⟨_, flagged, flaggedYes, flaggedNo⟩ =>
    Setting.simulates_cond room tested yes no (tested.simulates bodies flagged)
      (yes.simulates bodies flaggedYes) (no.simulates bodies flaggedNo)
  | .call _ _ _, .call _ _ _ _ _ _, _, _, .call room passed entered named arity,
      ⟨flag, flagged⟩ => by
    subst flag
    exact Setting.simulates_call room passed (passed.simulates bodies flagged) entered named arity
      bodies
termination_by structural e => e

theorem PlacedArgs.simulates {c : Setting}
    (bodies : ∀ k, c.depth = k + 1 → BodiesAgree c.sources c.img c.limits k) :
    ∀ {es : List Expr} {ts : List Term} {slot : Nat},
      PlacedArgs c.scope c.s.compiled.tables slot es ts → Expr.ArgsFlagged es →
        c.SimulatesArgs slot es ts
  | [], _, slot, .nil, _ => Setting.simulatesArgs_nil slot
  | _ :: _, _ :: _, _, .cons room first others, ⟨flagged, flagged'⟩ =>
    Setting.simulatesArgs_cons room first (first.simulates bodies flagged)
      (others.simulates bodies flagged')
termination_by structural es => es

end

/-! ## Definitions -/

/-- A parameter is bound to the register of its argument. -/
theorem param_of_lookup {ps : List Param} {scope : Scope}
    (bound : bindParams (Scope.mk []).push 1 ps = .ok scope) {name : String} {b : Binding}
    (found : scope.lookup name = some b) :
    ∃ k < ps.length, b.reg = 1 + k ∧
      ∀ values : List Int64, ((ps.map Param.name).zip values).lookup name = values[k]? := by
  rcases bindParams_spec bound found with inner | ⟨-, param⟩
  · cases inner
  · exact param

theorem bound_params {ps : List Param} {scope : Scope} {values : List Int64} {m : Machine}
    (bound : bindParams (Scope.mk []).push 1 ps = .ok scope) (le : ps.length ≤ maxParams)
    (length_eq : values.length = ps.length)
    (value_eq : ∀ (i : Nat) (v : Int64), values[i]? = some v → m.register (m.base + 1 + i) = v) :
    Bound scope ((ps.map Param.name).zip values) (ps.length + 1) m := by
  intro name b found
  obtain ⟨k, lt, reg_eq, lookup_eq⟩ := param_of_lookup bound found
  have hv : values[k]? = some values[k] := List.getElem?_eq_getElem (by omega)
  unfold maxParams at le
  refine ⟨by omega, by omega, values[k], (lookup_eq values).trans hv, ?_⟩
  intro _
  rw [reg_eq, ← Nat.add_assoc]
  exact value_eq k _ hv

/-- The code of a body in the image. -/
theorem Resides.holds {sources : List Source} {img : Image} {d : Nat} {s : Source}
    {definition : Definition} {l : Laid} {g : FunctionEntry}
    (r : Resides sources d s definition l g) (h : Linked sources img) :
    Holds img g.reservation (img.codeOffset d + l.start)
      (l.term.bodyCode (isExternalAt s.module.functions)) ∧
      img.codeOffset d + l.start + l.term.bodySize ≤ UInt64.size := by
  obtain ⟨g', entry_eq, -, owned⟩ := s.compiled.body_owned l r.mem_laid
  obtain rfl : g = g' := Option.some.inj (r.entry_eq.symm.trans entry_eq)
  have stop := h.stop_le r.source_eq owned (by simp [Term.bodyCode])
  have words := h.words
  rw [Term.length_bodyCode] at stop
  exact ⟨⟨fun k i hk => h.fetch r.source_eq owned hk, owned.locals⟩, by omega⟩

theorem Linked.bodiesAgree_of_lt {sources : List Source} {img : Image} (h : Linked sources img)
    {limits : Limits} {depth : Nat}
    (bodies : ∀ k, depth = k + 1 → BodiesAgree sources img limits k) :
    BodiesAgree sources img limits depth := by
  intro d s definition l g values caller m resides length_eq entered ready
  obtain ⟨scope, bound, placed⟩ := resides.placed.placed
  simp only at placed
  let c : Setting := ⟨sources, img, h, limits, depth, m.stack.size, d, s, resides.source_eq, scope,
    (definition.params.map Param.name).zip values⟩
  have flagged := s.flagged.definitions definition (List.of_mem_zip resides.paired).1
  have simulates : c.Simulates true _ definition.body l.term :=
    Placed.simulates bodies placed flagged
  obtain ⟨holds, words⟩ := resides.holds h
  rw [← entered.reservation_eq] at holds
  simp only [Term.bodySize] at words
  have emits : c.Emits m.reservation l.start l.term :=
    ⟨holds.left.left, s.compiled.body_filled l resides.mem_laid, by
      simp only [Setting.address, c]
      omega⟩
  have stands : c.Stands (definition.params.length + 1) l.start m :=
    ⟨entered.module_eq, entered.pc_eq, ready, rfl,
      bound_params bound resides.placed.params_le length_eq entered.value_eq⟩
  -- The registers of parameters start at one: a body that is a parameter has to be moved.
  have own : l.term.reg = 0 → 0 < definition.body.width := by
    intro zero
    rcases placed.reg_cases with ⟨wide, -⟩ | ⟨-, name, b, found, reg_eq⟩
    · exact wide
    · obtain ⟨k, -, other, -⟩ := param_of_lookup bound found
      omega
  have settle := holds.left.right
  rw [Term.length_code] at settle
  refine (simulates.settles placed (Nat.zero_le _) (by decide) own emits settle stands
    fun _ => entered.caller_eq).extend ?_
  rintro v m₁ (⟨kept, pc_eq, value_eq⟩ | ⟨-, answered⟩)
  · have ret := holds.right.head
    rw [List.length_append, Term.length_code, Term.length_settleCode, ← entered.pc_eq,
      ← pc_eq] at ret
    obtain ⟨m₂, proceeds, answered⟩ := kept.answers ready entered.caller_eq ret value_eq
    exact ⟨1, m₂, proceeds, answered⟩
  · exact ⟨0, m₁, .refl _ _ _, answered⟩

/-- Every definition of a linked program computes its body, whatever depth is left. -/
theorem Linked.bodiesAgree {sources : List Source} {img : Image} (h : Linked sources img)
    (limits : Limits) (depth : Nat) : BodiesAgree sources img limits depth := by
  induction depth with
  | zero => exact h.bodiesAgree_of_lt nofun
  | succ depth ih =>
    apply h.bodiesAgree_of_lt
    intro k eq
    cases eq
    exact ih

end RegLisp
