import RegLisp.Proofs.InstructionForms
import RegLisp.Proofs.LinkedProgram
import RegLisp.Proofs.StepEffects

/-!
# Where control can go

A machine that runs a linked program is always in the entry section of the first module, with no
caller, or in the section of a definition, with callers that are in sections of their own. Every
instruction of a section goes on inside it, enters a definition, or goes back, and reads constants
and functions that are there. So the only faults are those of arithmetic and of the limits.
-/

namespace RegLisp

/-- The start of a definition, as a call finds it. -/
def Starts (sources : List Source) (img : Image) (c : Callee) : Prop :=
  ∃ s definition l g, Resides sources c.module s definition l g ∧
    c.address = img.codeOffset c.module + l.start ∧ c.reservation = g.reservation

/-- The plans that keep the machine in the program: it goes on at an address that is `here`,
enters a definition, or goes back from one, which only code that is `nested` in a call can do. -/
inductive Keeps (sources : List Source) (img : Image) (here : Nat → Prop) (nested : Bool)
    (pc : Nat) : Except FaultKind Effect → Prop
  | proceed (next : here (pc + 1)) : Keeps sources img here nested pc (.ok .proceed)
  | write {index : Nat} {value : Int64} (next : here (pc + 1)) :
      Keeps sources img here nested pc (.ok (.write index value))
  | jump {target : Nat} (inside : here target) :
      Keeps sources img here nested pc (.ok (.jump target))
  | enter {callee : Callee} (next : here (pc + 1)) (starts : Starts sources img callee) :
      Keeps sources img here nested pc (.ok (.enter callee))
  | reenter {callee : Callee} (inCall : nested = true) (starts : Starts sources img callee) :
      Keeps sources img here nested pc (.ok (.reenter callee))
  | leave {caller : Frame} (inCall : nested = true) :
      Keeps sources img here nested pc (.ok (.leave caller))
  | stop (outside : nested = false) : Keeps sources img here nested pc (.ok .stop)
  | divisionByZero : Keeps sources img here nested pc (.error .divisionByZero)
  | arithmeticOverflow : Keeps sources img here nested pc (.error .arithmeticOverflow)
  | stackOverflow : Keeps sources img here nested pc (.error .stackOverflow)

/-- An instruction that keeps every machine in the program that executes it at the given address
of module number `j`. -/
def SafeAt (sources : List Source) (img : Image) (j : Nat) (here : Nat → Prop) (nested : Bool)
    (pc : Nat) (i : Instruction) : Prop :=
  ∃ op, i.op? = some op ∧ ∀ (limits : Limits) (m : Machine), m.module = j → m.pc = pc →
    (nested = true → m.stack.back? ≠ none) →
      Keeps sources img here nested pc (m.plan img limits op i)

/-- Code of which every instruction is safe. -/
def SafeCode (sources : List Source) (img : Image) (j : Nat) (here : Nat → Prop) (nested : Bool)
    (pc : Nat) (code : List Instruction) : Prop :=
  ∀ (k : Nat) (i : Instruction), code[k]? = some i → SafeAt sources img j here nested (pc + k) i

section

variable {sources : List Source} {img : Image} {j : Nat} {s : Source} {here : Nat → Prop}
  {nested : Bool} {pc : Nat}

theorem safeCode_nil : SafeCode sources img j here nested pc [] := by
  intro k i h
  simp at h

theorem SafeCode.append {is is' : List Instruction}
    (h : SafeCode sources img j here nested pc is)
    (h' : SafeCode sources img j here nested (pc + is.length) is') :
    SafeCode sources img j here nested pc (is ++ is') := by
  intro k i hk
  by_cases lt : k < is.length
  · rw [List.getElem?_append_left lt] at hk
    exact h k i hk
  · rw [List.getElem?_append_right (Nat.le_of_not_lt lt)] at hk
    have := h' (k - is.length) i hk
    rwa [show pc + is.length + (k - is.length) = pc + k by omega] at this

theorem SafeCode.at {pc' : Nat} {is : List Instruction}
    (h : SafeCode sources img j here nested pc is) (eq : pc = pc') :
    SafeCode sources img j here nested pc' is := eq ▸ h

theorem safeCode_cons {i : Instruction} {is : List Instruction}
    (h : SafeAt sources img j here nested pc i)
    (h' : SafeCode sources img j here nested (pc + 1) is) :
    SafeCode sources img j here nested pc (i :: is) := by
  intro k i hk
  cases k with
  | zero =>
    cases hk
    exact h
  | succ k =>
    have := h' k i hk
    rwa [show pc + 1 + k = pc + (k + 1) by omega] at this

/-! ## Instructions -/

theorem safeAt_mov {mode : MoveMode} {src dst : Nat} (next : here (pc + 1)) :
    SafeAt sources img j here nested pc (movCode mode src dst) := by
  refine ⟨.mov, rfl, ?_⟩
  intro limits m _ _ _
  simp only [Machine.plan, Machine.planMove, Instruction.moveMode?_movCode]
  cases mode with
  | frame => exact .write next
  | toWindow => exact .write next
  | fromWindow => exact .write next

theorem safeAt_ternary {op : BinaryOp} {a b c : UInt8} (next : here (pc + 1)) :
    SafeAt sources img j here nested pc (.ternary op.opcode a b c) := by
  refine ⟨op.opcode, Instruction.op?_ternary _ _ _ _, ?_⟩
  intro limits m _ _ _
  cases op with
  | add => exact .write next
  | sub => exact .write next
  | mul => exact .write next
  | gt => exact .write next
  | div =>
    simp only [BinaryOp.opcode, Machine.plan, Machine.quotient]
    by_cases zero : m.reg b = 0
    · simp only [Instruction.ternary, zero, ↓reduceIte]
      exact .divisionByZero
    · by_cases overflow : m.reg a = Int64.minValue ∧ m.reg b = -1
      · simp only [Instruction.ternary, overflow, and_self, ↓reduceIte]
        exact .arithmeticOverflow
      · simp only [Instruction.ternary, zero, overflow, ↓reduceIte]
        exact .write next

theorem safeAt_ret (inCall : nested = true) :
    SafeAt sources img j here nested pc (.nullary .ret) := by
  refine ⟨.ret, rfl, ?_⟩
  intro limits m _ _ callers
  simp only [Machine.plan]
  split
  · rename_i empty
    exact absurd empty (callers inCall)
  · exact .leave inCall

theorem safeAt_halt (outside : nested = false) :
    SafeAt sources img j here nested pc (.nullary .halt) :=
  ⟨.halt, rfl, fun _ _ _ _ _ => .stop outside⟩

theorem safeAt_loadi (h : Linked sources img) (hs : sources[j]? = some s) {r : UInt8}
    {slot : Nat} {word : UInt64} (hw : s.module.constants[slot]? = some word)
    (next : here (pc + 1)) :
    SafeAt sources img j here nested pc (.const .loadi r (.ofNat slot)) := by
  refine ⟨.loadi, rfl, ?_⟩
  intro limits m hm _ _
  simp only [Machine.plan, h.constant_eq_ok hs hm hw]
  exact .write next

theorem safeAt_jmpc (h : Linked sources img) (hs : sources[j]? = some s) {r : UInt8}
    {slot target : Nat} (hw : s.module.constants[slot]? = some (.ofNat target))
    (word : img.codeOffset j + target < UInt64.size) (next : here (pc + 1))
    (inside : here (img.codeOffset j + target)) :
    SafeAt sources img j here nested pc (.const .jmpc r (.ofNat slot)) := by
  refine ⟨.jmpc, rfl, ?_⟩
  intro limits m hm _ _
  simp only [Machine.plan, h.jumpTarget_eq_ok hs hm hw word]
  split
  · exact .jump inside
  · exact .proceed next

theorem safeAt_jmp (h : Linked sources img) (hs : sources[j]? = some s) {r : UInt8}
    {slot target : Nat} (hw : s.module.constants[slot]? = some (.ofNat target))
    (word : img.codeOffset j + target < UInt64.size) (inside : here (img.codeOffset j + target)) :
    SafeAt sources img j here nested pc (.const .jmp r (.ofNat slot)) := by
  refine ⟨.jmp, rfl, ?_⟩
  intro limits m hm _ _
  simp only [Machine.plan, h.jumpTarget_eq_ok hs hm hw word]
  exact .jump inside

/-- A call enters a definition; only code that is nested in a call reuses its frame. -/
theorem safeAt_call (h : Linked sources img) (hs : sources[j]? = some s) {index : Nat}
    {f : FunctionEntry} (hf : s.compiled.tables.functions[index]? = some f) {tail : Bool}
    (next : tail = false → here (pc + 1)) (inCall : tail = true → nested = true) :
    SafeAt sources img j here nested pc
      (.call (.callFor (isExternalAt s.module.functions index) tail) (.ofNat index)) := by
  refine ⟨_, Instruction.op?_call _ _, ?_⟩
  intro limits m hm _ _
  obtain ⟨d, s', definition, l, g, resides, -, -, found⟩ := h.callee_eq hs hf
  have starts : Starts sources img ⟨img.codeOffset d + l.start, d, g.reservation⟩ :=
    ⟨s', definition, l, g, resides, rfl, rfl⟩
  have found := fun op => found m op hm
  cases external : isExternalAt s.module.functions index <;> rw [external] at found <;> cases tail
  · simp only [Opcode.callFor, Machine.plan, Machine.planCall, found]
    split
    · exact .enter (next rfl) starts
    · exact .stackOverflow
  · simp only [Opcode.callFor, Machine.plan, Machine.planTailCall, found]
    exact .reenter (inCall rfl) starts
  · simp only [Opcode.callFor, Machine.plan, Machine.planCall, found]
    split
    · exact .enter (next rfl) starts
    · exact .stackOverflow
  · simp only [Opcode.callFor, Machine.plan, Machine.planTailCall, found]
    exact .reenter (inCall rfl) starts

/-! ## Terms -/

theorem safeCode_move {src dst : Nat}
    (inside : ∀ x, pc ≤ x → x ≤ pc + moveSize src dst → here x) :
    SafeCode sources img j here nested pc (moveCode src dst) := by
  unfold moveCode
  unfold moveSize at inside
  split
  · exact safeCode_nil
  · rename_i other
    rw [if_neg other] at inside
    exact safeCode_cons (safeAt_mov (inside _ (by omega) (by omega))) safeCode_nil

theorem safeCode_settle {t : Term} {dst : Nat}
    (inside : ∀ x, pc ≤ x → x ≤ pc + t.settleSize dst → here x) :
    SafeCode sources img j here nested pc (t.settleCode dst) := by
  unfold Term.settleCode
  unfold Term.settleSize at inside
  split
  · exact safeCode_nil
  · rename_i back
    rw [if_neg back] at inside
    exact safeCode_move inside

theorem safeCode_pass {mode : MoveMode} {reg count : Nat}
    (inside : ∀ x, pc ≤ x → x ≤ pc + count → here x) :
    SafeCode sources img j here nested pc (passCode mode reg count) := by
  intro k i hk
  simp only [passCode, List.getElem?_map, Option.map_eq_some_iff] at hk
  obtain ⟨n, hn, rfl⟩ := hk
  have lt := (List.getElem?_eq_some_iff.1 hn).1
  rw [List.length_range] at lt
  exact safeAt_mov (inside _ (by omega) (by omega))

theorem safeCode_call (h : Linked sources img) (hs : sources[j]? = some s) {reg index count : Nat}
    {f : FunctionEntry} (hf : s.compiled.tables.functions[index]? = some f) {tail : Bool}
    (inCall : tail = true → nested = true)
    (inside : ∀ x, pc ≤ x → x ≤ pc + (count + if tail then 1 else 2) → here x) :
    SafeCode sources img j here nested pc
      (callCode (isExternalAt s.module.functions index) tail reg index count) := by
  unfold callCode
  cases tail with
  | true =>
    simp only [↓reduceIte] at inside ⊢
    refine (safeCode_pass fun x _ _ => inside x (by omega) (by omega)).append ?_
    exact safeCode_cons (safeAt_call h hs hf nofun inCall) safeCode_nil
  | false =>
    simp only [Bool.false_eq_true, ↓reduceIte] at inside ⊢
    refine (safeCode_pass fun x _ _ => inside x (by omega) (by omega)).append ?_
    rw [length_passCode]
    refine safeCode_cons (safeAt_call h hs hf (fun _ => inside _ (by omega) (by omega)) nofun) ?_
    exact safeCode_cons (safeAt_mov (inside _ (by omega) (by omega))) safeCode_nil

mutual

/-- The code of a term stays inside it and the instruction behind it. -/
theorem Placed.safe (h : Linked sources img) (hs : sources[j]? = some s) {scope : Scope} :
    ∀ {e : Expr} {t : Term} {reg a : Nat} {tail : Bool}, Placed scope s.compiled.tables reg e t →
      e.Flagged tail → (tail = true → nested = true) →
      (∀ x ∈ t.fills a, s.module.constants[x.1]? = some x.2) →
      (∀ x, img.codeOffset j + a ≤ x → x ≤ img.codeOffset j + a + t.size → here x) →
      img.codeOffset j + a + t.size < UInt64.size →
      SafeCode sources img j here nested (img.codeOffset j + a)
        (t.code (isExternalAt s.module.functions))
  | .const _ _, _, _, a, _, .const _ _, _, _, fills, inside, _ => by
    simp only [Term.fills, List.mem_singleton, forall_eq] at fills
    simp only [Term.size] at inside
    exact safeCode_cons (safeAt_loadi h hs fills (inside _ (by omega) (by omega))) safeCode_nil
  | .var _ _ _, _, _, _, _, .var _ _, _, _, _, _, _ => safeCode_nil
  | .binary _ _ _ _, .binary _ _ _ lhs rhs, _, a, _, .binary _ left right,
      ⟨_, flagged, flagged'⟩, _, fills, inside, words => by
    simp only [Term.fills, List.forall_mem_append] at fills
    simp only [Term.size] at inside words
    have safe := left.safe h hs flagged nofun fills.1
      (fun x _ _ => inside x (by omega) (by omega)) (by omega)
    have safe' := right.safe h hs flagged' nofun fills.2
      (fun x _ _ => inside x (by omega) (by omega)) (by omega)
    rw [← Nat.add_assoc] at safe'
    refine (safe.append ?_).append ?_
    · rwa [Term.length_code]
    · rw [List.length_append, Term.length_code, Term.length_code]
      exact safeCode_cons (safeAt_ternary (inside _ (by omega) (by omega))) safeCode_nil
  | .cond _ _ _ _, .cond reg _ _ _ test onTrue onFalse, _, a, _, .cond _ tested yes no,
      ⟨_, flagged, flaggedYes, flaggedNo⟩, inCall, fills, inside, words => by
    simp only [Term.fills, List.forall_mem_cons, List.forall_mem_append] at fills
    obtain ⟨join, other, ⟨fillsTest, fillsYes⟩, fillsNo⟩ := fills
    simp only [Term.size] at inside words
    have safe := tested.safe h hs flagged nofun fillsTest
      (fun x _ _ => inside x (by omega) (by omega)) (by omega)
    have safeYes := yes.safe h hs flaggedYes inCall fillsYes
      (fun x _ _ => inside x (by omega) (by omega)) (by omega)
    have safeNo := no.safe h hs flaggedNo inCall fillsNo
      (fun x _ _ => inside x (by omega) (by omega)) (by omega)
    simp only [Term.code]
    refine (safe.append (safeCode_cons ?_ (SafeCode.append (safeYes.at ?_) (safeCode_settle ?_))))
      |>.append (safeCode_cons ?_ (SafeCode.append (safeNo.at ?_) (safeCode_settle ?_)))
    all_goals
      simp only [List.length_append, List.length_cons, Term.length_code, Term.length_settleCode]
    · exact safeAt_jmpc h hs other (by omega) (inside _ (by omega) (by omega))
        (inside _ (by omega) (by omega))
    · omega
    · exact fun x _ _ => inside x (by omega) (by omega)
    · exact safeAt_jmp h hs join (by omega) (inside _ (by omega) (by omega))
    · omega
    · exact fun x _ _ => inside x (by omega) (by omega)
  | .call _ _ _, .call reg _ tail _ _ args, _, a, _, .call _ passed entered _ _, ⟨flag, flagged⟩,
      inCall, fills, inside, words => by
    simp only [Term.fills] at fills
    simp only [Term.size] at inside words
    have safe := passed.safe h hs flagged fills
      (fun x _ _ => inside x (by omega) (by omega)) (by omega)
    simp only [Term.code]
    refine safe.append ?_
    rw [Term.length_argsCode]
    refine safeCode_call h hs entered (fun on => inCall (flag ▸ on)) ?_
    exact fun x _ _ => inside x (by omega) (by omega)
termination_by structural e => e

theorem PlacedArgs.safe (h : Linked sources img) (hs : sources[j]? = some s) {scope : Scope} :
    ∀ {es : List Expr} {ts : List Term} {slot a : Nat},
      PlacedArgs scope s.compiled.tables slot es ts → Expr.ArgsFlagged es →
      (∀ x ∈ Term.argsFills a slot ts, s.module.constants[x.1]? = some x.2) →
      (∀ x, img.codeOffset j + a ≤ x → x ≤ img.codeOffset j + a + Term.argsSize slot ts →
        here x) →
      img.codeOffset j + a + Term.argsSize slot ts < UInt64.size →
      SafeCode sources img j here nested (img.codeOffset j + a)
        (Term.argsCode (isExternalAt s.module.functions) slot ts)
  | [], _, _, _, .nil, _, _, _, _ => safeCode_nil
  | _ :: _, arg :: args, slot, a, .cons _ first others, ⟨flagged, flagged'⟩, fills, inside,
      words => by
    simp only [Term.argsFills, List.forall_mem_append] at fills
    simp only [Term.argsSize] at inside words
    have safe := first.safe h hs flagged nofun fills.1
      (fun x _ _ => inside x (by omega) (by omega)) (by omega)
    have safe' := others.safe h hs flagged' fills.2
      (fun x _ _ => inside x (by omega) (by omega)) (by omega)
    rw [← Nat.add_assoc] at safe'
    simp only [Term.argsCode]
    refine (safe.append ?_).append ?_
    · rw [Term.length_code]
      exact safeCode_move fun x _ _ => inside x (by omega) (by omega)
    · rwa [List.length_append, Term.length_code, length_moveCode]
termination_by structural es => es

end

/-! ## Sections -/

theorem safeCode_entries (h : Linked sources img) (hs : sources[j]? = some s) {es : List Expr}
    {ts : List Term} (placed : List.Forall₂ (Placed {} s.compiled.tables 0) es ts)
    (flagged : ∀ e ∈ es, e.Flagged false) {a : Nat}
    (fills : ∀ x ∈ entryFills a ts, s.module.constants[x.1]? = some x.2)
    (inside : ∀ x, img.codeOffset j + a ≤ x → x ≤ img.codeOffset j + a + entriesSize ts → here x)
    (words : img.codeOffset j + a + entriesSize ts < UInt64.size) :
    SafeCode sources img j here false (img.codeOffset j + a)
      (entrySection (isExternalAt s.module.functions) ts) := by
  induction placed generalizing a with
  | nil => exact safeCode_cons (safeAt_halt rfl) safeCode_nil
  | @cons e t es ts first _ ih =>
    rw [List.forall_mem_cons] at flagged
    simp only [entryFills, List.forall_mem_append] at fills
    simp only [entriesSize_cons, Term.entrySize] at inside words fills
    have safe : SafeCode sources img j here false _ _ := first.safe h hs flagged.1 nofun fills.1
      (fun x _ _ => inside x (by omega) (by omega)) (by omega)
    have rest := ih flagged.2 fills.2 (fun x _ _ => inside x (by omega) (by omega)) (by omega)
    rw [entrySection_cons]
    refine (safe.append (safeCode_move ?_)).append (rest.at ?_)
    · rw [Term.length_code]
      exact fun x _ _ => inside x (by omega) (by omega)
    · rw [List.length_append, Term.length_code, length_moveCode]
      omega

theorem safeCode_body (h : Linked sources img) {definition : Definition} {l : Laid}
    {g : FunctionEntry} (r : Resides sources j s definition l g)
    (inside : ∀ x, img.codeOffset j + l.start ≤ x → x < img.codeOffset j + l.stop → here x)
    (words : img.codeOffset j + l.stop ≤ UInt64.size) :
    SafeCode sources img j here true (img.codeOffset j + l.start)
      (l.term.bodyCode (isExternalAt s.module.functions)) := by
  obtain ⟨scope, -, placed⟩ := r.placed.placed
  simp only at placed
  have flagged := s.flagged.definitions definition (List.of_mem_zip r.paired).1
  simp only [Laid.stop, Term.bodySize] at inside words
  have safe := placed.safe h r.source_eq flagged (fun _ => rfl)
    (s.compiled.body_filled l r.mem_laid) (fun x _ _ => inside x (by omega) (by omega)) (by omega)
  refine (safe.append (safeCode_settle ?_)).append (safeCode_cons (safeAt_ret rfl) safeCode_nil)
  rw [Term.length_code]
  exact fun x _ _ => inside x (by omega) (by omega)

end

/-- The places where a machine can be, with the size of the frame there: the entry section of the
first source, or the section of a definition, when `nested` in a call. -/
inductive Sited (sources : List Source) (img : Image) :
    (nested : Bool) → (module pc reservation : Nat) → Prop
  | entry {s : Source} {pc : Nat} (first : sources[0]? = some s)
      (lower : img.codeOffset 0 ≤ pc)
      (upper : pc < img.codeOffset 0 + (entriesSize s.compiled.entries + 1)) :
      Sited sources img false 0 pc s.module.entryReservation
  | body {j : Nat} {s : Source} {definition : Definition} {l : Laid} {g : FunctionEntry} {pc : Nat}
      (resides : Resides sources j s definition l g) (lower : img.codeOffset j + l.start ≤ pc)
      (upper : pc < img.codeOffset j + l.stop) : Sited sources img true j pc g.reservation

theorem Starts.sited {sources : List Source} {img : Image} {c : Callee}
    (h : Starts sources img c) : Sited sources img true c.module c.address c.reservation := by
  obtain ⟨s, definition, l, g, resides, address, reservation⟩ := h
  rw [address, reservation]
  exact .body resides (Nat.le_refl _) (Nat.add_lt_add_left l.start_lt_stop _)

/-- At every place there is a safe instruction. -/
theorem Sited.safe {sources : List Source} {img : Image} (h : Linked sources img) {nested : Bool}
    {j pc reservation : Nat} (sited : Sited sources img nested j pc reservation) :
    ∃ i, img.code[pc]? = some i ∧
      SafeAt sources img j (Sited sources img nested j · reservation) nested pc i := by
  have words := h.words
  cases sited with
  | @entry s _ first lower upper =>
    have owned := s.compiled.entry_owned
    have stop := h.stop_le first owned (by simp [entrySection])
    rw [length_entrySection] at stop
    have lt : pc - img.codeOffset 0 < (entrySection (isExternalAt s.module.functions)
        s.compiled.entries).length := by
      rw [length_entrySection]
      omega
    have hk := List.getElem?_eq_getElem lt
    have address : img.codeOffset 0 + 0 + (pc - img.codeOffset 0) = pc := by omega
    have fetched := h.fetch first owned hk
    have safe := safeCode_entries h first s.compiled.entries_placed s.flagged.entries
      s.compiled.entry_filled (fun x _ _ => Sited.entry first (by omega) (by omega)) (by omega)
      _ _ hk
    rw [address] at fetched safe
    exact ⟨_, fetched, safe⟩
  | @body _ s definition l g _ resides lower upper =>
    obtain ⟨g', hg', -, owned⟩ := s.compiled.body_owned l resides.mem_laid
    have stop := h.stop_le resides.source_eq owned (by simp [Term.bodyCode])
    rw [Term.length_bodyCode] at stop
    have lt : pc - (img.codeOffset j + l.start) <
        (l.term.bodyCode (isExternalAt s.module.functions)).length := by
      rw [Term.length_bodyCode]
      simp only [Laid.stop] at upper
      omega
    have hk := List.getElem?_eq_getElem lt
    have address : img.codeOffset j + l.start + (pc - (img.codeOffset j + l.start)) = pc := by
      omega
    have fetched := h.fetch resides.source_eq owned hk
    have safe := safeCode_body h resides (fun x => Sited.body resides)
      (by simp only [Laid.stop]; omega) _ _ hk
    rw [address] at fetched safe
    exact ⟨_, fetched, safe⟩

/-! ## Ranges -/

/-- An address of an image that lies in a range of module number `j`. -/
def Image.InRange (img : Image) (j : Nat) (r : CodeRange) (pc : Nat) : Prop :=
  img.codeOffset j + r.start ≤ pc ∧ pc < img.codeOffset j + r.stop

/-- A range of the module at a place, with the size of its frames. -/
theorem Sited.range {sources : List Source} {img : Image} {nested : Bool} {j pc reservation : Nat}
    (sited : Sited sources img nested j pc reservation) :
    ∃ s r, sources[j]? = some s ∧ r ∈ s.module.codeRanges ∧ img.InRange j r pc ∧
      (nested = false → j = 0 ∧ r.owner = none ∧ reservation = s.module.entryReservation) ∧
      (nested = true → ∃ index f, r.owner = some index ∧
        s.module.functions[index]? = some f ∧ f.isExternal = false ∧
          reservation = f.reservation) := by
  cases sited with
  | @entry s _ first lower upper =>
    have owned := s.compiled.entry_owned
    refine ⟨s, _, first, owned.range, ⟨lower, ?_⟩, fun _ => ⟨rfl, rfl, rfl⟩, nofun⟩
    simp only [length_entrySection]
    omega
  | @body _ s definition l g _ resides lower upper =>
    obtain ⟨g', hg', -, owned⟩ := s.compiled.body_owned l resides.mem_laid
    refine ⟨s, _, resides.source_eq, owned.range, ⟨lower, ?_⟩, nofun, fun _ => ?_⟩
    · rw [Term.length_bodyCode]
      exact upper
    · refine ⟨l.index, g, rfl, resides.entry_eq, ?_, rfl⟩
      rw [FunctionEntry.isExternal, resides.address_eq]
      rfl

/-- The range of the entry section, which ends before the first definition starts. -/
theorem Module.stop_le_of_entry {m : Module} {r : CodeRange} (mem : r ∈ m.codeRanges)
    (entry : r.owner = none) :
    r.start = 0 ∧ r.stop ≤ m.code.size ∧ ∀ s ∈ definedAddresses m.functions, r.stop ≤ s := by
  rw [codeRanges_eq, List.mem_cons, List.mem_map] at mem
  obtain rfl | ⟨x, -, rfl⟩ := mem
  · exact ⟨rfl, firstStart_le _ _⟩
  · cases entry

theorem Module.stop_le_size {m : Module} {r : CodeRange} (mem : r ∈ m.codeRanges) :
    r.stop ≤ m.code.size := by
  rw [codeRanges_eq, List.mem_cons, List.mem_map] at mem
  obtain rfl | ⟨x, -, rfl⟩ := mem
  · exact (firstStart_le _ _).1
  · exact (firstStart_le _ _).1

theorem Sited.span {sources : List Source} {img : Image} (h : Linked sources img) {nested : Bool}
    {j pc reservation : Nat} (sited : Sited sources img nested j pc reservation) :
    ∃ span, img.modules[j]? = some span ∧ span.offsets.code ≤ pc ∧
      pc < span.offsets.code + span.instructionCount := by
  obtain ⟨s, r, hs, mem, ⟨lower, upper⟩, -⟩ := sited.range
  obtain ⟨span, hspan, offset, count⟩ := h.getElem?_modules hs
  have := Module.stop_le_size mem
  exact ⟨span, hspan, by omega, by omega⟩

/-- No place is in the entry section of another module than the first. -/
theorem Sited.not_entry {sources : List Source} {img : Image} (h : Linked sources img)
    {nested : Bool} {j pc reservation : Nat}
    (sited : Sited sources img nested j pc reservation) {j' : Nat} {s' : Source} {r' : CodeRange}
    (other : j' ≠ 0) (hs' : sources[j']? = some s') (mem' : r' ∈ s'.module.codeRanges)
    (entry : r'.owner = none) : ¬ img.InRange j' r' pc := by
  rintro ⟨lower', upper'⟩
  obtain ⟨start', stop', below⟩ := Module.stop_le_of_entry mem' entry
  obtain ⟨s, r, hs, mem, ⟨lower, upper⟩, -⟩ := sited.range
  have stop := Module.stop_le_size mem
  obtain lt | rfl | lt := Nat.lt_trichotomy j j'
  · have := h.codeOffset_add_le hs hs' lt
    omega
  · cases sited with
    | entry => exact other rfl
    | @body _ s definition l g _ resides lower upper =>
      obtain rfl : s = s' := Option.some.inj (resides.source_eq.symm.trans hs')
      have := below l.start (by
        simp only [definedAddresses, List.mem_filterMap, Array.mem_toList_iff]
        refine ⟨g, Array.mem_of_getElem? resides.entry_eq, ?_⟩
        rw [resides.address_eq, Option.map_some, s.compiled.toNat_start resides.mem_laid])
      omega
  · have := h.codeOffset_add_le hs' hs lt
    omega

/-! ## Machines -/

namespace Machine

variable {sources : List Source} {img : Image} {limits : Limits} {m : Machine}

/-- The machine and all its callers are in the program; the first caller is in the entry section,
and so is a machine without callers. -/
structure InProgram (sources : List Source) (img : Image) (m : Machine) : Prop where
  current : Sited sources img (decide (0 < m.stack.size)) m.module m.pc m.reservation
  saved : ∀ (k : Nat) (f : Frame), m.stack[k]? = some f →
    Sited sources img (decide (0 < k)) f.module f.returnPc f.reservation

theorem inProgram_reset (h : Linked sources img) (m : Machine) :
    (m.reset img).InProgram sources img := by
  obtain ⟨s, first⟩ := h.exists_first
  refine ⟨?_, ?_⟩
  · simp only [reset, h.entry_eq first]
    exact .entry first (Nat.le_refl _) (by omega)
  · intro k f hk
    simp [reset] at hk

theorem InProgram.apply {effect : Effect} (inv : m.InProgram sources img)
    (allowed : m.Allows img limits effect)
    (keeps : Keeps sources img
      (Sited sources img (decide (0 < m.stack.size)) m.module · m.reservation)
      (decide (0 < m.stack.size)) m.pc (.ok effect)) (goes : effect ≠ .stop) :
    (m.apply effect).InProgram sources img := by
  cases keeps with
  | proceed next => exact ⟨next, inv.saved⟩
  | write next => exact ⟨next, inv.saved⟩
  | jump inside => exact ⟨inside, inv.saved⟩
  | enter next starts =>
    refine ⟨?_, ?_⟩
    · simpa [Machine.apply] using starts.sited
    · intro k f hk
      simp only [Machine.apply, Array.getElem?_push] at hk
      split at hk
      · rename_i last
        cases hk
        rwa [last]
      · exact inv.saved k f hk
  | reenter inCall starts =>
    refine ⟨?_, inv.saved⟩
    change Sited sources img (decide (0 < m.stack.size)) _ _ _
    rw [inCall]
    exact starts.sited
  | leave inCall =>
    cases allowed with
    | leave latest =>
      rename_i caller
      obtain ⟨stack, split⟩ := Array.back?_eq_some_iff.1 latest
      have popped : m.stack.pop = stack := by rw [split, Array.pop_push]
      refine ⟨?_, ?_⟩
      · simp only [Machine.apply, popped]
        exact inv.saved stack.size caller (by simp [split])
      · intro k f hk
        simp only [Machine.apply, popped] at hk
        have lt := (Array.getElem?_eq_some_iff.1 hk).1
        exact inv.saved k f (by rw [split, Array.getElem?_push, if_neg (by omega), hk])
  | stop outside => exact absurd rfl goes

/-- A step from a running state in the program stays in the program while the machine runs, and
raises no other fault than those of arithmetic and of the limits. -/
theorem InProgram.step (h : Linked sources img) (inv : m.InProgram sources img)
    (running : m.status = .running) :
    ((m.step img limits).1.status = .running → (m.step img limits).1.InProgram sources img) ∧
      ∀ cause, (m.step img limits).2 = .fault cause →
        cause.kind = .divisionByZero ∨ cause.kind = .arithmeticOverflow ∨
          cause.kind = .stackOverflow ∨ cause.kind = .stepLimit limits.maxSteps := by
  obtain ⟨i, fetched, op, decoded, plan⟩ := inv.current.safe h
  have callers : decide (0 < m.stack.size) = true → m.stack.back? ≠ none := by
    intro nested empty
    rw [Array.back?_eq_none_iff] at empty
    simp [empty] at nested
  have keeps := plan limits m rfl rfl callers
  simp only [Machine.step, running]
  split
  · constructor
    · rintro ⟨⟩
    · rintro cause ⟨⟩
      exact .inr (.inr (.inr rfl))
  · simp only [fetched, decoded, execute]
    cases planned : m.plan img limits op i with
    | error kind =>
      constructor
      · rintro ⟨⟩
      · rintro cause ⟨⟩
        rw [planned] at keeps
        cases keeps with
        | divisionByZero => exact .inl rfl
        | arithmeticOverflow => exact .inr (.inl rfl)
        | stackOverflow => exact .inr (.inr (.inl rfl))
    | ok effect =>
      rw [planned] at keeps
      have goesOn := fun goes => inv.apply (plan_allows planned) keeps goes
      cases effect with
      | stop =>
        constructor
        · rintro ⟨⟩
        · rintro cause ⟨⟩
      | proceed | write | jump | enter | reenter | leave =>
        constructor
        · exact fun _ => goesOn Effect.noConfusion
        · rintro cause ⟨⟩

theorem Reachable.inProgram (h : Linked sources img) (reachable : m.Reachable img limits)
    (running : m.status = .running) : m.InProgram sources img := by
  refine reachable.preserves (P := fun m => m.status = .running → m.InProgram sources img)
    ?_ ?_ ?_ running
  · intro _
    have := inProgram_reset h (start img limits)
    exact ⟨this.current, this.saved⟩
  · intro m inv running
    cases status : m.status with
    | running => exact ((inv status).step h status).1 running
    | halted => simp [Machine.step, status] at running
    | faulted => simp [Machine.step, status, stopOn] at running
  · exact fun m _ _ => inProgram_reset h m

/-- Where a machine is that runs a linked program, and what can go wrong there. -/
structure Confined (sources : List Source) (img : Image) (limits : Limits) (m : Machine) :
    Prop where
  in_span : ∃ span, img.modules[m.module]? = some span ∧ span.offsets.code ≤ m.pc ∧
    m.pc < span.offsets.code + span.instructionCount
  /-- Without callers, it is in the entry section of the first module. -/
  in_entry : m.stack = #[] → m.module = 0 ∧ ∃ s r, sources[0]? = some s ∧
    r ∈ s.module.codeRanges ∧ r.owner = none ∧ img.InRange 0 r m.pc ∧
      m.reservation = s.module.entryReservation
  /-- With callers, it is in the section of a definition. -/
  in_definition : m.stack ≠ #[] → ∃ s r index f, sources[m.module]? = some s ∧
    r ∈ s.module.codeRanges ∧ r.owner = some index ∧ img.InRange m.module r m.pc ∧
      s.module.functions[index]? = some f ∧ f.isExternal = false ∧ m.reservation = f.reservation
  /-- It is never in the entry section of another module. -/
  not_in_entry : ∀ (j : Nat) (s : Source) (r : CodeRange), j ≠ 0 → sources[j]? = some s →
    r ∈ s.module.codeRanges → r.owner = none → ¬ img.InRange j r m.pc
  /-- The faults of a step are those of arithmetic and of the limits. -/
  fault_kind : ∀ cause, (m.step img limits).2 = .fault cause →
    cause.kind = .divisionByZero ∨ cause.kind = .arithmeticOverflow ∨
      cause.kind = .stackOverflow ∨ cause.kind = .stepLimit limits.maxSteps

/-- While a machine runs a linked program, whatever has been asked of it, control stays in the
sections of the program, and no internal fault can arise. -/
theorem control_confined (h : Linked sources img) (reachable : m.Reachable img limits)
    (running : m.status = .running) : m.Confined sources img limits := by
  have inv := reachable.inProgram h running
  obtain ⟨s, r, hs, mem, inside, outer, inner⟩ := inv.current.range
  refine ⟨inv.current.span h, ?_, ?_, ?_, (inv.step h running).2⟩
  · intro empty
    obtain ⟨first, owner, reservation⟩ := outer (by simp [empty])
    rw [first] at hs inside
    exact ⟨first, s, r, hs, mem, owner, inside, reservation⟩
  · intro callers
    obtain ⟨index, f, owner, hf, defined, reservation⟩ :=
      inner (decide_eq_true (Array.size_pos_iff.2 callers))
    exact ⟨s, r, index, f, hs, mem, owner, inside, hf, defined, reservation⟩
  · intro j s r other hs mem entry
    exact inv.current.not_entry h other hs mem entry

/-- Two source texts: the first calls a function of the second, which calls itself in return
position. -/
def countdownTexts : List (String × String) :=
  [("main", "(extern down (int) int) (+ 1 (down 2))"),
    ("lib", "(def down (n) (if (> n 0) (down (- n 1)) 7)) (down 5)")]

/-- A run of the two texts that is in the second, after a call in return position. -/
def countdownRun (img : Image) : Machine :=
  (start img { registerFileSize := 600 }).act img { registerFileSize := 600 } (.run 12)

theorem control_confined_countdown :
    ∃ sources img, linkTexts? countdownTexts = some (sources, img) ∧ Linked sources img ∧
      (countdownRun img).Reachable img { registerFileSize := 600 } ∧
        (countdownRun img).status = .running ∧ (countdownRun img).module = 1 ∧
          (countdownRun img).Confined sources img { registerFileSize := 600 } := by
  have evaluated : (linkTexts? countdownTexts).any (fun linked =>
      linked.2.code.size ≤ UInt64.size ∧ (countdownRun linked.2).status = .running ∧
        (countdownRun linked.2).module = 1) = true := by
    decide +kernel
  obtain ⟨⟨sources, img⟩, linked, facts⟩ := (Option.any_eq_true _ _).1 evaluated
  obtain ⟨words, running, second⟩ := of_decide_eq_true facts
  have h := linked_of_linkTexts? linked words
  have reachable : (countdownRun img).Reachable img { registerFileSize := 600 } := ⟨[.run 12], rfl⟩
  exact ⟨sources, img, linked, h, reachable, running, second,
    control_confined h reachable running⟩

end Machine

end RegLisp
