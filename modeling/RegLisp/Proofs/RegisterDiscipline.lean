import RegLisp.Proofs.AllocationMoments
import RegLisp.Proofs.GenerationPasses
import RegLisp.Proofs.ReturnPosition
import RegLisp.Proofs.StaleRegisters

/-!
# Register discipline

Allocation places an expression at the next free register, and the code that is emitted for it keeps
to the registers from there on: it writes no other, and reads none of them before it has written it.
So executing the code leaves all registers below unchanged, and what the others held before has no
influence on the value.
-/

namespace RegLisp

open Allocate

/-! ## What allocation takes -/

/-- All names are bound to the registers of `n` parameters. -/
def Scope.Binds (scope : Scope) (n : Nat) : Prop :=
  ∀ (name : String) (b : Binding), scope.lookup name = some b → 1 ≤ b.reg ∧ b.reg ≤ n

/-- The scope of a function binds its parameters. -/
theorem binds_of_bindParams {params : List Param} {scope : Scope}
    (h : bindParams (Scope.mk []).push 1 params = .ok scope) : scope.Binds params.length := by
  intro name b found
  obtain found | ⟨-, k, lt, reg_eq, -⟩ := bindParams_spec h found
  · cases found
  · omega

namespace Tables

variable {t t₁ : Tables} {slots : List Nat}

theorem adds_of_constants_eq (h : t₁.constants = t.constants) : t.Adds t₁ [] := by
  refine ⟨rfl, ?_⟩
  rw [h]
  rfl

theorem Moves.adds {next : Nat} (h : t.Moves t₁ next) : t.Adds t₁ [] :=
  adds_of_constants_eq h.constants_eq

theorem Adds.nodup (h : t.Adds t₁ slots) : slots.Nodup := by
  rw [h.slots_eq]
  exact List.nodup_range'

theorem Adds.lt (h : t.Adds t₁ slots) {slot : Nat} (mem : slot ∈ slots) :
    slot < t₁.constants.size := by
  rw [h.slots_eq, List.mem_range'_1] at mem
  have := h.size_eq
  omega

end Tables

theorem addConstant_adds {t t' : Tables} {word : UInt64} {slot : Nat}
    (h : addConstant word t = .ok (slot, t')) :
    t.Adds t' [slot] ∧ t'.nextReg = t.nextReg ∧ slot < UInt16.size := by
  unfold addConstant ofTables Tables.addConstant at h
  by_cases room : t.constants.size < maxConstants
  · simp only [room, ↓reduceIte] at h
    cases h
    exact ⟨⟨rfl, by simp⟩, rfl, Nat.lt_succ_of_lt room⟩
  · simp [room] at h

/-- The register of the value, when `next` is the next free one: that of the binding for a variable,
and otherwise the next free one. -/
def Expr.valueReg? (scope : Scope) (next : Nat) : Expr → Option Nat
  | .var _ _ name => (scope.lookup name).map Binding.reg
  | _ => some next

/-- What allocating an expression takes: registers from the next free one on, and slots behind the
pool. -/
structure Expr.Takes (scope : Scope) (n : Nat) (t : Tables) (e : Expr) (term : Term) (t' : Tables) :
    Prop where
  reg_eq : e.valueReg? scope t.nextReg = some term.reg
  disciplined : term.Disciplined n t.nextReg
  adds : t.Adds t' term.slots
  next_eq : t'.nextReg = t.nextReg + e.width

section

variable {scope : Scope} {n : Nat}

mutual

/-- Allocation gives disciplined terms. -/
theorem Expr.allocate_takes (binds : scope.Binds n) : ∀ (e : Expr) {t t' : Tables} {term : Term},
    n = 0 ∨ n < t.nextReg → e.Flagged false → e.allocate scope t = .ok (term, t') →
      e.Takes scope n t term t'
  | .const _ value, t, t', term, above, flags, h => by
    simp only [Expr.allocate, bind_eq_ok, pure_eq_ok] at h
    obtain ⟨reg, t₁, h₁, slot, t₂, h₂, heq⟩ := h
    cases heq
    obtain ⟨rfl, room, moves⟩ := alloc_moves h₁
    obtain ⟨adds, next, -⟩ := addConstant_adds h₂
    exact ⟨rfl, ⟨rfl, room⟩, moves.adds.trans adds, next.trans moves.next_eq⟩
  | .var _ type name, t, t', term, above, flags, h => by
    unfold Expr.allocate at h
    cases bound : scope.lookup name with
    | none => simp [bound, fail] at h
    | some b =>
      simp only [bound, bind_eq_ok, pure_eq_ok] at h
      obtain ⟨u, t₁, h₁, heq⟩ := h
      cases heq
      obtain ⟨-, rfl⟩ := require_eq_ok.1 h₁
      refine ⟨?_, binds name b bound, Tables.adds_of_constants_eq rfl, rfl⟩
      rw [Expr.valueReg?, bound]
      rfl
  | .binary _ op lhs rhs, t, t', term, above, ⟨_, flagsLeft, flagsRight⟩, h => by
    simp only [Expr.allocate, bind_eq_ok, pure_eq_ok] at h
    obtain ⟨reg, t₁, h₁, lhs', t₂, h₂, rhs', t₃, h₃, heq⟩ := h
    cases heq
    obtain ⟨rfl, room, moves⟩ := alloc_moves h₁
    have next₁ := moves.next_eq
    have left := lhs.allocate_takes binds (by omega) flagsLeft h₂
    have next₂ := left.next_eq
    have right := rhs.allocate_takes binds (by omega) flagsRight h₃
    have small : n < 256 := by
      change t.nextReg < 256 at room
      omega
    refine ⟨rfl, ⟨rfl, room, small, ?_, t₂.nextReg, by omega, right.disciplined⟩,
      moves.adds.trans (left.adds.trans right.adds), ?_⟩
    · rw [← next₁]
      exact left.disciplined
    · rw [right.next_eq, next₂, next₁, Expr.width]
      omega
  | .cond _ test onTrue onFalse, t, t', term, above, ⟨_, flagsTest, flagsTrue, flagsFalse⟩, h => by
    simp only [Expr.allocate, bind_eq_ok, pure_eq_ok] at h
    obtain ⟨reg, t₁, h₁, joinSlot, t₂, h₂, elseSlot, t₃, h₃, test', t₄, h₄, u₁, t₅, h₅, u₂, t₆,
      h₆, onTrue', t₇, h₇, u₃, t₈, h₈, onFalse', t₉, h₉, reg', t₁₀, h₁₀, u₄, t₁₁, h₁₁, heq⟩ := h
    cases heq
    obtain ⟨rfl, rfl⟩ := nextReg_eq_ok h₁
    obtain ⟨adds₂, next₂, join⟩ := addConstant_adds h₂
    obtain ⟨adds₃, next₃, other⟩ := addConstant_adds h₃
    have tested := test.allocate_takes binds (by omega) flagsTest h₄
    obtain ⟨-, rfl⟩ := require_eq_ok.1 h₅
    have moves₆ := setNext_moves h₆
    have next₆ := moves₆.next_eq
    have yes := onTrue.allocate_takes binds (by omega) flagsTrue h₇
    have moves₈ := setNext_moves h₈
    have next₈ := moves₈.next_eq
    have no := onFalse.allocate_takes binds (by omega) flagsFalse h₉
    obtain ⟨rfl, room, moves₁₀⟩ := touch_moves h₁₀
    have moves₁₁ := setNext_moves h₁₁
    have small : n < 256 := by
      change t.nextReg < 256 at room
      omega
    have htest := tested.disciplined
    have hyes := yes.disciplined
    have hno := no.disciplined
    rw [next₃, next₂] at htest
    rw [next₆] at hyes
    rw [next₈] at hno
    refine ⟨rfl, ⟨rfl, room, small, join, other, htest, hyes, hno⟩, ?_, moves₁₁.next_eq⟩
    have behind := moves₈.adds.trans (no.adds.trans (moves₁₀.adds.trans moves₁₁.adds))
    simpa [Term.slots] using
      adds₂.trans (adds₃.trans (tested.adds.trans (moves₆.adds.trans (yes.adds.trans behind))))
  | .call _ callee args, t, t', term, above, ⟨rfl, flags⟩, h => by
    simp only [Expr.allocate, bind_eq_ok, pure_eq_ok] at h
    obtain ⟨reg, t₁, h₁, args', t₂, h₂, u, t₃, h₃, ⟨index, type⟩, t₄, h₄, heq⟩ := h
    cases heq
    obtain ⟨rfl, room, moves₁⟩ := alloc_moves h₁
    obtain ⟨adds₂, passed⟩ := Expr.allocateArgs_takes binds args (by omega) flags h₂
    have moves₃ := setNext_moves h₃
    have rest_eq := resolveCall_rest_eq h₄
    have adds₄ : t₃.Adds t' [] := Tables.adds_of_constants_eq (by rw [rest_eq])
    have next₄ : t'.nextReg = t₃.nextReg := by rw [rest_eq]
    have small : n < 256 := by
      change t.nextReg < 256 at room
      omega
    refine ⟨rfl, ⟨rfl, room, small, rfl, passed⟩, ?_, next₄.trans moves₃.next_eq⟩
    simpa [Term.slots] using moves₁.adds.trans (adds₂.trans (moves₃.adds.trans adds₄))
termination_by structural e => e

theorem Expr.allocateArgs_takes (binds : scope.Binds n) : ∀ (args : List Expr) {slot : Nat}
    {t t' : Tables} {terms : List Term}, n = 0 ∨ n < slot → Expr.ArgsFlagged args →
      Expr.allocateArgs scope slot args t = .ok (terms, t') →
        t.Adds t' (Term.argsSlots terms) ∧ Term.ArgsDisciplined n slot terms
  | [], slot, t, t', terms, above, flags, h => by
    simp only [Expr.allocateArgs, pure_eq_ok] at h
    cases h
    exact ⟨Tables.adds_of_constants_eq rfl, trivial⟩
  | arg :: args, slot, t, t', terms, above, ⟨flagsFirst, flagsOthers⟩, h => by
    simp only [Expr.allocateArgs, bind_eq_ok, pure_eq_ok] at h
    obtain ⟨u, t₁, h₁, arg', t₂, h₂, slot', t₃, h₃, args', t₄, h₄, heq⟩ := h
    cases heq
    have moves₁ := setNext_moves h₁
    have next₁ := moves₁.next_eq
    have first := arg.allocate_takes binds (by omega) flagsFirst h₂
    obtain ⟨-, room, moves₃⟩ := touch_moves h₃
    obtain ⟨adds₄, others⟩ := Expr.allocateArgs_takes binds args (by omega) flagsOthers h₄
    have hfirst := first.disciplined
    rw [next₁] at hfirst
    refine ⟨?_, room, hfirst, others⟩
    simpa [Term.argsSlots] using moves₁.adds.trans (first.adds.trans (moves₃.adds.trans adds₄))
termination_by structural args => args

end

end

/-! ## The code of a term in a pass -/

/-- What a pass emits for a term, and the pool that it leaves. -/
def Term.stretch (t : Term) (p : Pass) : Stretch where
  start := p.counter
  code := (t.generate { p with muted := false, written := #[] }).written.toList
  pool := (t.generate p).constants

theorem Term.code_stretch (t : Term) (p : Pass) :
    (t.stretch p).code = t.code (isExternalAt p.functions) := by
  simp [stretch, Term.generate_eq, Pass.advance]

theorem Term.stop_stretch (t : Term) (p : Pass) : (t.stretch p).stop = p.counter + t.size := by
  rw [Stretch.stop, code_stretch, length_code]
  rfl

mutual

/-- No jump goes beyond the end of its term. -/
theorem Term.targets_le : ∀ (t : Term) {address : Nat} {x : Nat × Nat}, x ∈ t.targets address →
    x.2 ≤ address + t.size
  | .const _ _ _, _, _, h => by simp [Term.targets] at h
  | .var _ _ _, _, _, h => by simp [Term.targets] at h
  | .binary _ _ _ lhs rhs, address, x, h => by
    simp only [Term.targets, List.mem_append] at h
    rw [Term.size]
    rcases h with h | h
    · have := lhs.targets_le h
      omega
    · have := rhs.targets_le h
      omega
  | .cond _ _ _ _ test onTrue onFalse, address, x, h => by
    simp only [Term.targets, List.mem_append, List.mem_cons, List.not_mem_nil, or_false] at h
    rw [Term.size]
    rcases h with (h | h) | h | h | h
    · have := test.targets_le h
      omega
    · have := onTrue.targets_le h
      omega
    · subst h
      dsimp only
      omega
    · have := onFalse.targets_le h
      omega
    · subst h
      dsimp only
      omega
  | .call _ _ _ _ _ args, address, x, h => by
    have := Term.argsTargets_le args h
    rw [Term.size]
    omega

theorem Term.argsTargets_le : ∀ (args : List Term) {address slot : Nat} {x : Nat × Nat},
    x ∈ Term.argsTargets address slot args → x.2 ≤ address + Term.argsSize slot args
  | [], _, _, _, h => by simp [Term.argsTargets] at h
  | arg :: args, address, slot, x, h => by
    simp only [Term.argsTargets, List.mem_append] at h
    rw [Term.argsSize]
    rcases h with h | h
    · have := arg.targets_le h
      omega
    · have := Term.argsTargets_le args h
      omega

end

section

variable {scope : Scope} {n : Nat} {t t' : Tables} {e : Expr} {term : Term}

/-- The slots of a term hold the addresses that its jumps go to. -/
theorem Expr.Takes.points (h : e.Takes scope n t term t') {p : Pass}
    (covers : t'.constants.size ≤ p.constants.size) (small : p.counter + term.size < UInt64.size) :
    (term.stretch p).Points (term.targets p.counter) := by
  intro x mem
  have filled : targetWord x ∈ term.fills p.counter := term.mem_fills_of_mem_targets mem
  have nodup : ((term.fills p.counter).map Prod.fst).Nodup := by
    rw [term.map_fst_fills]
    exact h.adds.nodup
  have slot : x.1 ∈ term.slots := by
    rw [← term.map_fst_fills p.counter]
    exact List.mem_map_of_mem filled
  have held := patchConstants_fill (t := { constants := p.constants }) nodup
    (fun x mem => term.mem_fills_of_mem_targets mem) filled (.inr ⟨x, mem, rfl⟩)
    (Nat.lt_of_lt_of_le (h.adds.lt slot) covers)
  have bound := term.targets_le mem
  have pool_eq : (term.stretch p).pool =
      patchConstants p.constants (term.targets p.counter).toArray := by
    change (term.generate p).constants = _
    rw [Term.generate_eq]
    rfl
  rw [pool_eq]
  change (patchConstants p.constants (term.targets p.counter).toArray)[x.1]? =
    some (.ofNat x.2) at held
  rw [held, Option.map_some, UInt64.toNat_ofNat_of_lt' (by omega)]

/-- Along every path, the code of an allocated expression reads what is given. -/
theorem Expr.Takes.sound (h : e.Takes scope n t term t') {p : Pass}
    (covers : t'.constants.size ≤ p.constants.size) (small : p.counter + term.size < UInt64.size) :
    (term.stretch p).Sound n term.reg p.counter [] := by
  have has : (term.stretch p).Has p.counter (term.code (isExternalAt p.functions)) := by
    intro k i found
    rw [← term.code_stretch p] at found
    rw [← found]
    exact (term.stretch p).fetch_add k
  refine h.disciplined.sound _ has (h.points covers small) fun W _ given => ?_
  rw [← term.stop_stretch p]
  exact Stretch.sound_stop given

theorem Expr.Takes.within (h : e.Takes scope n t term t') (p : Pass) :
    ∀ i ∈ (term.stretch p).code, i.Within t.nextReg := by
  rw [term.code_stretch]
  exact h.disciplined.within _

end

/-! ## The discipline -/

/-- What allocation makes of an expression: where its value lies and which register is free next,
and the code that any pass emits for it from then on. -/
structure Expr.KeepsRegisters (scope : Scope) (n : Nat) (t : Tables) (e : Expr) (term : Term)
    (t' : Tables) : Prop where
  reg_eq : e.valueReg? scope t.nextReg = some term.reg
  next : match e with
    | .var _ _ _ => t'.nextReg = t.nextReg
    | _ => t.nextReg < t'.nextReg
  code : ∀ p : Pass, t'.constants.size ≤ p.constants.size → (term.stretch p).stop < UInt64.size →
    (term.stretch p).Disciplined n term.reg t.nextReg

/-- An expression without calls in return position keeps to the registers from the next free one on,
when the parameters lie below it. -/
theorem Expr.allocate_disciplined {scope : Scope} {n : Nat} {e : Expr} {t t' : Tables} {term : Term}
    (binds : scope.Binds n) (above : n = 0 ∨ n < t.nextReg) (flags : e.Flagged false)
    (h : e.allocate scope t = .ok (term, t')) : e.KeepsRegisters scope n t term t' := by
  have takes := e.allocate_takes binds above flags h
  refine ⟨takes.reg_eq, ?_, fun p covers small => ?_⟩
  · have next_eq := takes.next_eq
    cases e with
    | var => exact next_eq
    | const | binary | cond | call =>
      simp only [Expr.width] at next_eq ⊢
      omega
  · rw [term.stop_stretch] at small
    exact (takes.sound covers small).disciplined (takes.within p) above

/-- A sum with a call, whose argument is a conditional with another call in it:
`(+ (twice (if (> x 1) (twice x) 7)) x)`. -/
def probing : Expr :=
  .binary false .add
    (.call false "twice"
      [.cond false (.binary false .gt (.var false .unknown "x") (.const false (.int 1)))
        (.call false "twice" [.var false .unknown "x"]) (.const false (.int 7))])
    (.var false .unknown "x")

def probingScope : Scope := ⟨[[("x", ⟨1, .int⟩)]]⟩

def probingTables : Tables :=
  { functions := #[⟨"twice", some 0, [.int, .int], 0⟩]
    indices := NameIndex.empty.insert "twice" 0
    nextReg := 2
    maxReg := 2 }

def probingPass : Pass := { functions := probingTables.functions, constants := #[0, 0, 1, 7] }

/-- The code of the sum, which starts at register two. -/
def probingStretch : Stretch where
  start := 0
  code := [⟨11, 5, 2, 0⟩, ⟨10, 1, 5, 4⟩, ⟨12, 4, 1, 0⟩, ⟨14, 1, 5, 0⟩, ⟨14, 5, 1, 1⟩, ⟨1, 0, 0, 0⟩,
    ⟨14, 0, 4, 2⟩, ⟨13, 0, 0, 0⟩, ⟨11, 4, 3, 0⟩, ⟨14, 4, 1, 1⟩, ⟨1, 0, 0, 0⟩, ⟨14, 0, 3, 2⟩,
    ⟨6, 3, 1, 2⟩]
  pool := #[9, 8, 1, 7]

/-- The code of the sum with that of `twice` behind it. -/
def probingImage : Image where
  functions := #[⟨"twice", 13, 0, 2, [.int, .int]⟩]
  constants := probingStretch.pool
  code := (probingStretch.code ++ [Instruction.ternary .addi 1 1 0, .nullary .ret]).toArray
  modules := #[⟨"probing", {}, 1, 4, 15, 6⟩]

/-- Registers with five as `x`, and with something stale in register four. -/
def probingFile (stale : Int64) : Array Int64 :=
  ((Array.replicate 520 0).setIfInBounds 1 5).setIfInBounds 4 stale

/-- A machine before the sum. -/
def probingMachine (stale : Int64) : Machine :=
  { registers := probingFile stale, pc := 0, reservation := 6 }

theorem probing_loaded (stale : Int64) :
    probingStretch.Loaded probingImage (probingMachine stale) where
  start_eq := rfl
  holds := by
    refine ⟨?_, ?_⟩
    · intro k i found
      have lt := (List.getElem?_eq_some_iff.1 found).1
      change (probingStretch.code ++ _).toArray[0 + k]? = some i
      rw [Nat.zero_add, List.getElem?_toArray, List.getElem?_append_left lt, found]
    · have small : ∀ i ∈ probingStretch.code, i.maxLocalRegister.all (· < 6) = true := by decide
      intro i mem r local_eq
      change r < 6
      simpa [local_eq] using small i mem
  jumps := by
    change ∀ i ∈ probingStretch.code, i.jumps = true →
      probingImage.constant 0 i.constIndex = probingStretch.pool[i.constIndex]?
    decide +kernel

theorem probing_agree (stale stale' : Int64) :
    (probingMachine stale).Agree (fun x => ¬ (probingMachine stale).Stale 2 x)
      (probingMachine stale') where
  rest_eq := by simp only [probingMachine]
  size_eq := by simp only [probingMachine, probingFile, Array.size_setIfInBounds]
  shown_eq x fresh := by
    have other : 4 ≠ x := by
      rintro rfl
      exact fresh ⟨Nat.le_of_ble_eq_true rfl, Nat.le_of_ble_eq_true rfl⟩
    simp only [probingMachine, probingFile, Array.getElem?_setIfInBounds_ne other]

theorem Expr.allocate_disciplined_probing :
    probingScope.Binds 1 ∧ probing.Flagged false ∧
      ∃ term t', probing.allocate probingScope probingTables = .ok (term, t') ∧
        term.stretch probingPass = probingStretch ∧ probingStretch.Disciplined 1 2 2 ∧
        ∀ stale, ((probingMachine stale).advance probingImage {} 16).register 2 = 25 := by
  have binds : probingScope.Binds 1 :=
    binds_of_bindParams (show bindParams _ 1 [⟨"x", .int⟩] = .ok probingScope from rfl)
  have flags : probing.Flagged false := by
    simp [probing, Expr.Flagged, Expr.ArgsFlagged]
  have facts : (probing.allocate probingScope probingTables).toOption.map (fun r =>
      (r.1.reg, r.2.constants.size, r.1.stretch probingPass)) = some (2, 4, probingStretch) := by
    decide +kernel
  cases allocated : probing.allocate probingScope probingTables with
  | error e =>
    rw [allocated] at facts
    cases facts
  | ok r =>
    rw [allocated] at facts
    obtain ⟨reg_eq, rest⟩ := Prod.mk.inj (Option.some.inj facts)
    obtain ⟨size_eq, stretch_eq⟩ := Prod.mk.inj rest
    have keeps := Expr.allocate_disciplined binds (.inr (by decide)) flags allocated
    have code := keeps.code probingPass (Nat.le_of_eq size_eq) (by rw [stretch_eq]; decide)
    rw [stretch_eq, reg_eq] at code
    refine ⟨binds, flags, r.1, r.2, rfl, stretch_eq, code, fun stale => ?_⟩
    have unaffected := code.unaffected probingImage {} (probingMachine 0) (probingMachine stale)
      (probing_loaded 0) (probing_agree 0 stale) 16 (by decide +kernel)
    have same := (unaffected.value_eq (by decide +kernel)).2
    exact same.trans (by decide +kernel)

end RegLisp
