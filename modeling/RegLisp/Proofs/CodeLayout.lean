import RegLisp.Compile.Unit
import RegLisp.Proofs.Allocation
import RegLisp.Proofs.Layout

/-!
# Where code lies

The layout of a program is worked out from the sizes of its terms, and the code from the terms
themselves. The two agree: every section of the code starts where the layout says, and every slot
that a term uses holds its literal or the address that its jump goes to.
-/

namespace RegLisp

/-! ## Sizes -/

theorem length_moveCode (src dst : Nat) : (moveCode src dst).length = moveSize src dst := by
  unfold moveCode moveSize
  split <;> rfl

theorem Term.length_settleCode (t : Term) (dst : Nat) :
    (t.settleCode dst).length = t.settleSize dst := by
  unfold settleCode settleSize
  split
  · rfl
  · exact length_moveCode _ _

theorem length_passCode (mode : MoveMode) (reg count : Nat) :
    (passCode mode reg count).length = count := by
  simp [passCode]

theorem length_callCode (external tail : Bool) (reg index count : Nat) :
    (callCode external tail reg index count).length = count + if tail then 1 else 2 := by
  cases tail <;> simp [callCode, length_passCode]

mutual

/-- The code of a term is as long as the layout takes it to be. -/
theorem Term.length_code (external : Nat → Bool) :
    ∀ t : Term, (t.code external).length = t.size
  | .const _ _ _ => rfl
  | .var _ _ _ => rfl
  | .binary _ _ _ lhs rhs => by
    simp [Term.code, Term.size, lhs.length_code external, rhs.length_code external,
      Nat.add_assoc]
  | .cond _ _ _ _ test onTrue onFalse => by
    simp only [Term.code, Term.size, List.length_append, List.length_cons,
      test.length_code external, onTrue.length_code external, onFalse.length_code external,
      Term.length_settleCode]
    omega
  | .call _ _ _ _ _ args => by
    simp only [Term.code, Term.size, List.length_append, Term.length_argsCode external args,
      length_callCode]
    omega

theorem Term.length_argsCode (external : Nat → Bool) :
    ∀ (args : List Term) {slot : Nat},
      (Term.argsCode external slot args).length = Term.argsSize slot args
  | [], _ => rfl
  | arg :: args, slot => by
    simp only [Term.argsCode, Term.argsSize, List.length_append, arg.length_code external,
      length_moveCode, Term.length_argsCode external args]

end

theorem Term.length_entryCode (external : Nat → Bool) (t : Term) :
    (t.entryCode external).length = t.entrySize := by
  simp [entryCode, entrySize, length_code, length_moveCode]

theorem Term.length_bodyCode (external : Nat → Bool) (t : Term) :
    (t.bodyCode external).length = t.bodySize := by
  simp [bodyCode, bodySize, length_code, length_settleCode, Nat.add_assoc]

theorem Term.bodySize_pos (t : Term) : 0 < t.bodySize := Nat.succ_pos _

/-! ## Slots -/

mutual

/-- What the slots of a term at the given address have to hold. -/
def Term.fills (address : Nat) : Term → List (Nat × UInt64)
  | .const _ slot value => [(slot, value.toWord)]
  | .var _ _ _ => []
  | .binary _ _ _ lhs rhs => lhs.fills address ++ rhs.fills (address + lhs.size)
  | .cond reg _ joinSlot elseSlot test onTrue onFalse =>
    let thenStart := address + test.size + 1
    let elseStart := thenStart + (onTrue.size + onTrue.settleSize reg) + 1
    let join := elseStart + (onFalse.size + onFalse.settleSize reg)
    (joinSlot, .ofNat join) :: (elseSlot, .ofNat elseStart) ::
      (test.fills address ++ onTrue.fills thenStart ++ onFalse.fills elseStart)
  | .call reg _ _ _ _ args => Term.argsFills address (reg + 1) args

/-- What the slots of arguments have to hold, when their code starts at the given address. -/
def Term.argsFills (address slot : Nat) : List Term → List (Nat × UInt64)
  | [] => []
  | arg :: args =>
    arg.fills address ++
      Term.argsFills (address + (arg.size + moveSize arg.reg slot)) (slot + 1) args

end

mutual

theorem Term.map_fst_fills : ∀ (t : Term) (address : Nat),
    (t.fills address).map Prod.fst = t.slots
  | .const _ _ _, _ => rfl
  | .var _ _ _, _ => rfl
  | .binary _ _ _ lhs rhs, address => by
    simp [Term.fills, Term.slots, lhs.map_fst_fills, rhs.map_fst_fills]
  | .cond _ _ _ _ test onTrue onFalse, address => by
    simp [Term.fills, Term.slots, test.map_fst_fills, onTrue.map_fst_fills, onFalse.map_fst_fills]
  | .call _ _ _ _ _ args, address => by
    rw [Term.fills, Term.slots, Term.map_fst_argsFills args]

theorem Term.map_fst_argsFills : ∀ (args : List Term) (address slot : Nat),
    (Term.argsFills address slot args).map Prod.fst = Term.argsSlots args
  | [], _, _ => rfl
  | arg :: args, address, slot => by
    simp [Term.argsFills, Term.argsSlots, arg.map_fst_fills, Term.map_fst_argsFills args]

end

/-- A slot with its address, as the word that the pool holds. -/
def targetWord (target : Nat × Nat) : Nat × UInt64 := (target.1, .ofNat target.2)

mutual

theorem Term.mem_fills_of_mem_targets : ∀ (t : Term) {address : Nat} {x : Nat × Nat},
    x ∈ t.targets address → targetWord x ∈ t.fills address
  | .const _ _ _, _, _, h => by simp [Term.targets] at h
  | .var _ _ _, _, _, h => by simp [Term.targets] at h
  | .binary _ _ _ lhs rhs, _, _, h => by
    simp only [Term.targets, List.mem_append] at h
    simp only [Term.fills, List.mem_append]
    exact h.imp lhs.mem_fills_of_mem_targets rhs.mem_fills_of_mem_targets
  | .cond _ _ _ _ test onTrue onFalse, _, _, h => by
    simp only [Term.targets, List.mem_append, List.mem_cons, List.not_mem_nil, or_false] at h
    simp only [Term.fills, List.mem_append, List.mem_cons]
    rcases h with (h | h) | h | h | h
    · exact .inr (.inr (.inl (.inl (test.mem_fills_of_mem_targets h))))
    · exact .inr (.inr (.inl (.inr (onTrue.mem_fills_of_mem_targets h))))
    · exact .inr (.inl (congrArg targetWord h))
    · exact .inr (.inr (.inr (onFalse.mem_fills_of_mem_targets h)))
    · exact .inl (congrArg targetWord h)
  | .call _ _ _ _ _ args, _, _, h => Term.mem_argsFills_of_mem_argsTargets args h

theorem Term.mem_argsFills_of_mem_argsTargets : ∀ (args : List Term) {address slot : Nat}
    {x : Nat × Nat}, x ∈ Term.argsTargets address slot args →
      targetWord x ∈ Term.argsFills address slot args
  | [], _, _, _, h => by simp [Term.argsTargets] at h
  | arg :: args, _, _, _, h => by
    simp only [Term.argsTargets, List.mem_append] at h
    simp only [Term.argsFills, List.mem_append]
    exact h.imp arg.mem_fills_of_mem_targets (Term.mem_argsFills_of_mem_argsTargets args)

end

/-- What a slot has to hold is a literal that the pool has, or the address of a jump. -/
def Filled (t : Tables) (targets : List (Nat × Nat)) (fill : Nat × UInt64) : Prop :=
  t.constants[fill.1]? = some fill.2 ∨ ∃ x ∈ targets, fill = targetWord x

theorem Filled.mono {t : Tables} {targets targets' : List (Nat × Nat)} {fill : Nat × UInt64}
    (h : Filled t targets fill) (subset : targets ⊆ targets') : Filled t targets' fill :=
  h.imp_right fun ⟨x, mem, eq⟩ => ⟨x, subset mem, eq⟩

mutual

theorem Placed.filled {scope : Scope} {t : Tables} : ∀ {e : Expr} {term : Term} {reg : Nat},
    Placed scope t reg e term → ∀ {address : Nat} {fill : Nat × UInt64},
      fill ∈ term.fills address → Filled t (term.targets address) fill
  | .const _ _, _, _, .const _ pooled, _, fill, h => by
    simp only [Term.fills, List.mem_singleton] at h
    subst h
    exact .inl pooled
  | .var _ _ _, _, _, .var _ _, _, fill, h => by simp [Term.fills] at h
  | .binary _ _ _ _, _, _, .binary _ left right, address, fill, h => by
    simp only [Term.fills, List.mem_append] at h
    simp only [Term.targets]
    rcases h with h | h
    · exact (left.filled h).mono (by simp)
    · exact (right.filled h).mono (by simp)
  | .cond _ _ _ _, _, _, .cond _ tested yes no, address, fill, h => by
    simp only [Term.fills, List.mem_append, List.mem_cons] at h
    simp only [Term.targets]
    rcases h with h | h | (h | h) | h
    · exact .inr ⟨(_, _), by simp, h⟩
    · exact .inr ⟨(_, _), by simp, h⟩
    · exact (tested.filled h).mono (by simp)
    · exact (yes.filled h).mono (by simp)
    · exact (no.filled h).mono fun _ mem => by simp [mem]
  | .call _ _ _, _, _, .call _ passed _ _ _, address, fill, h => by
    exact passed.filled h

theorem PlacedArgs.filled {scope : Scope} {t : Tables} : ∀ {args : List Expr} {terms : List Term}
    {slot : Nat}, PlacedArgs scope t slot args terms → ∀ {address : Nat} {fill : Nat × UInt64},
      fill ∈ Term.argsFills address slot terms →
        Filled t (Term.argsTargets address slot terms) fill
  | [], _, _, .nil, _, fill, h => by simp [Term.argsFills] at h
  | _ :: _, _, _, .cons _ first others, address, fill, h => by
    simp only [Term.argsFills, List.mem_append] at h
    simp only [Term.argsTargets]
    rcases h with h | h
    · exact (first.filled h).mono (by simp)
    · exact (others.filled h).mono (by simp)

end

/-! ## The layout of a program -/

/-- The slots that terms fill with addresses, when their code starts at the given address. -/
def entryTargets (address : Nat) : List Term → List (Nat × Nat)
  | [] => []
  | t :: ts => t.targets address ++ entryTargets (address + t.entrySize) ts

/-- What the slots of entry expressions have to hold, when their code starts at the given
address. -/
def entryFills (address : Nat) : List Term → List (Nat × UInt64)
  | [] => []
  | t :: ts => t.fills address ++ entryFills (address + t.entrySize) ts

/-- How many instructions entry expressions take. -/
def entriesSize (ts : List Term) : Nat := (ts.map Term.entrySize).sum

theorem entriesSize_cons (t : Term) (ts : List Term) :
    entriesSize (t :: ts) = t.entrySize + entriesSize ts := by
  simp [entriesSize]

/-- How many instructions bodies take. -/
def bodiesSize (bodies : List (Nat × Term)) : Nat := (bodies.map (·.2.bodySize)).sum

/-- A body with its place in the code. -/
structure Laid where
  index : Nat
  start : Nat
  term : Term

/-- Where the body ends. -/
def Laid.stop (l : Laid) : Nat := l.start + l.term.bodySize

/-- The places of bodies that lie one behind the other from the given address on. -/
def layBodies (address : Nat) : List (Nat × Term) → List Laid
  | [] => []
  | (index, t) :: bodies => ⟨index, address, t⟩ :: layBodies (address + t.bodySize) bodies

theorem foldl_addEntry (ts : List Term) (l : Layout) :
    ts.foldl Layout.addEntry l =
      { l with
        targets := l.targets ++ (entryTargets l.size ts).toArray
        size := l.size + entriesSize ts } := by
  induction ts generalizing l with
  | nil => simp [entryTargets, entriesSize]
  | cons t ts ih =>
    rw [List.foldl_cons, ih]
    simp [Layout.addEntry, entryTargets, entriesSize, append_list_eq, Nat.add_assoc]

theorem foldl_addBody (bs : List (Nat × Term)) (l : Layout) :
    bs.foldl (fun l (index, t) => l.addBody index t) l =
      { starts := l.starts ++ ((layBodies l.size bs).map fun b => (b.index, b.start)).toArray
        targets := l.targets ++ ((layBodies l.size bs).flatMap fun b =>
          b.term.targets b.start).toArray
        size := l.size + bodiesSize bs } := by
  induction bs generalizing l with
  | nil => simp [layBodies, bodiesSize]
  | cons b bs ih =>
    rw [List.foldl_cons, ih]
    simp [Layout.addBody, layBodies, bodiesSize, append_list_eq, Nat.add_assoc]

section

variable {address : Nat} {bs : List (Nat × Term)} {l l' : Laid}

theorem map_layBodies (address : Nat) (bs : List (Nat × Term)) :
    (layBodies address bs).map (fun b => (b.index, b.term)) = bs := by
  induction bs generalizing address with
  | nil => rfl
  | cons b bs ih => simp [layBodies, ih]

theorem Laid.start_lt_stop (l : Laid) : l.start < l.stop :=
  Nat.lt_add_of_pos_right l.term.bodySize_pos

theorem bounds_of_mem_layBodies (h : l ∈ layBodies address bs) :
    address ≤ l.start ∧ l.stop ≤ address + bodiesSize bs := by
  induction bs generalizing address with
  | nil => simp [layBodies] at h
  | cons b bs ih =>
    simp only [bodiesSize, List.map_cons, List.sum_cons]
    obtain rfl | h := List.mem_cons.1 h
    · simp only [Laid.stop]
      omega
    · have := ih h
      simp only [bodiesSize] at this
      omega

/-- Bodies do not overlap. -/
theorem layBodies_apart (h : l ∈ layBodies address bs) (h' : l' ∈ layBodies address bs) :
    l = l' ∨ l.stop ≤ l'.start ∨ l'.stop ≤ l.start := by
  induction bs generalizing address with
  | nil => simp [layBodies] at h
  | cons b bs ih =>
    obtain rfl | h := List.mem_cons.1 h
    · obtain rfl | h' := List.mem_cons.1 h'
      · exact .inl rfl
      · exact .inr (.inl (bounds_of_mem_layBodies h').1)
    · obtain rfl | h' := List.mem_cons.1 h'
      · exact .inr (.inr (bounds_of_mem_layBodies h).1)
      · exact ih h h'

/-- Behind a body comes another one, or the end of the code. -/
theorem layBodies_next (h : l ∈ layBodies address bs) :
    l.stop = address + bodiesSize bs ∨ ∃ l' ∈ layBodies address bs, l'.start = l.stop := by
  induction bs generalizing address with
  | nil => simp [layBodies] at h
  | cons b bs ih =>
    obtain rfl | h := List.mem_cons.1 h
    · cases bs with
      | nil => simp [Laid.stop, bodiesSize]
      | cons b' bs => exact .inr ⟨_, .tail _ (.head _), rfl⟩
    · obtain last | ⟨l', mem, start⟩ := ih h
      · left
        simp only [bodiesSize, List.map_cons, List.sum_cons] at last ⊢
        omega
      · exact .inr ⟨l', .tail _ mem, start⟩

/-- The code of a body lies at its place. -/
theorem layBodies_code (external : Nat → Bool) (front : List Instruction)
    (h : l ∈ layBodies front.length bs) :
    ∃ before after, front ++ bs.flatMap (fun (_, t) => t.bodyCode external) =
      before ++ l.term.bodyCode external ++ after ∧ before.length = l.start := by
  induction bs generalizing front with
  | nil => simp [layBodies] at h
  | cons b bs ih =>
    obtain rfl | h := List.mem_cons.1 h
    · exact ⟨front, bs.flatMap fun (_, t) => t.bodyCode external, by simp, rfl⟩
    · have := ih (front ++ b.2.bodyCode external)
        (by rwa [List.length_append, Term.length_bodyCode])
      simpa using this

end

end RegLisp
