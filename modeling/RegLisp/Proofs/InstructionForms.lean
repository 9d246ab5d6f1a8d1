import RegLisp.Compile.Code
import RegLisp.Machine.Step

/-!
# Instructions as they are written

The operands of an instruction that compiled code has are read as they were written, as long as
they fit their bytes, and the plan of such an instruction is the obvious one.
-/

namespace RegLisp

namespace Instruction

@[simp] theorem op?_nullary (op : Opcode) : (nullary op).op? = some op := Opcode.ofByte?_toByte op

@[simp] theorem op?_ternary (op : Opcode) (a b c : UInt8) : (ternary op a b c).op? = some op :=
  Opcode.ofByte?_toByte op

@[simp] theorem op?_const (op : Opcode) (r : UInt8) (i : UInt16) : (const op r i).op? = some op :=
  Opcode.ofByte?_toByte op

@[simp] theorem op?_call (op : Opcode) (i : UInt32) : (call op i).op? = some op :=
  Opcode.ofByte?_toByte op

@[simp] theorem op?_movCode (mode : MoveMode) (src dst : Nat) :
    (movCode mode src dst).op? = some .mov := rfl

@[simp] theorem moveMode?_movCode (mode : MoveMode) (src dst : Nat) :
    (movCode mode src dst).moveMode? = some mode := MoveMode.ofByte?_toByte mode

/-- The two bytes of an index give the index back. -/
theorem constIndex_const (op : Opcode) (r : UInt8) {i : Nat} (h : i < UInt16.size) :
    (const op r (.ofNat i)).constIndex = i := by
  have word : (UInt16.ofNat i).toNat = i := UInt16.toNat_ofNat_of_lt' h
  unfold UInt16.size at h
  simp only [const, constIndex, UInt16.toNat_toUInt8, UInt16.toNat_shiftRight, word,
    UInt16.reduceToNat, Nat.reduceMod, Nat.shiftRight_eq_div_pow, Nat.reducePow]
  omega

/-- An index gives its two bytes back. -/
theorem const_constIndex (op : Opcode) (r : UInt8) (i : Instruction) :
    const op r (.ofNat i.constIndex) = ⟨op.toByte, r, i.b, i.c⟩ := by
  have hb := i.b.toNat_lt
  have hc := i.c.toNat_lt
  have word : (UInt16.ofNat i.constIndex).toNat = i.b.toNat + 256 * i.c.toNat :=
    UInt16.toNat_ofNat_of_lt' (by simp only [constIndex, UInt16.size]; omega)
  simp only [const, mk.injEq, true_and, ← UInt8.toNat_inj, UInt16.toNat_toUInt8,
    UInt16.toNat_shiftRight, word, UInt16.reduceToNat, Nat.reduceMod, Nat.shiftRight_eq_div_pow,
    Nat.reducePow]
  omega

/-- The three bytes of an index give the index back. -/
theorem callIndex_call (op : Opcode) {i : Nat} (h : i < maxFunctions) :
    (call op (.ofNat i)).callIndex = i := by
  unfold maxFunctions at h
  have word : (UInt32.ofNat i).toNat = i :=
    UInt32.toNat_ofNat_of_lt' (by simp only [UInt32.size]; omega)
  simp only [call, callIndex, UInt32.toNat_toUInt8, UInt32.toNat_shiftRight, word,
    UInt32.reduceToNat, Nat.reduceMod, Nat.shiftRight_eq_div_pow, Nat.reducePow]
  omega

/-- An index gives its three bytes back. -/
theorem call_callIndex (op : Opcode) (i : Instruction) :
    call op (.ofNat i.callIndex) = ⟨op.toByte, i.a, i.b, i.c⟩ := by
  have ha := i.a.toNat_lt
  have hb := i.b.toNat_lt
  have hc := i.c.toNat_lt
  have word : (UInt32.ofNat i.callIndex).toNat =
      i.a.toNat + 256 * i.b.toNat + 65536 * i.c.toNat :=
    UInt32.toNat_ofNat_of_lt' (by simp only [callIndex, UInt32.size]; omega)
  simp only [call, mk.injEq, true_and, ← UInt8.toNat_inj, UInt32.toNat_toUInt8,
    UInt32.toNat_shiftRight, word, UInt32.reduceToNat, Nat.reduceMod, Nat.shiftRight_eq_div_pow,
    Nat.reducePow]
  omega

end Instruction

end RegLisp
