import Mathlib
import RegLisp.Module.Decoding

/-!
# Reading what was written

A module file that is written from tables and code and then read back gives the same tables and
the same code. Entries come back without their frame sizes, which a module derives from its code.
-/

namespace RegLisp

theorem except_bind_eq_ok {ε α β : Type} {x : Except ε α} {f : α → Except ε β} {b : β} :
    (x >>= f) = .ok b ↔ ∃ a, x = .ok a ∧ f a = .ok b := by
  cases x with
  | error e => simp [bind, Except.bind]
  | ok a => simp [bind, Except.bind]

/-! ## Numbers and texts -/

/-- Low bytes keep a number up to what they can hold. -/
theorem ofLittleEndian_littleEndian (width n : Nat) :
    ofLittleEndian (littleEndian width n) = n % 256 ^ width := by
  induction width generalizing n with
  | zero => simp [littleEndian, ofLittleEndian, Nat.mod_one]
  | succ width ih =>
    rw [littleEndian, ofLittleEndian, ih, Nat.pow_succ', Nat.mod_mul, UInt8.toNat_ofNat']

theorem readBytes_append (part : FilePart) (bytes rest : List UInt8) (offset : Nat) :
    readBytes part bytes.length ⟨bytes ++ rest, offset⟩ =
      .ok (bytes, ⟨rest, offset + bytes.length⟩) := by
  simp [readBytes]

theorem readNat_append (part : FilePart) (width n : Nat) (rest : List UInt8) (offset : Nat) :
    readNat part width ⟨littleEndian width n ++ rest, offset⟩ =
      .ok (n % 256 ^ width, ⟨rest, offset + width⟩) := by
  have := readBytes_append part (littleEndian width n) rest offset
  rw [length_littleEndian] at this
  rw [readNat, this, ← ofLittleEndian_littleEndian]
  rfl

theorem textOfBytes?_textBytes (s : String) : textOfBytes? (textBytes s) = some s := by
  have : (⟨(textBytes s).toArray⟩ : ByteArray) = s.toByteArray := rfl
  rw [textOfBytes?, this, String.fromUTF8?]
  simp [s.isValidUTF8, String.fromUTF8]

theorem readTypes_map (function : String) (types : List ValueType) :
    readTypes function (types.map ValueType.toByte) = .ok types := by
  induction types with
  | nil => rfl
  | cons type types ih =>
    simp [readTypes, ih, bind, Except.bind, pure, Except.pure]

/-! ## Entries and tables -/

/-- An entry whose name and signature have lengths that a byte can hold. -/
structure FunctionEntry.Short (f : FunctionEntry) : Prop where
  name_le : (textBytes f.name).length ≤ 255
  types_le : f.types.length ≤ 255

/-- An entry as it comes back from a file. -/
def FunctionEntry.bare (f : FunctionEntry) : FunctionEntry :=
  { f with
    address := if f.storedAddress = externalAddress then none else some f.storedAddress
    reservation := 0 }

/-- What reading a written entry gives, and when it fails. -/
theorem readFunction_encode {f : FunctionEntry} (short : f.Short) (instructions : Nat)
    (rest : List UInt8) (offset : Nat) :
    readFunction instructions ⟨f.encode ++ rest, offset⟩ =
      if f.storedAddress = externalAddress ∨ f.storedAddress.toNat < instructions then
        .ok (f.bare, ⟨rest, offset + f.encode.length⟩)
      else .error (.invalidAddress f.name f.storedAddress) := by
  have hname : (textBytes f.name).length % 256 ^ 1 = (textBytes f.name).length := by
    have := short.name_le
    omega
  have htypes : f.types.length % 256 ^ 1 = (f.types.map ValueType.toByte).length := by
    have := short.types_le
    rw [List.length_map]
    omega
  have haddress : f.storedAddress.toNat % 256 ^ 8 = f.storedAddress.toNat :=
    Nat.mod_eq_of_lt f.storedAddress.toNat_lt
  simp only [readFunction, FunctionEntry.encode, List.append_assoc, bind, Except.bind,
    readNat_append, hname, htypes, haddress, readBytes_append, textOfBytes?_textBytes,
    readTypes_map, UInt64.toNat_inj, UInt64.ofNat_toNat, pure, Except.pure]
  by_cases external : f.storedAddress = externalAddress
  · simp [external, FunctionEntry.bare, Nat.add_assoc]
    omega
  · by_cases inside : f.storedAddress.toNat < instructions
    · simp [external, inside, FunctionEntry.bare, Nat.add_assoc]
      omega
    · simp [external, inside, throw, throwThe, MonadExceptOf.throw]

/-- If each item is read back as a value, so is a list of them. -/
theorem readMany_flatMap {α β : Type} {read : Read β} {encode : α → List UInt8} {value : α → β}
    {xs : List α} (h : ∀ x ∈ xs, ∀ rest offset y c,
      read ⟨encode x ++ rest, offset⟩ = .ok (y, c) → y = value x ∧ c.rest = rest)
    {done ys : Array β} {rest : List UInt8} {offset : Nat} {c : Cursor}
    (hread : readMany read xs.length done ⟨xs.flatMap encode ++ rest, offset⟩ = .ok (ys, c)) :
    ys = done ++ (xs.map value).toArray ∧ c.rest = rest := by
  induction xs generalizing done offset with
  | nil =>
    cases hread
    simp
  | cons x xs ih =>
    rw [List.flatMap_cons, List.append_assoc, List.length_cons, readMany] at hread
    split at hread
    · cases hread
    · rename_i y middle hx
      obtain ⟨rfl, hrest⟩ := h x List.mem_cons_self _ _ _ _ hx
      obtain ⟨after, before⟩ := middle
      subst hrest
      obtain ⟨rfl, hc⟩ := ih (fun x hx => h x (List.mem_cons_of_mem _ hx)) hread
      exact ⟨by simp, hc⟩

/-- Instructions that can be read are read as they were written. -/
theorem readCode_encodeCode {address : Nat} {done code' : Array Instruction}
    {code : List Instruction} (h : readCode address done (encodeCode code) = .ok code') :
    code' = done ++ code.toArray := by
  induction code generalizing address done with
  | nil =>
    cases h
    simp
  | cons i code ih =>
    rw [encodeCode, List.flatMap_cons, Instruction.toBytes] at h
    simp only [List.cons_append, List.nil_append] at h
    rw [readCode] at h
    split at h
    · cases h
    · rw [ih h]
      simp

theorem length_encodeCode (code : List Instruction) :
    (encodeCode code).length = 4 * code.length := by
  induction code with
  | nil => rfl
  | cons i code ih =>
    rw [encodeCode, List.flatMap_cons, List.length_append, ← encodeCode, ih, List.length_cons]
    simp only [Instruction.toBytes, List.length_cons, List.length_nil]
    omega

theorem readFunction_eq_ok {f g : FunctionEntry} (short : f.Short) {instructions : Nat}
    {rest : List UInt8} {offset : Nat} {c : Cursor}
    (h : readFunction instructions ⟨f.encode ++ rest, offset⟩ = .ok (g, c)) :
    g = f.bare ∧ c.rest = rest := by
  rw [readFunction_encode short] at h
  split at h
  · cases h
    exact ⟨rfl, rfl⟩
  · cases h

theorem readWord_eq_ok {word : UInt64} {n : Nat} {rest : List UInt8} {offset : Nat} {c : Cursor}
    (h : readNat .constantPool 8 ⟨littleEndian 8 word.toNat ++ rest, offset⟩ = .ok (n, c)) :
    n = word.toNat ∧ c.rest = rest := by
  rw [readNat_append] at h
  cases h
  exact ⟨Nat.mod_eq_of_lt word.toNat_lt, rfl⟩

/-- All of some bytes are read if nothing is left of them. -/
theorem readBytes_eq_ok {part : FilePart} {count : Nat} {c c' : Cursor} {front : List UInt8}
    (h : readBytes part count c = .ok (front, c')) (hrest : c'.rest = []) :
    front = c.rest ∧ c.rest.length = count := by
  simp only [readBytes] at h
  split at h
  · rename_i length
    cases h
    rw [List.drop_eq_nil_iff] at hrest
    rw [List.length_take] at length
    exact ⟨List.take_of_length_le hrest, by omega⟩
  · cases h

/-- Tables that fit the fields of a module file. -/
structure Storable (functions : List FunctionEntry) (constants : List UInt64) : Prop where
  functions_lt : functions.length < UInt32.size
  constants_lt : constants.length < UInt16.size
  short : ∀ f ∈ functions, f.Short

/-- A written file that can be read gives back its own parts. In particular it has no more
instructions than its header can count. -/
theorem decode_encodeParts {name : String} {functions : List FunctionEntry}
    {constants : List UInt64} {code : List Instruction} {m : Module}
    (storable : Storable functions constants)
    (h : Module.decode name (encodeParts functions constants code) = .ok m) :
    code.length < UInt64.size ∧
      m = .ofParts name (functions.map FunctionEntry.bare).toArray constants.toArray
        code.toArray := by
  have hmagic : ∀ rest, readBytes .header 2 ⟨magic ++ rest, 0⟩ = .ok (magic, ⟨rest, 2⟩) :=
    fun rest => readBytes_append .header magic rest 0
  have hconstants : constants.length % 256 ^ 2 = constants.length :=
    Nat.mod_eq_of_lt storable.constants_lt
  have hfunctions : functions.length % 256 ^ 4 = functions.length :=
    Nat.mod_eq_of_lt storable.functions_lt
  simp only [Module.decode, encodeParts, encodeHeader, List.append_assoc, bind, Except.bind,
    hmagic, readNat_append, hconstants, hfunctions, ne_eq, not_true_eq_false, ↓reduceIte, pure,
    Except.pure, throw, throwThe, MonadExceptOf.throw] at h
  split at h
  · cases h
  split at h
  · cases h
  rename_i read₁ h₁
  split at h
  · cases h
  rename_i read₂ h₂
  split at h
  · cases h
  rename_i read₃ h₃
  split at h
  · cases h
  rename_i code' h₄
  split at h
  · cases h
  rename_i hrest
  obtain ⟨fs, rest₁, offset₁⟩ := read₁
  obtain ⟨rfl, rfl⟩ := readMany_flatMap
    (fun f hf _ _ _ _ => readFunction_eq_ok (storable.short f hf)) h₁
  obtain ⟨words, rest₂, offset₂⟩ := read₂
  obtain ⟨rfl, rfl⟩ := readMany_flatMap (fun _ _ _ _ _ _ => readWord_eq_ok) h₂
  obtain ⟨front, c₃⟩ := read₃
  obtain ⟨rfl, length⟩ := readBytes_eq_ok h₃ (Classical.not_not.1 hrest)
  rw [length_encodeCode] at length
  rw [readCode_encodeCode h₄] at h
  cases h
  refine ⟨?_, ?_⟩
  · have := Nat.mod_lt code.length (show 256 ^ 8 > 0 by decide)
    unfold UInt64.size
    omega
  · simp [Function.comp_def]

end RegLisp
