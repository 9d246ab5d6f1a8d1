import RegLisp.Proofs.CodeStarts
import RegLisp.Proofs.ModuleFile

/-!
# The format of module files

A module file is the written form of exactly one module. Every reader is exact: it takes what is
written for the values that fit its field, and refuses everything else. So a file can be read if
and only if it is the file of a well-formed module, and that module is what is read.
-/

namespace RegLisp

/-! ## Exact readers -/

/-- The reader takes what `encode` writes for the values that are `fit`, and nothing else. -/
structure Exact {α : Type} (read : Read α) (encode : α → List UInt8) (fit : α → Prop) : Prop where
  eq_ok_iff {c : Cursor} {a : α} {c' : Cursor} : read c = .ok (a, c') ↔
    fit a ∧ c.rest = encode a ++ c'.rest ∧ c'.offset = c.offset + (encode a).length

/-- What is written for a value that fits is read, whatever comes behind. -/
theorem Exact.read_append {α : Type} {read : Read α} {encode : α → List UInt8} {fit : α → Prop}
    (exact : Exact read encode fit) {a : α} (fits : fit a) (rest : List UInt8) (offset : Nat) :
    read ⟨encode a ++ rest, offset⟩ = .ok (a, ⟨rest, offset + (encode a).length⟩) :=
  exact.eq_ok_iff.2 ⟨fits, rfl, rfl⟩

theorem Exact.bind_append {α β : Type} {read : Read α} {encode : α → List UInt8} {fit : α → Prop}
    (exact : Exact read encode fit) {a : α} (fits : fit a) (rest : List UInt8) (offset : Nat)
    (next : α × Cursor → Except LoadError β) :
    (read ⟨encode a ++ rest, offset⟩ >>= next) =
      next (a, ⟨rest, offset + (encode a).length⟩) := by
  rw [exact.read_append fits]
  rfl

/-- A check that stops a reader is passed where the reader goes on. -/
theorem check_eq_ok {ε α β : Type} {p : Prop} [Decidable p] {e : ε} {f : α → Except ε β}
    {x : Except ε β} {b : β} :
    (if p then throw e >>= f else x) = .ok b ↔ ¬ p ∧ x = .ok b := by
  by_cases h : p
  · simp [h, throw, throwThe, MonadExceptOf.throw, bind, Except.bind]
  · simp [h]

theorem readBytes_exact (part : FilePart) (count : Nat) :
    Exact (readBytes part count) id (·.length = count) := by
  constructor
  intro c bytes c'
  constructor
  · intro h
    simp only [readBytes] at h
    split at h
    · rename_i length
      cases h
      exact ⟨length, (List.take_append_drop count c.rest).symm, by simp only [id_eq, length]⟩
    · cases h
  · rintro ⟨rfl, rest, offset⟩
    obtain ⟨rest', offset'⟩ := c'
    simp only [id_eq] at rest offset
    simp [readBytes, rest, offset]

/-- Bytes are what is written for their value, which is less than so many bytes can hold. -/
theorem littleEndian_ofLittleEndian (bytes : List UInt8) :
    littleEndian bytes.length (ofLittleEndian bytes) = bytes ∧
      ofLittleEndian bytes < 256 ^ bytes.length := by
  induction bytes with
  | nil => exact ⟨rfl, Nat.one_pos⟩
  | cons b bytes ih =>
    obtain ⟨written, lt⟩ := ih
    have byte := b.toNat_lt
    have low : (b.toNat + 256 * ofLittleEndian bytes) / 256 = ofLittleEndian bytes := by omega
    have head : UInt8.ofNat (b.toNat + 256 * ofLittleEndian bytes) = b := by
      apply UInt8.toNat_inj.1
      rw [UInt8.toNat_ofNat']
      omega
    refine ⟨?_, ?_⟩
    · rw [ofLittleEndian, List.length_cons, littleEndian, low, written, head]
    · rw [ofLittleEndian, List.length_cons, Nat.pow_succ]
      omega

theorem readNat_exact (part : FilePart) (width : Nat) :
    Exact (readNat part width) (littleEndian width) (· < 256 ^ width) := by
  constructor
  intro c n c'
  constructor
  · intro h
    simp only [readNat, except_bind_eq_ok, Prod.exists] at h
    obtain ⟨bytes, c₁, front, heq⟩ := h
    cases heq
    obtain ⟨rfl, rest, offset⟩ := (readBytes_exact ..).eq_ok_iff.1 front
    obtain ⟨written, lt⟩ := littleEndian_ofLittleEndian bytes
    refine ⟨lt, ?_, ?_⟩
    · rw [written]
      exact rest
    · rw [written]
      exact offset
  · rintro ⟨lt, rest, offset⟩
    obtain ⟨rest', offset'⟩ := c'
    obtain ⟨rest₀, offset₀⟩ := c
    simp only [length_littleEndian] at rest offset
    rw [rest, offset, readNat_append, Nat.mod_eq_of_lt lt]

theorem textOfBytes?_eq_some_iff {bytes : List UInt8} {s : String} :
    textOfBytes? bytes = some s ↔ bytes = textBytes s := by
  constructor
  · intro h
    unfold textOfBytes? String.fromUTF8? at h
    split at h
    · cases h
      rfl
    · cases h
  · rintro rfl
    exact textOfBytes?_textBytes s

theorem ValueType.ofByte?_eq_some_iff {b : UInt8} {type : ValueType} :
    ofByte? b = some type ↔ b = type.toByte := by
  constructor
  · intro h
    unfold ofByte? at h
    repeat' split at h
    all_goals cases h
    all_goals assumption
  · rintro rfl
    exact ofByte?_toByte type

theorem readTypes_eq_ok_iff {function : String} {bytes : List UInt8} {types : List ValueType} :
    readTypes function bytes = .ok types ↔ bytes = types.map ValueType.toByte := by
  constructor
  · intro h
    induction bytes generalizing types with
    | nil =>
      cases h
      rfl
    | cons b bytes ih =>
      rw [readTypes] at h
      cases known : ValueType.ofByte? b with
      | none => simp [known] at h
      | some type =>
        simp only [known, except_bind_eq_ok] at h
        obtain ⟨rest, hrest, heq⟩ := h
        cases heq
        rw [ih hrest, ValueType.ofByte?_eq_some_iff.1 known, List.map_cons]
  · rintro rfl
    exact readTypes_map function types

/-! ## Entries and tables -/

/-- An entry that can stand in the file of a module with so many instructions. -/
structure FunctionEntry.Fits (instructions : Nat) (f : FunctionEntry) : Prop where
  short : f.Short
  unframed : f.reservation = 0
  inside : ∀ a, f.address = some a → a ≠ externalAddress ∧ a.toNat < instructions

/-- An entry that fits is told from its stored address. -/
theorem FunctionEntry.Fits.bare_eq {instructions : Nat} {f : FunctionEntry}
    (h : f.Fits instructions) :
    f.bare = f ∧ (f.storedAddress = externalAddress ∨ f.storedAddress.toNat < instructions) := by
  obtain ⟨name, address, types, reservation⟩ := f
  obtain ⟨-, unframed, inside⟩ := h
  cases unframed
  cases address with
  | none => exact ⟨rfl, .inl rfl⟩
  | some a =>
    obtain ⟨defined, lt⟩ := inside a rfl
    exact ⟨by simp [bare, storedAddress, defined], .inr lt⟩

theorem readFunction_exact (instructions : Nat) :
    Exact (readFunction instructions) FunctionEntry.encode (FunctionEntry.Fits instructions) := by
  constructor
  intro c f c'
  constructor
  · intro h
    simp only [readFunction, except_bind_eq_ok, Prod.exists] at h
    obtain ⟨nameLength, c₁, h₁, typeCount, c₂, h₂, address, c₃, h₃, nameBytes, c₄, h₄, h⟩ := h
    cases named : textOfBytes? nameBytes with
    | none => simp [named, bind, Except.bind] at h
    | some name =>
      simp only [named, except_bind_eq_ok, Except.ok.injEq, exists_eq_left', Prod.exists] at h
      obtain ⟨typeBytes, c₅, h₅, types, h₆, h⟩ := h
      obtain ⟨name_lt, rest₁, offset₁⟩ := (readNat_exact ..).eq_ok_iff.1 h₁
      obtain ⟨types_lt, rest₂, offset₂⟩ := (readNat_exact ..).eq_ok_iff.1 h₂
      obtain ⟨address_lt, rest₃, offset₃⟩ := (readNat_exact ..).eq_ok_iff.1 h₃
      obtain ⟨rfl, rest₄, offset₄⟩ := (readBytes_exact ..).eq_ok_iff.1 h₄
      obtain ⟨rfl, rest₅, offset₅⟩ := (readBytes_exact ..).eq_ok_iff.1 h₅
      obtain rfl := textOfBytes?_eq_some_iff.1 named
      obtain rfl := readTypes_eq_ok_iff.1 h₆
      rw [List.length_map] at types_lt rest₂
      have short (a : Option UInt64) : (FunctionEntry.mk name a types 0).Short :=
        ⟨Nat.le_of_lt_succ name_lt, Nat.le_of_lt_succ types_lt⟩
      -- the file goes on behind the entry, whatever its address is
      have written (a : Option UInt64)
          (stored : (FunctionEntry.mk name a types 0).storedAddress.toNat = address) :
          c.rest = (FunctionEntry.mk name a types 0).encode ++ c₅.rest ∧
            c₅.offset = c.offset + (FunctionEntry.mk name a types 0).encode.length := by
        simp only [FunctionEntry.encode, stored]
        refine ⟨?_, ?_⟩
        · simp [rest₁, rest₂, rest₃, rest₄, rest₅]
        · simp only [id_eq, length_littleEndian, List.length_map] at *
          simp only [List.length_append, length_littleEndian, List.length_map]
          omega
      split at h
      · rename_i external
        cases h
        exact ⟨⟨short none, rfl, fun a h => by cases h⟩, written none external.symm⟩
      · rename_i defined
        split at h
        · rename_i lt
          cases h
          have word : (UInt64.ofNat address).toNat = address :=
            UInt64.toNat_ofNat_of_lt' address_lt
          refine ⟨⟨short _, rfl, ?_⟩, written _ word⟩
          rintro a ⟨⟩
          refine ⟨?_, by rwa [word]⟩
          intro same
          rw [same] at word
          exact defined word.symm
        · cases h
  · rintro ⟨fits, rest, offset⟩
    obtain ⟨rest', offset'⟩ := c'
    obtain ⟨rest₀, offset₀⟩ := c
    simp only at rest offset
    obtain ⟨bare, stored⟩ := fits.bare_eq
    rw [rest, offset, readFunction_encode fits.short, if_pos stored, bare]

/-- Reading one value after another is exact if reading one of them is. -/
theorem readMany_eq_ok_iff {α : Type} {read : Read α} {encode : α → List UInt8} {fit : α → Prop}
    (exact : Exact read encode fit) {count : Nat} {done as : Array α} {c c' : Cursor} :
    readMany read count done c = .ok (as, c') ↔
      ∃ new : List α, as = done ++ new.toArray ∧ new.length = count ∧ (∀ a ∈ new, fit a) ∧
        c.rest = new.flatMap encode ++ c'.rest ∧
          c'.offset = c.offset + (new.flatMap encode).length := by
  induction count generalizing done c with
  | zero =>
    rw [readMany]
    constructor
    · intro h
      cases h
      exact ⟨[], by simp, rfl, by simp, by simp, by simp⟩
    · rintro ⟨new, rfl, length, -, rest, offset⟩
      obtain rfl := List.length_eq_zero_iff.1 length
      obtain ⟨rest', offset'⟩ := c'
      obtain ⟨rest₀, offset₀⟩ := c
      simp_all
  | succ count ih =>
    rw [readMany]
    constructor
    · intro h
      split at h
      · cases h
      · rename_i a c₁ first
        obtain ⟨fits, rest₁, offset₁⟩ := exact.eq_ok_iff.1 first
        obtain ⟨new, rfl, rfl, all, rest, offset⟩ := ih.1 h
        refine ⟨a :: new, by simp, rfl, ?_, ?_, ?_⟩
        · simpa [fits] using all
        · rw [rest₁, rest, List.flatMap_cons, List.append_assoc]
        · rw [offset, offset₁, List.flatMap_cons, List.length_append, Nat.add_assoc]
    · rintro ⟨new, rfl, length, all, rest, offset⟩
      obtain ⟨a, new, rfl⟩ := List.exists_cons_of_length_eq_add_one length
      rw [List.flatMap_cons, List.append_assoc] at rest
      rw [List.flatMap_cons, List.length_append, ← Nat.add_assoc] at offset
      have first : read c = .ok (a, ⟨new.flatMap encode ++ c'.rest,
          c.offset + (encode a).length⟩) :=
        exact.eq_ok_iff.2 ⟨all a (by simp), rest, rfl⟩
      rw [first]
      refine ih.2 ⟨new, by simp, by simpa using length, ?_, rfl, offset⟩
      intro b mem
      exact all b (by simp [mem])

theorem readMany_exact {α : Type} {read : Read α} {encode : α → List UInt8} {fit : α → Prop}
    (exact : Exact read encode fit) (count : Nat) :
    Exact (readMany read count #[]) (fun as => as.toList.flatMap encode)
      (fun as => as.size = count ∧ ∀ a ∈ as, fit a) := by
  constructor
  intro c as c'
  rw [readMany_eq_ok_iff exact]
  constructor
  · rintro ⟨new, rfl, length, all, rest, offset⟩
    exact ⟨⟨by simpa using length, by simpa using all⟩, by simpa using rest, by simpa using offset⟩
  · rintro ⟨⟨size, all⟩, rest, offset⟩
    exact ⟨as.toList, by simp, by simpa using size, by simpa using all, rest, offset⟩

theorem Opcode.ofByte?_eq_none_iff {b : UInt8} : ofByte? b = none ↔ ¬ b < 16 := by
  rw [ofByte?, List.getElem?_eq_none_iff, UInt8.lt_iff_toNat_lt, Nat.not_lt]
  rfl

/-- Whole instructions are read if and only if all of them have opcodes. -/
theorem readCode_eq_ok_iff {count address : Nat} {done code : Array Instruction}
    {bytes : List UInt8} (length : bytes.length = 4 * count) :
    readCode address done bytes = .ok code ↔
      ∃ new : List Instruction, code = done ++ new.toArray ∧ (∀ i ∈ new, i.opcode < 16) ∧
        bytes = encodeCode new := by
  induction count generalizing address done bytes with
  | zero =>
    obtain rfl := List.length_eq_zero_iff.1 length
    constructor
    · intro h
      cases h
      exact ⟨[], by simp, by simp, rfl⟩
    · rintro ⟨new, rfl, -, written⟩
      cases new with
      | nil => simp [readCode]
      | cons i new => simp [encodeCode, Instruction.toBytes] at written
  | succ count ih =>
    have long : ∃ opcode a b c rest, bytes = opcode :: a :: b :: c :: rest := by
      rcases bytes with _ | ⟨opcode, _ | ⟨a, _ | ⟨b, _ | ⟨c, rest⟩⟩⟩⟩
      all_goals simp only [List.length_cons, List.length_nil] at length
      · omega
      · omega
      · omega
      · omega
      · exact ⟨opcode, a, b, c, rest, rfl⟩
    obtain ⟨opcode, a, b, c, rest, rfl⟩ := long
    have length' : rest.length = 4 * count := by
      simp only [List.length_cons] at length
      omega
    rw [readCode]
    by_cases known : opcode < 16
    · have := Opcode.ofByte?_eq_none_iff.not_left.2 known
      obtain ⟨op, hop⟩ := Option.ne_none_iff_exists'.1 this
      rw [hop]
      simp only [ih length']
      constructor
      · rintro ⟨new, rfl, all, written⟩
        refine ⟨⟨opcode, a, b, c⟩ :: new, by simp, ?_, ?_⟩
        · simpa [known] using all
        · rw [written]
          rfl
      · rintro ⟨new, rfl, all, written⟩
        cases new with
        | nil => simp [encodeCode] at written
        | cons i new =>
          obtain ⟨rfl, rfl, rfl, rfl, rfl⟩ : opcode = i.opcode ∧ a = i.a ∧ b = i.b ∧ c = i.c ∧
              rest = encodeCode new := by
            simpa [encodeCode, Instruction.toBytes] using written
          exact ⟨new, by simp, fun j mem => all j (by simp [mem]), rfl⟩
    · rw [Opcode.ofByte?_eq_none_iff.2 known]
      constructor
      · intro h
        cases h
      · rintro ⟨new, rfl, all, written⟩
        cases new with
        | nil => simp [encodeCode] at written
        | cons i new =>
          have first : opcode = i.opcode := by
            simp only [encodeCode, List.flatMap_cons, Instruction.toBytes, List.cons_append,
              List.cons.injEq] at written
            exact written.1
          exact absurd (first ▸ all i (by simp)) known

/-! ## Modules -/

/-- Parts that make up a module file: entries without frame sizes, within the lengths that the
fields of the file can hold, and code that has an opcode everywhere and holds all definitions. -/
structure FileParts (functions : Array FunctionEntry) (constants : Array UInt64)
    (code : Array Instruction) : Prop where
  constants_le : constants.size ≤ 65535
  functions_le : functions.size ≤ 2 ^ 24
  /-- Instructions are counted with a machine word. -/
  code_lt : code.size < UInt64.size
  unframed : ∀ f ∈ functions, f.reservation = 0
  short : ∀ f ∈ functions, f.Short
  opcode_lt : ∀ i ∈ code, i.opcode < 16
  address_lt : ∀ f ∈ functions, ∀ a, f.address = some a → a.toNat < code.size

/-- The module has the given name and is made of parts that a module file can hold. -/
def Module.WellFormed (name : String) (m : Module) : Prop :=
  ∃ functions constants code, FileParts functions constants code ∧
    m = .ofParts name functions constants code

theorem FileParts.fits {functions : Array FunctionEntry} {constants : Array UInt64}
    {code : Array Instruction} (h : FileParts functions constants code) {f : FunctionEntry}
    (mem : f ∈ functions) : f.Fits code.size := by
  refine ⟨h.short f mem, h.unframed f mem, ?_⟩
  intro a ha
  have lt := h.address_lt f mem a ha
  refine ⟨?_, lt⟩
  rintro rfl
  have := h.code_lt
  simp only [externalAddress, UInt64.reduceToNat] at lt
  unfold UInt64.size at this
  omega

theorem FileParts.constants_lt {functions : Array FunctionEntry} {constants : Array UInt64}
    {code : Array Instruction} (h : FileParts functions constants code) :
    constants.size < 256 ^ 2 := Nat.lt_succ_of_le h.constants_le

theorem FileParts.functions_lt {functions : Array FunctionEntry} {constants : Array UInt64}
    {code : Array Instruction} (h : FileParts functions constants code) :
    functions.size < 256 ^ 4 := Nat.lt_of_le_of_lt h.functions_le (by decide)

theorem words_lt (constants : Array UInt64) : ∀ n ∈ constants.map UInt64.toNat, n < 256 ^ 8 := by
  intro n mem
  obtain ⟨word, -, rfl⟩ := Array.mem_map.1 mem
  exact word.toNat_lt

/-- The fields of a file, one behind the other. -/
theorem encodeParts_append (functions : Array FunctionEntry) (constants : Array UInt64)
    (code : Array Instruction) (extra : List UInt8) :
    encodeParts functions.toList constants.toList code.toList ++ extra =
      id magic ++ (littleEndian 2 constants.size ++ (littleEndian 4 functions.size ++
        (littleEndian 8 code.size ++ (functions.toList.flatMap FunctionEntry.encode ++
          ((constants.map UInt64.toNat).toList.flatMap (littleEndian 8) ++
            (id (encodeCode code.toList) ++ extra)))))) := by
  simp [encodeParts, encodeHeader, encodeFunctions, encodeConstants, List.flatMap_map]

/-- The function table in a file does not tell frame sizes. -/
theorem encodeFunctions_ofParts (name : String) (functions : Array FunctionEntry)
    (constants : Array UInt64) (code : Array Instruction) :
    encodeFunctions (Module.ofParts name functions constants code).functions.toList =
      encodeFunctions functions.toList := by
  simp only [Module.ofParts_eq, encodeFunctions, Array.toList_map, List.flatMap_map]
  congr 1
  funext f
  unfold FunctionEntry.measured
  split <;> rfl

theorem Module.encode_ofParts (name : String) (functions : Array FunctionEntry)
    (constants : Array UInt64) (code : Array Instruction) :
    (Module.ofParts name functions constants code).encode =
      encodeParts functions.toList constants.toList code.toList := by
  rw [Module.encode, encodeParts, encodeParts, encodeFunctions_ofParts]
  simp [Module.ofParts_eq]

/-- What is written from parts that fit is read as the module that they make up, and what comes
behind it is noticed. -/
theorem FileParts.decode_append {functions : Array FunctionEntry} {constants : Array UInt64}
    {code : Array Instruction} (parts : FileParts functions constants code) (name : String)
    (extra : List UInt8) :
    Module.decode name (encodeParts functions.toList constants.toList code.toList ++ extra) =
      if extra = [] then .ok (.ofParts name functions constants code)
      else .error (.trailingBytes extra.length) := by
  have length : (encodeCode code.toList).length = 4 * code.size := by
    rw [length_encodeCode, Array.length_toList]
  have opcodes : readCode 0 #[] (encodeCode code.toList) = .ok code :=
    (readCode_eq_ok_iff length).2
      ⟨code.toList, by simp, fun i mem => parts.opcode_lt i (by simpa using mem), rfl⟩
  have two : magic.length = 2 := rfl
  have few : ¬ maxFunctions < functions.size := Nat.not_lt.2 parts.functions_le
  rw [encodeParts_append, Module.decode]
  dsimp only
  rw [(readBytes_exact ..).bind_append two, if_neg (not_not.2 rfl),
    (readNat_exact ..).bind_append parts.constants_lt]
  dsimp only
  rw [(readNat_exact ..).bind_append parts.functions_lt]
  dsimp only
  rw [(readNat_exact ..).bind_append parts.code_lt, if_neg few]
  dsimp only
  rw [(readMany_exact (readFunction_exact _) _).bind_append ⟨rfl, fun f mem => parts.fits mem⟩]
  dsimp only
  rw [(readMany_exact (readNat_exact ..) _).bind_append ⟨Array.size_map, words_lt constants⟩]
  dsimp only
  rw [(readBytes_exact ..).bind_append length, id_eq, opcodes]
  by_cases empty : extra = []
  · simp [empty, Function.comp_def, bind, Except.bind, pure, Except.pure]
  · simp [empty, bind, Except.bind, throw, throwThe, MonadExceptOf.throw]

theorem FileParts.decode_eq {functions : Array FunctionEntry} {constants : Array UInt64}
    {code : Array Instruction} (parts : FileParts functions constants code) (name : String) :
    Module.decode name (encodeParts functions.toList constants.toList code.toList) =
      .ok (.ofParts name functions constants code) := by
  simpa using parts.decode_append name []

/-- What can be read was written from parts that fit. -/
theorem FileParts.of_decode {name : String} {bytes : List UInt8} {m : Module}
    (h : Module.decode name bytes = .ok m) : ∃ functions constants code,
      FileParts functions constants code ∧ m = .ofParts name functions constants code ∧
        bytes = encodeParts functions.toList constants.toList code.toList := by
  simp only [Module.decode, except_bind_eq_ok, check_eq_ok, Prod.exists, ne_eq, not_not] at h
  obtain ⟨_, c₁, h₁, rfl, numConstants, c₂, h₂, numFunctions, c₃, h₃, numInstructions, c₄, h₄,
    few, functions, c₅, h₅, words, c₆, h₆, codeBytes, c₇, h₇, code, h₈, empty, heq⟩ := h
  cases heq
  obtain ⟨-, rest₁, -⟩ := (readBytes_exact ..).eq_ok_iff.1 h₁
  obtain ⟨constants_lt, rest₂, -⟩ := (readNat_exact ..).eq_ok_iff.1 h₂
  obtain ⟨-, rest₃, -⟩ := (readNat_exact ..).eq_ok_iff.1 h₃
  obtain ⟨code_lt, rest₄, -⟩ := (readNat_exact ..).eq_ok_iff.1 h₄
  obtain ⟨⟨rfl, fits⟩, rest₅, -⟩ := (readMany_exact (readFunction_exact _) _).eq_ok_iff.1 h₅
  obtain ⟨⟨rfl, words_lt⟩, rest₆, -⟩ := (readMany_exact (readNat_exact ..) _).eq_ok_iff.1 h₆
  obtain ⟨length, rest₇, -⟩ := (readBytes_exact ..).eq_ok_iff.1 h₇
  obtain ⟨is, rfl, opcodes, rfl⟩ := (readCode_eq_ok_iff length).1 h₈
  obtain rfl : is.length = numInstructions := by
    rw [length_encodeCode] at length
    omega
  refine ⟨functions, words.map .ofNat, is.toArray, ?_, by simp, ?_⟩
  · refine ⟨?_, Nat.le_of_not_lt few, code_lt, ?_, ?_, ?_, ?_⟩
    · rw [Array.size_map]
      exact Nat.le_of_lt_succ constants_lt
    · exact fun f mem => (fits f mem).unframed
    · exact fun f mem => (fits f mem).short
    · exact fun i mem => opcodes i (by simpa using mem)
    · exact fun f mem a ha => ((fits f mem).inside a ha).2
  · -- each constant is the word of the number that was read for it
    have stored : encodeConstants (words.toList.map .ofNat) =
        words.toList.flatMap (littleEndian 8) := by
      rw [encodeConstants, List.flatMap_map]
      apply List.flatMap_congr
      intro n mem
      rw [UInt64.toNat_ofNat_of_lt' (words_lt n (by simpa using mem))]
    simp only [id_eq] at rest₁ rest₇
    rw [rest₁, rest₂, rest₃, rest₄, rest₅, rest₆, rest₇, empty]
    simp [encodeParts, encodeHeader, encodeFunctions, stored]

/-- Writing and reading are inverse to each other: the bytes that can be read are the files of
well-formed modules, and each of them is read as the one module whose file it is. -/
theorem Module.decode_eq_ok_iff (name : String) (bytes : List UInt8) (m : Module) :
    Module.decode name bytes = .ok m ↔ m.WellFormed name ∧ m.encode = bytes := by
  constructor
  · intro h
    obtain ⟨functions, constants, code, parts, rfl, rfl⟩ := FileParts.of_decode h
    exact ⟨⟨functions, constants, code, parts, rfl⟩, encode_ofParts ..⟩
  · rintro ⟨⟨functions, constants, code, parts, rfl⟩, rfl⟩
    rw [encode_ofParts]
    exact parts.decode_eq name

end RegLisp
