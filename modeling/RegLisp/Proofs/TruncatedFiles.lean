import RegLisp.Proofs.ModuleFormat

/-!
# Truncated module files

No module file is the beginning of another one. A file that is cut off anywhere is reported as
truncated in the first of its parts that is not whole, and none of the checks between the fields
of the file comes before that. Anything behind a whole file is reported by its length.
-/

namespace RegLisp

/-! ## Readers at the end of a file -/

/-- The file was found to end inside the given part, at a field that starts within the limit. -/
def TruncatedIn (part : FilePart) (limit : Nat) {α : Type} (outcome : Except LoadError α) : Prop :=
  ∃ offset ≤ limit, outcome = .error (.truncated part offset)

/-- The reader notices if a file ends inside what is written for a value that fits. -/
structure Cut (part : FilePart) {α : Type} (read : Read α) (encode : α → List UInt8)
    (fit : α → Prop) : Prop where
  truncated {a : α} (fits : fit a) {n : Nat} (lt : n < (encode a).length) (offset : Nat) :
    TruncatedIn part (offset + n) (read ⟨(encode a).take n, offset⟩)

/-- A file that ends `n` bytes behind a field's start: either it ends inside the field, or the field
is read and the file ends behind it. -/
theorem Cut.bind {part : FilePart} {α β : Type} {read : Read α} {encode : α → List UInt8}
    {fit : α → Prop} (cut : Cut part read encode fit) (exact : Exact read encode fit) {a : α}
    (fits : fit a) {rest : List UInt8} {offset n limit : Nat} (ends : offset + n = limit)
    {whole : FilePart} {next : α × Cursor → Except LoadError β}
    (inside : n < (encode a).length → part = whole)
    (behind : (encode a).length ≤ n → TruncatedIn whole limit
      (next (a, ⟨rest.take (n - (encode a).length), offset + (encode a).length⟩))) :
    TruncatedIn whole limit (read ⟨(encode a ++ rest).take n, offset⟩ >>= next) := by
  by_cases lt : n < (encode a).length
  · obtain ⟨place, le, error⟩ := cut.truncated fits lt offset
    rw [List.take_append_of_le_length lt.le, error, ← inside lt, ← ends]
    exact ⟨place, le, rfl⟩
  · have le := Nat.le_of_not_lt lt
    rw [List.take_append, List.take_of_length_le le, exact.read_append fits]
    exact behind le

theorem readBytes_cut (part : FilePart) (count : Nat) :
    Cut part (readBytes part count) id (·.length = count) := by
  constructor
  intro bytes length n lt offset
  refine ⟨offset, Nat.le_add_right _ _, ?_⟩
  simp only [id_eq] at lt
  simp only [readBytes, id_eq, List.length_take]
  rw [if_neg (by omega)]

theorem readNat_cut (part : FilePart) (width : Nat) :
    Cut part (readNat part width) (littleEndian width) (· < 256 ^ width) := by
  constructor
  intro value _ n lt offset
  obtain ⟨place, le, error⟩ := (readBytes_cut part width).truncated
    (length_littleEndian width value) lt offset
  exact ⟨place, le, by rw [readNat, ← id_eq (littleEndian width value), error]; rfl⟩

/-- The checks of an entry come behind its fields, or behind the field that they are about. -/
theorem readFunction_cut (instructions : Nat) :
    Cut .functionTable (readFunction instructions) FunctionEntry.encode
      (FunctionEntry.Fits instructions) := by
  constructor
  intro f fits n lt offset
  have name_lt : (textBytes f.name).length < 256 ^ 1 := Nat.lt_succ_of_le fits.short.name_le
  have types_lt : f.types.length < 256 ^ 1 := Nat.lt_succ_of_le fits.short.types_le
  have types_length : (f.types.map ValueType.toByte).length = f.types.length := List.length_map _
  have fields : f.encode = littleEndian 1 (textBytes f.name).length ++
      (littleEndian 1 f.types.length ++ (littleEndian 8 f.storedAddress.toNat ++
        (id (textBytes f.name) ++ (id (f.types.map ValueType.toByte) ++ [])))) := by
    simp [FunctionEntry.encode]
  rw [fields, readFunction]
  simp only [fields, List.length_append, List.length_nil] at lt
  refine (readNat_cut ..).bind (readNat_exact ..) name_lt rfl (fun _ => rfl) fun le₁ => ?_
  refine (readNat_cut ..).bind (readNat_exact ..) types_lt (by omega) (fun _ => rfl) fun le₂ => ?_
  refine (readNat_cut ..).bind (readNat_exact ..) f.storedAddress.toNat_lt (by omega) (fun _ => rfl)
    fun le₃ => ?_
  refine (readBytes_cut ..).bind (readBytes_exact ..) rfl (by omega) (fun _ => rfl) fun le₄ => ?_
  simp only [textOfBytes?_textBytes]
  refine (readBytes_cut ..).bind (readBytes_exact ..) types_length (by omega) (fun _ => rfl)
    fun le₅ => ?_
  omega

theorem readMany_succ {α : Type} (read : Read α) (count : Nat) (done : Array α) (c : Cursor) :
    readMany read (count + 1) done c =
      (read c >>= fun r => readMany read count (done.push r.1) r.2) := by
  rw [readMany]
  cases read c <;> rfl

theorem readMany_cut {part : FilePart} {α : Type} {read : Read α} {encode : α → List UInt8}
    {fit : α → Prop} (cut : Cut part read encode fit) (exact : Exact read encode fit)
    (count : Nat) :
    Cut part (readMany read count #[]) (fun as => as.toList.flatMap encode)
      (fun as => as.size = count ∧ ∀ a ∈ as, fit a) := by
  constructor
  rintro ⟨as⟩ ⟨rfl, all⟩ n lt offset
  simp only [List.size_toArray, List.mem_toArray] at all lt ⊢
  generalize (#[] : Array α) = done
  -- the file ends inside the first value, or inside one of those behind it
  induction as generalizing n offset done with
  | nil => exact absurd lt (Nat.not_lt_zero n)
  | cons a as ih =>
    rw [List.flatMap_cons, List.length_append] at lt
    rw [List.flatMap_cons, List.length_cons, readMany_succ]
    refine cut.bind exact (all a (by simp)) rfl (fun _ => rfl) fun le => ?_
    have ends : offset + (encode a).length + (n - (encode a).length) = offset + n := by omega
    rw [← ends]
    exact ih (by omega) _ (fun b mem => all b (by simp [mem])) _

/-! ## Files that are cut off -/

/-- The parts of a module file and their bytes, in order. -/
def partBytes (functions : List FunctionEntry) (constants : List UInt64)
    (code : List Instruction) : List (FilePart × List UInt8) :=
  [(.header, encodeHeader constants.length functions.length code.length),
    (.functionTable, encodeFunctions functions),
    (.constantPool, encodeConstants constants),
    (.instructions, encodeCode code)]

/-- The first of the parts that is not wholly among the first `n` bytes. -/
def firstCut : List (FilePart × List UInt8) → Nat → Option FilePart
  | [], _ => none
  | (part, bytes) :: parts, n =>
    if n < bytes.length then some part else firstCut parts (n - bytes.length)

theorem flatMap_partBytes (functions : List FunctionEntry) (constants : List UInt64)
    (code : List Instruction) :
    (partBytes functions constants code).flatMap Prod.snd =
      encodeParts functions constants code := by
  simp [partBytes, encodeParts]

theorem exists_firstCut {parts : List (FilePart × List UInt8)} {n : Nat}
    (lt : n < (parts.flatMap Prod.snd).length) : ∃ part, firstCut parts n = some part := by
  induction parts generalizing n with
  | nil => exact absurd lt (Nat.not_lt_zero n)
  | cons p parts ih =>
    rw [List.flatMap_cons, List.length_append] at lt
    rw [firstCut]
    split
    · exact ⟨p.1, rfl⟩
    · exact ih (by omega)

/-- A file that ends early is truncated in the first part that is not whole. -/
theorem FileParts.decode_take {functions : Array FunctionEntry} {constants : Array UInt64}
    {code : Array Instruction} (parts : FileParts functions constants code) (name : String)
    {n : Nat} {part : FilePart}
    (first : firstCut (partBytes functions.toList constants.toList code.toList) n = some part) :
    TruncatedIn part n (Module.decode name
      ((encodeParts functions.toList constants.toList code.toList).take n)) := by
  have two : magic.length = 2 := rfl
  have magic_length : (id magic).length = 2 := rfl
  have few : ¬ maxFunctions < functions.size := Nat.not_lt.2 parts.functions_le
  have code_length : (encodeCode code.toList).length = 4 * code.size := by
    rw [length_encodeCode, Array.length_toList]
  have constants_length := length_littleEndian 2 constants.size
  have functions_length := length_littleEndian 4 functions.size
  have instructions_length := length_littleEndian 8 code.size
  have header : (encodeHeader constants.toList.length functions.toList.length
      code.toList.length).length = 16 := by
    simp [encodeHeader, magic]
  have table : encodeFunctions functions.toList =
      functions.toList.flatMap FunctionEntry.encode := rfl
  have pool : encodeConstants constants.toList =
      (constants.map UInt64.toNat).toList.flatMap (littleEndian 8) := by
    simp [encodeConstants, List.flatMap_map]
  simp only [partBytes, firstCut, header, table, pool] at first
  rw [← List.append_nil (encodeParts _ _ _), encodeParts_append, Module.decode]
  have inHeader (lt : n < 16) : .header = part := by
    rw [if_pos lt] at first
    exact Option.some.inj first
  refine (readBytes_cut ..).bind (readBytes_exact ..) two (Nat.zero_add n)
    (fun lt => inHeader (by omega)) fun le₁ => ?_
  dsimp only
  rw [if_neg (not_not.2 rfl)]
  refine (readNat_cut ..).bind (readNat_exact ..) parts.constants_lt (by omega)
    (fun lt => inHeader (by omega)) fun le₂ => ?_
  refine (readNat_cut ..).bind (readNat_exact ..) parts.functions_lt (by omega)
    (fun lt => inHeader (by omega)) fun le₃ => ?_
  refine (readNat_cut ..).bind (readNat_exact ..) parts.code_lt (by omega)
    (fun lt => inHeader (by omega)) fun le₄ => ?_
  dsimp only
  rw [if_neg few]
  -- from here on each read is a whole part, and `first` passes over the part along with it
  rw [if_neg (by omega)] at first
  refine (readMany_cut (readFunction_cut _) (readFunction_exact _) _).bind
    (readMany_exact (readFunction_exact _) _) ⟨rfl, fun f mem => parts.fits mem⟩ (by omega)
    (fun lt => ?_) fun le₅ => ?_
  · rw [if_pos (by omega)] at first
    exact Option.some.inj first
  rw [if_neg (by omega)] at first
  refine (readMany_cut (readNat_cut ..) (readNat_exact ..) _).bind
    (readMany_exact (readNat_exact ..) _) ⟨Array.size_map, words_lt constants⟩ (by omega)
    (fun lt => ?_) fun le₆ => ?_
  · rw [if_pos (by omega)] at first
    exact Option.some.inj first
  rw [if_neg (by omega)] at first
  refine (readBytes_cut ..).bind (readBytes_exact ..) code_length (by omega) (fun lt => ?_)
    fun le₇ => ?_
  · rw [if_pos (by simp only [id_eq] at lt; omega)] at first
    exact Option.some.inj first
  · rw [if_neg (by simp only [id_eq] at le₇; omega)] at first
    cases first

/-- The parts of the file of a module and their bytes. -/
def Module.partBytes (m : Module) : List (FilePart × List UInt8) :=
  RegLisp.partBytes m.functions.toList m.constants.toList m.code.toList

theorem Module.partBytes_ofParts (name : String) (functions : Array FunctionEntry)
    (constants : Array UInt64) (code : Array Instruction) :
    (Module.ofParts name functions constants code).partBytes =
      RegLisp.partBytes functions.toList constants.toList code.toList := by
  rw [Module.partBytes, RegLisp.partBytes, encodeFunctions_ofParts]
  simp [RegLisp.partBytes, Module.ofParts_eq]

/-- If a file can be read, nothing shorter than it and nothing longer can: where it ends early, it
is truncated in the first part that is not whole, and whatever comes behind it is counted. -/
theorem Module.decode_alone {name : String} {bytes : List UInt8} {m : Module}
    (h : Module.decode name bytes = .ok m) :
    m.partBytes.flatMap Prod.snd = bytes ∧
      (∀ front, front <+: bytes → front ≠ bytes → ∃ part offset,
        firstCut m.partBytes front.length = some part ∧ offset ≤ front.length ∧
          Module.decode name front = .error (.truncated part offset)) ∧
      ∀ extra, extra ≠ [] →
        Module.decode name (bytes ++ extra) = .error (.trailingBytes extra.length) := by
  obtain ⟨functions, constants, code, parts, rfl, rfl⟩ := FileParts.of_decode h
  rw [Module.partBytes_ofParts]
  have whole := flatMap_partBytes functions.toList constants.toList code.toList
  refine ⟨whole, ?_, ?_⟩
  · intro front initial strict
    have lt : front.length < (encodeParts functions.toList constants.toList code.toList).length :=
      Nat.lt_of_le_of_ne initial.length_le fun eq => strict (initial.eq_of_length eq)
    rw [← whole] at lt
    obtain ⟨part, first⟩ := exists_firstCut lt
    obtain ⟨offset, le, error⟩ := parts.decode_take name first
    rw [← List.prefix_iff_eq_take.1 initial] at error
    exact ⟨part, offset, first, le, error⟩
  · intro extra some
    rw [parts.decode_append, if_neg some]

/-- A module with one function, one constant and two instructions. -/
def tiny : Module :=
  .ofParts "tiny" #[⟨"f", some 1, [.int], 0⟩] #[7] #[⟨15, 0, 0, 0⟩, ⟨5, 0, 0, 0⟩]

theorem Module.decode_alone_tiny :
    Module.decode "tiny" tiny.encode = .ok tiny ∧ tiny.encode.length = 44 ∧
      (∃ offset ≤ 27, Module.decode "tiny" (tiny.encode.take 27) =
        .error (.truncated .functionTable offset)) ∧
      Module.decode "tiny" (tiny.encode ++ [0, 0]) = .error (.trailingBytes 2) := by
  have read : Module.decode "tiny" tiny.encode = .ok tiny := by decide +kernel
  have ⟨_, short, long⟩ := Module.decode_alone read
  obtain ⟨part, offset, first, le, error⟩ :=
    short (tiny.encode.take 27) ( List.take_prefix ..) (by decide +kernel)
  have length : (tiny.encode.take 27).length = 27 := by decide +kernel
  have table : firstCut tiny.partBytes 27 = some .functionTable := by decide +kernel
  rw [length] at first le
  cases first.symm.trans table
  exact ⟨read, by decide +kernel, ⟨offset, le, error⟩, long [0, 0] (by decide)⟩

end RegLisp
