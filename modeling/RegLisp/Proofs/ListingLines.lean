import Mathlib
import RegLisp.Module.Listing
import RegLisp.Proofs.InstructionForms

/-!
# Lines of a listing

A line of a listing can be read back. Its words tell the address, the operation, and every operand
byte that the operation has a use for. What an index stands for is behind them, so it may be any
text, blanks included.
-/

namespace RegLisp

/-! ## Numbers -/

/-- The value of hexadecimal digits. -/
def Text.readHex? (cs : List Char) : Option Nat :=
  cs.foldlM (fun n c => (hexDigit? c).map (16 * n + ·)) 0

theorem Text.hexDigit?_digitChar {d : Nat} (lt : d < 16) : hexDigit? d.digitChar = some d := by
  interval_cases d <;> rfl

theorem Text.readHex?_toDigits (n : Nat) : readHex? (Nat.toDigits 16 n) = some n := by
  induction n using Nat.strongRecOn with
  | ind n ih =>
    by_cases lt : n < 16
    · rw [Nat.toDigits_of_lt_base lt, readHex?, List.foldlM_cons, hexDigit?_digitChar lt]
      simp
    · have ih := ih (n / 16) (by omega)
      rw [readHex?] at ih
      rw [Nat.toDigits_of_base_le (by decide) (by omega), readHex?, List.foldlM_append, ih]
      simp only [List.foldlM_cons, List.foldlM_nil, bind_pure, Option.bind_eq_bind,
        Option.bind_some, hexDigit?_digitChar (Nat.mod_lt n (by decide)), Option.map_some]
      rw [Nat.div_add_mod]

/-- Zeros in front change nothing. -/
theorem Text.readHex?_hex (width n : Nat) : readHex? (hex width n).toList = some n := by
  have zeros (k : Nat) : (List.replicate k '0').foldlM
      (fun n c => (hexDigit? c).map (16 * n + ·)) 0 = some 0 := by
    induction k with
    | zero => rfl
    | succ k ih => rwa [List.replicate_succ, List.foldlM_cons]
  rw [hex, String.toList_ofList, readHex?, List.foldlM_append, zeros]
  exact readHex?_toDigits n

theorem Text.blank_notMem_hex (width n : Nat) : ' ' ∉ (hex width n).toList := by
  suffices ∀ (cs : List Char) (start : Nat), ' ' ∈ cs →
      cs.foldlM (fun n c => (hexDigit? c).map (16 * n + ·)) start = none by
    intro mem
    have read := readHex?_hex width n
    rw [readHex?, this _ 0 mem] at read
    cases read
  intro cs start mem
  induction cs generalizing start with
  | nil => cases mem
  | cons c cs ih =>
    rw [List.foldlM_cons]
    obtain rfl | mem := List.mem_cons.1 mem
    · rfl
    · cases (hexDigit? c).map (16 * start + ·) with
      | none => rfl
      | some n => exact ih n mem

theorem digit_ne_blank {n : Nat} {c : Char} (mem : c ∈ Nat.toDigits 10 n) : c ≠ ' ' := by
  rintro rfl
  have := Nat.isDigit_of_mem_toDigits (by decide) (by decide) mem
  contradiction

/-! ## Words -/

/-- A reader takes what it reads from the front of a text. -/
abbrev LineReader := StateT (List Char) Option

/-- One reader after another. -/
theorem LineReader.bind_eq {α β : Type} {x : LineReader α} {f : α → LineReader β} {a : α}
    {cs cs' : List Char} (h : x cs = some (a, cs')) : (x >>= f) cs = f a cs' := by
  simp only [bind, StateT.bind, h, Option.bind_some]

theorem LineReader.lift_bind_eq {α β : Type} {x : Option α} {f : α → LineReader β} {a : α}
    {cs : List Char} (h : x = some a) : ((liftM x : LineReader α) >>= f) cs = f a cs := by
  rw [h]
  rfl

/-- The second reader is not asked where the first one reads. -/
theorem LineReader.orElse_eq {α : Type} {x y : LineReader α} {cs : List Char}
    {r : α × List Char} (h : x cs = some r) : (x <|> y) cs = some r := by
  change (x cs <|> y cs) = some r
  rw [h]
  rfl

/-- A blank and the word behind it. -/
def readWord : LineReader (List Char)
  | ' ' :: cs => some (cs.takeWhile (· ≠ ' '), cs.dropWhile (· ≠ ' '))
  | _ => none

/-- A word that is a mark and a number, with or without a comma behind them. -/
def readOperand : LineReader (Char × Nat) := do
  match ← readWord with
  | mark :: digits => return (mark, Nat.ofDigitChars 10 (digits.takeWhile Char.isDigit) 0)
  | [] => failure

/-- The text does not go on with the word in front of it. -/
def EndsWord (cs : List Char) : Prop := ∀ c ∈ cs.head?, c = ' '

theorem readWord_append {word cs : List Char} (blank : ' ' ∉ word) (ends : EndsWord cs) :
    readWord (' ' :: (word ++ cs)) = some (word, cs) := by
  have word_ne : ∀ c ∈ word, decide (c ≠ ' ') = true := by
    intro c mem
    rw [decide_eq_true_eq]
    rintro rfl
    exact blank mem
  have stops : cs.takeWhile (· ≠ ' ') = [] ∧ cs.dropWhile (· ≠ ' ') = cs := by
    cases cs with
    | nil => exact ⟨rfl, rfl⟩
    | cons c cs =>
      obtain rfl := ends c rfl
      exact ⟨rfl, rfl⟩
  rw [readWord, List.takeWhile_append_of_pos word_ne, List.dropWhile_append_of_pos word_ne,
    stops.1, stops.2, List.append_nil]

theorem readOperand_word {mark : Char} {n : Nat} (tail : List Char) {cs : List Char}
    (marked : mark ≠ ' ')
    (blank : ' ' ∉ tail) (digit : ∀ c ∈ tail.head?, c.isDigit = false) (ends : EndsWord cs) :
    readOperand (' ' :: mark :: (Nat.toDigits 10 n ++ (tail ++ cs))) = some ((mark, n), cs) := by
  have word : readWord (' ' :: ((mark :: (Nat.toDigits 10 n ++ tail)) ++ cs)) =
      some (mark :: (Nat.toDigits 10 n ++ tail), cs) := by
    refine readWord_append ?_ ends
    rw [List.mem_cons, List.mem_append, not_or, not_or]
    exact ⟨marked.symm, fun mem => digit_ne_blank mem rfl, blank⟩
  have digits : ∀ c ∈ Nat.toDigits 10 n, c.isDigit = true :=
    fun c mem => Nat.isDigit_of_mem_toDigits (by decide) (by decide) mem
  have stops : tail.takeWhile Char.isDigit = [] := by
    cases tail with
    | nil => rfl
    | cons c tail => rw [List.takeWhile_cons, digit c rfl]; rfl
  rw [List.cons_append, List.append_assoc] at word
  simp only [readOperand, bind, StateT.bind, word, Option.bind_some]
  rw [List.takeWhile_append_of_pos digits, stops, List.append_nil, Nat.ofDigitChars_ten_toDigits]
  rfl

/-- An operand with others behind it. -/
theorem readOperand_comma {mark : Char} (n : Nat) (cs : List Char) (marked : mark ≠ ' ') :
    readOperand (' ' :: mark :: (Nat.toDigits 10 n ++ ',' :: ' ' :: cs)) =
      some ((mark, n), ' ' :: cs) :=
  readOperand_word [','] marked (by decide) (by simp) (by simp [EndsWord])

/-- The last operand. -/
theorem readOperand_last {mark : Char} (n : Nat) {cs : List Char} (marked : mark ≠ ' ')
    (ends : EndsWord cs) :
    readOperand (' ' :: mark :: (Nat.toDigits 10 n ++ cs)) = some ((mark, n), cs) :=
  readOperand_word [] marked (by simp) (by simp) ends

/-! ## Instructions -/

namespace Instruction

/-- What a listing shows of an instruction: the bytes that its operation has a use for. -/
def shown (i : Instruction) : Instruction :=
  match i.op? with
  | none => ⟨i.opcode, 0, 0, 0⟩
  | some op =>
    match op.shape with
    | .nullary => .nullary op
    | .const => if op = .jmp then { i with a := 0 } else i
    | .ternary | .call | .binary => i

theorem op?_shown (i : Instruction) : i.shown.op? = i.op? := by
  unfold shown
  split
  case h_1 => rfl
  case h_2 op h =>
    split
    case h_1 => rw [op?_nullary, h]
    case h_2 => split <;> rfl
    all_goals rfl

/-- In every state the machine does the same for either instruction. -/
def RunsAs (i j : Instruction) : Prop :=
  i.op? = j.op? ∧ ∀ (img : Image) (limits : Limits) (m : Machine) (op : Opcode),
    j.op? = some op → m.plan img limits op i = m.plan img limits op j

/-- The machine has no use for what a listing leaves out. -/
theorem shown_runsAs (i : Instruction) : i.shown.RunsAs i := by
  refine ⟨i.op?_shown, fun img limits m op h => ?_⟩
  cases op <;> simp only [shown, h, Opcode.shape, reduceCtorEq, if_false, if_true] <;> rfl

end Instruction

/-- The register beside an index; a jump without a test has none. -/
def readRegister (op : Opcode) : LineReader Nat :=
  if op = .jmp then pure 0 else Prod.snd <$> readOperand

/-- The mode of a `mov`: the marks of its registers tell it, unless the byte is no mode and is shown
as a number. -/
def readMode (source destination : Char) : LineReader UInt8 :=
  if source = 'w' then pure MoveMode.fromWindow.toByte
  else if destination = 'w' then pure MoveMode.toWindow.toByte
  else (fun c => UInt8.ofNat c.2) <$> readOperand <|> pure MoveMode.frame.toByte

/-- The operands of an operation. -/
def readOperands (op : Opcode) : LineReader Instruction :=
  match op.shape with
  | .nullary => return .nullary op
  | .ternary => do
    let a ← readOperand
    let b ← readOperand
    let c ← readOperand
    return .ternary op (.ofNat a.2) (.ofNat b.2) (.ofNat c.2)
  | .const => do
    let register ← readRegister op
    let index ← readOperand
    return .const op (.ofNat register) (.ofNat index.2)
  | .call => do
    let index ← readOperand
    return .call op (.ofNat index.2)
  | .binary => do
    let source ← readOperand
    let destination ← readOperand
    let mode ← readMode source.1 destination.1
    return ⟨op.toByte, .ofNat source.2, .ofNat destination.2, mode⟩

/-- The name of an operation and its operands, or a byte that is no opcode. -/
def readInstruction : LineReader Instruction := do
  let name ← readWord
  if name = ['?', '?', '?'] then
    let byte ← readWord
    let opcode ← Text.readHex? (byte.drop 3).dropLast
    return ⟨.ofNat opcode, 0, 0, 0⟩
  else
    let op ← Opcode.all.find? (·.mnemonic.toList = name)
    readOperands op

/-- The address of a line, two blanks and an instruction. -/
def readAddressed : LineReader (Nat × Instruction) := do
  let address ← Text.readHex? (← readWord)
  let _ ← readWord
  let i ← readInstruction
  return (address, i)

/-- The address and the instruction that a line of a listing shows. -/
def readLine? (line : String) : Option (Nat × Instruction) :=
  (readAddressed (' ' :: line.toList)).map Prod.fst

theorem Opcode.find?_mnemonic (op : Opcode) :
    all.find? (·.mnemonic.toList = op.mnemonic.toList) = some op := by
  cases op <;> rfl

theorem Opcode.mnemonic_isWord (op : Opcode) :
    ' ' ∉ op.mnemonic.toList ∧ op.mnemonic.toList ≠ ['?', '?', '?'] := by
  cases op <;> decide

/-- A byte is the opcode of one operation at most. -/
theorem Opcode.eq_toByte_of_ofByte? {b : UInt8} {op : Opcode} (h : ofByte? b = some op) :
    b = op.toByte := by
  have nodup : all.Nodup := by decide
  have inside := (List.getElem?_eq_some_iff.1 h).1
  have same := (List.getElem?_inj inside nodup).1 (h.trans (ofByte?_toByte op).symm)
  exact UInt8.toNat_inj.1 same

theorem MoveMode.eq_toByte_of_ofByte? {b : UInt8} {mode : MoveMode} (h : ofByte? b = some mode) :
    b = mode.toByte := by
  unfold ofByte? at h
  split_ifs at h with h₀ h₁ h₂ <;> cases h <;> assumption

/-- What is said of an index is behind the words of the instruction. -/
theorem Module.endsWord_noteText (m : Module) (i : Instruction) :
    EndsWord (m.noteText i).toList := by
  unfold noteText
  split <;> simp [EndsWord, toString]

theorem readInstruction_mnemonic (op : Opcode) {cs : List Char} (ends : EndsWord cs) :
    readInstruction (' ' :: (op.mnemonic.toList ++ cs)) = readOperands op cs := by
  obtain ⟨blank, known⟩ := op.mnemonic_isWord
  rw [readInstruction, LineReader.bind_eq (readWord_append blank ends), if_neg known,
    op.find?_mnemonic]
  rfl

theorem endsWord_operandText (i : Instruction) (op : Opcode) {cs : List Char}
    (ends : EndsWord cs) : EndsWord ((i.operandText op).toList ++ cs) := by
  unfold Instruction.operandText
  split
  case h_1 => exact ends
  case h_3 => split <;> simp [EndsWord, toString]
  all_goals simp [EndsWord, toString]

theorem readOperands_registers {op : Opcode} (shape : op.shape = .binary)
    {source destination : Char} {a b mode : UInt8} {rest cs : List Char} (marked : source ≠ ' ')
    (second : readOperand (' ' :: destination :: (Nat.toDigits 10 b.toNat ++ rest)) =
      some ((destination, b.toNat), cs))
    (last : readMode source destination cs = some (mode, [])) :
    readOperands op (' ' :: source :: (Nat.toDigits 10 a.toNat ++ ',' :: ' ' :: destination ::
      (Nat.toDigits 10 b.toNat ++ rest))) = some (⟨op.toByte, a, b, mode⟩, []) := by
  rw [readOperands, shape]
  simp only
  rw [LineReader.bind_eq (readOperand_comma _ _ marked), LineReader.bind_eq second,
    LineReader.bind_eq last, UInt8.ofNat_toNat, UInt8.ofNat_toNat]
  rfl

theorem readMode_number (c : UInt8) :
    readMode 'r' 'r' (' ' :: '?' :: (Nat.toDigits 10 c.toNat ++ [])) = some (c, []) := by
  have number : readOperand (' ' :: '?' :: (Nat.toDigits 10 c.toNat ++ [])) =
      some (('?', c.toNat), []) := readOperand_last _ (by decide) (by simp [EndsWord])
  have mapped : ((fun c => UInt8.ofNat c.2) <$> readOperand : LineReader UInt8)
      (' ' :: '?' :: (Nat.toDigits 10 c.toNat ++ [])) = some (c, []) := by
    rw [map_eq_pure_bind, LineReader.bind_eq number, UInt8.ofNat_toNat]
    rfl
  exact LineReader.orElse_eq mapped

theorem readOperands_moveText (i : Instruction) {op : Opcode} (shape : op.shape = .binary) :
    readOperands op (' ' :: i.moveText.toList) = some (⟨op.toByte, i.a, i.b, i.c⟩, []) := by
  have ends : EndsWord [] := by simp [EndsWord]
  have marked (source destination : Char) (hs : source ≠ ' ') (hd : destination ≠ ' ')
      (text : i.moveText.toList = source :: (Nat.toDigits 10 i.a.toNat ++ ',' :: ' ' ::
        destination :: (Nat.toDigits 10 i.b.toNat ++ [])))
      (last : readMode source destination [] = some (i.c, [])) :
      readOperands op (' ' :: i.moveText.toList) = some (⟨op.toByte, i.a, i.b, i.c⟩, []) := by
    rw [text]
    exact readOperands_registers shape hs (readOperand_last _ hd ends) last
  cases mode : i.moveMode? with
  | none =>
    have text : i.moveText.toList = 'r' :: (Nat.toDigits 10 i.a.toNat ++ ',' :: ' ' :: 'r' ::
        (Nat.toDigits 10 i.b.toNat ++ ',' :: ' ' :: '?' :: (Nat.toDigits 10 i.c.toNat ++ []))) := by
      simp [Instruction.moveText, mode, toString]
    rw [text]
    exact readOperands_registers shape (by decide) (readOperand_comma _ _ (by decide))
      (readMode_number i.c)
  | some known =>
    have byte : i.c = known.toByte := MoveMode.eq_toByte_of_ofByte? mode
    cases known with
    | frame =>
      refine marked 'r' 'r' (by decide) (by decide) ?_ (by rw [byte]; rfl)
      simp [Instruction.moveText, mode, toString]
    | toWindow =>
      refine marked 'r' 'w' (by decide) (by decide) ?_ (by rw [byte]; rfl)
      simp [Instruction.moveText, mode, toString]
    | fromWindow =>
      refine marked 'w' 'r' (by decide) (by decide) ?_ (by rw [byte]; rfl)
      simp [Instruction.moveText, mode, toString]

theorem readOperands_const (i : Instruction) {op : Opcode} (shape : op.shape = .const)
    {cs : List Char} (ends : EndsWord cs) :
    readOperands op ((i.operandText op).toList ++ cs) =
      some (⟨op.toByte, if op = .jmp then 0 else i.a, i.b, i.c⟩, cs) := by
  by_cases jump : op = .jmp
  · have text : (i.operandText op).toList ++ cs =
        ' ' :: '#' :: (Nat.toDigits 10 i.constIndex ++ cs) := by
      simp only [Instruction.operandText, shape, if_pos jump]
      simp [toString]
    rw [text, readOperands, shape]
    simp only [if_pos jump]
    rw [readRegister, if_pos jump, pure_bind,
      LineReader.bind_eq (readOperand_last _ (by decide) ends), Instruction.const_constIndex]
    rfl
  · have text : (i.operandText op).toList ++ cs = ' ' :: 'r' :: (Nat.toDigits 10 i.a.toNat ++
        ',' :: ' ' :: '#' :: (Nat.toDigits 10 i.constIndex ++ cs)) := by
      simp only [Instruction.operandText, shape, if_neg jump]
      simp [toString]
    rw [text, readOperands, shape]
    simp only [if_neg jump]
    rw [readRegister, if_neg jump, bind_map_left,
      LineReader.bind_eq (readOperand_comma _ _ (by decide)),
      LineReader.bind_eq (readOperand_last _ (by decide) ends), Instruction.const_constIndex,
      UInt8.ofNat_toNat]
    rfl

theorem readOperands_operandText {i : Instruction} {op : Opcode} (h : i.op? = some op)
    {cs : List Char} (ends : EndsWord cs) (alone : op.shape = .binary → cs = []) :
    readOperands op ((i.operandText op).toList ++ cs) = some (i.shown, cs) := by
  have whole : (⟨op.toByte, i.a, i.b, i.c⟩ : Instruction) = i := by
    rw [← Opcode.eq_toByte_of_ofByte? h]
  cases shape : op.shape with
  | nullary =>
    have text : i.operandText op = "" := by simp only [Instruction.operandText, shape]
    have shown : i.shown = .nullary op := by simp only [Instruction.shown, h, shape]
    rw [text, shown, readOperands, shape]
    rfl
  | ternary =>
    have text : (i.operandText op).toList ++ cs = ' ' :: 'r' :: (Nat.toDigits 10 i.a.toNat ++
        ',' :: ' ' :: 'r' :: (Nat.toDigits 10 i.b.toNat ++ ',' :: ' ' :: 'r' ::
          (Nat.toDigits 10 i.c.toNat ++ cs))) := by
      simp [Instruction.operandText, shape, toString]
    have shown : i.shown = i := by simp only [Instruction.shown, h, shape]
    rw [text, shown, readOperands, shape]
    simp only
    rw [LineReader.bind_eq (readOperand_comma _ _ (by decide)),
      LineReader.bind_eq (readOperand_comma _ _ (by decide)),
      LineReader.bind_eq (readOperand_last _ (by decide) ends), Instruction.ternary,
      UInt8.ofNat_toNat, UInt8.ofNat_toNat, UInt8.ofNat_toNat, whole]
    rfl
  | const =>
    have shown : i.shown = ⟨op.toByte, if op = .jmp then 0 else i.a, i.b, i.c⟩ := by
      simp only [Instruction.shown, h, shape]
      split
      · rw [Opcode.eq_toByte_of_ofByte? h]
      · exact whole.symm
    rw [shown, readOperands_const i shape ends]
  | call =>
    have text : (i.operandText op).toList ++ cs =
        ' ' :: '@' :: (Nat.toDigits 10 i.callIndex ++ cs) := by
      simp [Instruction.operandText, shape, toString]
    have shown : i.shown = i := by simp only [Instruction.shown, h, shape]
    rw [text, shown, readOperands, shape]
    simp only
    rw [LineReader.bind_eq (readOperand_last _ (by decide) ends), Instruction.call_callIndex,
      whole]
    rfl
  | binary =>
    obtain rfl := alone shape
    have text : (i.operandText op).toList ++ [] = ' ' :: i.moveText.toList := by
      simp [Instruction.operandText, shape, toString]
    have shown : i.shown = i := by simp only [Instruction.shown, h, shape]
    rw [text, shown, readOperands_moveText i shape, whole]

/-! ## Lines -/

theorem readInstruction_text {i : Instruction} {op : Opcode} (h : i.op? = some op)
    {cs : List Char} (ends : EndsWord cs) (alone : op.shape = .binary → cs = []) :
    readInstruction (' ' :: (i.text.toList ++ cs)) = some (i.shown, cs) := by
  have text : i.text.toList ++ cs =
      op.mnemonic.toList ++ ((i.operandText op).toList ++ cs) := by
    simp only [Instruction.text, h, String.toList_append, List.append_assoc]
  rw [text, readInstruction_mnemonic op (endsWord_operandText i op ends),
    readOperands_operandText h ends alone]

theorem readInstruction_unknown {i : Instruction} (h : i.op? = none) :
    readInstruction (' ' :: (['?', '?', '?'] ++ ' ' :: ('(' :: '0' :: 'x' ::
      ((Text.hex 2 i.opcode.toNat).toList ++ [')']) ++ []))) = some (i.shown, []) := by
  have ends : EndsWord [] := by simp [EndsWord]
  have word : ' ' ∉ '(' :: '0' :: 'x' :: ((Text.hex 2 i.opcode.toNat).toList ++ [')']) := by
    simp [Text.blank_notMem_hex]
  rw [readInstruction, LineReader.bind_eq (readWord_append (by decide) (by simp [EndsWord])),
    if_pos rfl, LineReader.bind_eq (readWord_append word ends)]
  have byte : Text.readHex? (('(' :: '0' :: 'x' ::
      ((Text.hex 2 i.opcode.toNat).toList ++ [')'])).drop 3).dropLast = some i.opcode.toNat := by
    rw [List.drop_succ_cons, List.drop_succ_cons, List.drop_succ_cons, List.drop_zero,
      List.dropLast_concat, Text.readHex?_hex]
  rw [LineReader.lift_bind_eq byte, UInt8.ofNat_toNat, Instruction.shown, h]
  rfl

namespace Module

/-- A `mov` has no index, so nothing is said of one. -/
theorem noteText_of_binary (m : Module) {i : Instruction} {op : Opcode} (h : i.op? = some op)
    (shape : op.shape = .binary) : (m.noteText i).toList = [] := by
  obtain rfl : op = .mov := by cases op <;> first | rfl | cases shape
  simp [noteText, h]

theorem readInstruction_instructionText {m : Module} {a : Nat} {i : Instruction}
    (hi : m.code[a]? = some i) :
    readInstruction (' ' :: (m.instructionText a).toList) =
      some (i.shown, (m.noteText i).toList) := by
  simp only [instructionText, hi]
  cases h : i.op? with
  | none =>
    have read := readInstruction_unknown h
    have note : (m.noteText i).toList = [] := by simp [noteText, h]
    rw [note, ← read]
    simp [toString]
  | some op =>
    rw [String.toList_append]
    exact readInstruction_text h (m.endsWord_noteText i) (m.noteText_of_binary h)

/-- The line of an address shows the instruction there. -/
theorem readLine?_lineText {m : Module} {a : Nat} {i : Instruction} (hi : m.code[a]? = some i) :
    readLine? (m.lineText a) = some (a, i.shown) := by
  have line : (m.lineText a).toList = (Text.hex 4 a).toList ++
      ' ' :: ([] ++ ' ' :: (m.instructionText a).toList) := by
    simp [lineText, toString]
  have read : readAddressed (' ' :: (m.lineText a).toList) =
      some ((a, i.shown), (m.noteText i).toList) := by
    rw [line, readAddressed,
      LineReader.bind_eq (readWord_append (Text.blank_notMem_hex 4 a) (by simp [EndsWord])),
      LineReader.lift_bind_eq (Text.readHex?_hex 4 a),
      LineReader.bind_eq (readWord_append (by simp) (by simp [EndsWord])),
      LineReader.bind_eq (readInstruction_instructionText hi)]
    rfl
  rw [readLine?, read, Option.map_some]

end Module

end RegLisp
