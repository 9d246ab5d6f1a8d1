import RegLisp.Proofs.Parentheses
import RegLisp.Proofs.TextPieces

/-!
# Expressions are read back from their texts

A name is readable if it has no character that ends a word and does not start like a number. Only
readable names are ever read as symbols, and an expression of readable symbols and integers is read
back from its text as it was. So what is read once, if it has no floating-point literal, stays the
same however often it is written and read.
-/

namespace RegLisp.Syntax

open RegLisp.Text

/-! ## Atoms -/

/-- A name that can be read as a symbol. -/
structure ReadableName (name : String) : Prop where
  nonempty : name ≠ ""
  plain : ∀ c ∈ name.toList, isBlank c = false ∧ c ≠ '(' ∧ c ≠ ')' ∧ c ≠ ';'
  no_digit : ∀ c rest, name.toList = c :: rest → c.isDigit = false
  no_sign : ∀ c rest, name.toList = '-' :: c :: rest → c.isDigit = false

/-- A symbol with a readable name, or any literal. -/
def Atom.Readable : Atom → Prop
  | .symbol name => ReadableName name
  | .literal _ => True

/-- No floating-point literal. -/
def Atom.FloatFree : Atom → Prop
  | .literal (.single _) => False
  | .literal (.double _) => False
  | _ => True

mutual

/-- Every atom of an expression has the property. -/
def SExpr.AllAtoms (P : Atom → Prop) : SExpr → Prop
  | .atom value => P value
  | .list items => SExpr.AllAtomsIn P items

/-- Every atom of some expressions has the property. -/
def SExpr.AllAtomsIn (P : Atom → Prop) : List SExpr → Prop
  | [] => True
  | item :: items => item.AllAtoms P ∧ SExpr.AllAtomsIn P items

end

mutual

theorem SExpr.allAtoms_iff {P : Atom → Prop} : (e : SExpr) →
    (e.AllAtoms P ↔ ∀ value, .atom value ∈ e.flatten → P value)
  | .atom value => by simp [SExpr.AllAtoms]
  | .list items => by
    rw [SExpr.AllAtoms, SExpr.allAtomsIn_iff items]
    simp

/-- The atoms of expressions are those among their tokens. -/
theorem SExpr.allAtomsIn_iff {P : Atom → Prop} : (es : List SExpr) →
    (SExpr.AllAtomsIn P es ↔ ∀ value, .atom value ∈ SExpr.flattenAll es → P value)
  | [] => by simp [SExpr.AllAtomsIn]
  | e :: es => by
    rw [SExpr.AllAtomsIn, SExpr.allAtoms_iff e, SExpr.allAtomsIn_iff es, SExpr.flattenAll_cons]
    simp only [List.mem_append, or_imp, forall_and]

end

/-- The atom is read from its own text. -/
structure Atom.ReadsBack (value : Atom) : Prop where
  nonempty : value.text.toList ≠ []
  plain : ∀ c ∈ value.text.toList, isDelimiter c = false
  read : ∀ p, lexeme p value.text.toList = .ok ⟨.atom value, p⟩

theorem startsNumber_eq_false_iff {word : List Char} :
    startsNumber word = false ↔ (∀ c rest, word = c :: rest → c.isDigit = false) ∧
      ∀ c rest, word = '-' :: c :: rest → c.isDigit = false := by
  fun_cases startsNumber word with
  | case1 c rest =>
    constructor
    · intro digit
      constructor
      · intro c' rest' eq
        cases eq
        rfl
      · intro c' rest' eq
        cases eq
        exact digit
    · intro h
      exact h.2 c rest rfl
  | case2 c rest other =>
    constructor
    · intro digit
      constructor
      · intro c' rest' eq
        cases eq
        exact digit
      · intro c' rest' eq
        cases eq
        exact absurd rfl (other c' rest' rfl)
    · intro h
      exact h.1 c rest rfl
  | case3 => simp

theorem readableName_iff {name : String} :
    ReadableName name ↔ name.toList ≠ [] ∧ (∀ c ∈ name.toList, isDelimiter c = false) ∧
      startsNumber name.toList = false := by
  simp only [isDelimiter_eq_false, startsNumber_eq_false_iff, ne_eq, String.toList_eq_nil_iff]
  constructor
  · intro h
    exact ⟨h.nonempty, h.plain, h.no_digit, h.no_sign⟩
  · rintro ⟨nonempty, plain, no_digit, no_sign⟩
    exact ⟨nonempty, plain, no_digit, no_sign⟩

instance (name : String) : Decidable (ReadableName name) :=
  decidable_of_iff (name.toList ≠ [] ∧ name.toList.all (!isDelimiter ·) = true ∧
    startsNumber name.toList = false) (by simp [readableName_iff])

theorem ReadableName.readsBack {name : String} (h : ReadableName name) :
    (Atom.symbol name).ReadsBack := by
  rcases readableName_iff.1 h with ⟨nonempty, plain, other⟩
  refine ⟨nonempty, plain, ?_⟩
  intro p
  show lexeme p name.toList = _
  rw [lexeme_word plain p, readWord, other, String.ofList_toList]
  rfl

theorem isDelimiter_of_isDigit {c : Char} (h : c.isDigit = true) : isDelimiter c = false := by
  simp only [Char.isDigit, Bool.and_eq_true, decide_eq_true_eq, ge_iff_le,
    UInt32.le_iff_toNat_le] at h
  have low : 48 ≤ c.toNat := h.1
  have high : c.toNat ≤ 57 := h.2
  rw [isDelimiter_eq_false]
  refine ⟨?_, ?_, ?_, ?_⟩
  · simp [isBlank, blankRanges]
    omega
  all_goals
    rintro rfl
    revert low high
    decide

/-! ## Integers -/

/-- A run of digits, perhaps behind a minus, with the number that it stands for. -/
inductive Digits10 : List Char → Int → Prop
  | plain (n : Nat) : Digits10 (Nat.toDigits 10 n) n
  | minus (n : Nat) : Digits10 ('-' :: Nat.toDigits 10 n) (-n)

theorem digits10_toString (i : Int) : Digits10 (toString i).toList i := by
  cases i with
  | ofNat n =>
    rw [Int.toString_eq_repr]
    show Digits10 n.repr.toList n
    rw [Nat.toList_repr]
    exact .plain n
  | negSucc n =>
    rw [Int.toString_eq_repr]
    show Digits10 ("-" ++ n.succ.repr).toList _
    rw [String.toList_append, Nat.toList_repr]
    exact .minus n.succ

theorem readDecimal?_toDigits (n : Nat) : readDecimal? (Nat.toDigits 10 n) = some n := by
  have all : (Nat.toDigits 10 n).all Char.isDigit = true :=
    List.all_eq_true.2 fun c mem => Nat.isDigit_of_mem_toDigits (by decide) (by decide) mem
  rw [readDecimal?, all, Nat.ofDigitChars_ten_toDigits]
  simp [Nat.toDigits_ne_nil]

theorem exists_toDigits_eq_cons (n : Nat) :
    ∃ c rest, Nat.toDigits 10 n = c :: rest ∧ c.isDigit = true := by
  rcases List.exists_cons_of_ne_nil (Nat.toDigits_ne_nil (n := n) (b := 10)) with ⟨c, rest, eq⟩
  have mem : c ∈ Nat.toDigits 10 n := by
    rw [eq]
    exact List.mem_cons_self
  exact ⟨c, rest, eq, Nat.isDigit_of_mem_toDigits (by decide) (by decide) mem⟩

theorem splitSign_toDigits (n : Nat) :
    Decimal.splitSign (Nat.toDigits 10 n) = (false, Nat.toDigits 10 n) := by
  rcases exists_toDigits_eq_cons n with ⟨c, rest, eq, digit⟩
  rw [eq]
  unfold Decimal.splitSign
  split
  · next sign =>
    cases sign
    exact absurd digit (by decide)
  · next sign =>
    cases sign
    exact absurd digit (by decide)
  · rfl

namespace Digits10

variable {word : List Char}

theorem mem {n : Int} (h : Digits10 word n) {c : Char} (mem : c ∈ word) :
    c.isDigit = true ∨ c = '-' := by
  have digit {n : Nat} (mem : c ∈ Nat.toDigits 10 n) : c.isDigit = true :=
    Nat.isDigit_of_mem_toDigits (by decide) (by decide) mem
  cases h with
  | plain n => exact .inl (digit mem)
  | minus n =>
    rcases List.mem_cons.1 mem with rfl | mem
    · exact .inr rfl
    · exact .inl (digit mem)

theorem startsNumber {n : Int} (h : Digits10 word n) : startsNumber word = true := by
  rw [← Bool.not_eq_false]
  intro other
  rcases startsNumber_eq_false_iff.1 other with ⟨no_digit, no_sign⟩
  cases h with
  | plain n =>
    rcases exists_toDigits_eq_cons n with ⟨c, rest, eq, digit⟩
    rw [no_digit c rest eq] at digit
    cases digit
  | minus n =>
    rcases exists_toDigits_eq_cons n with ⟨c, rest, eq, digit⟩
    rw [no_sign c rest (by rw [eq])] at digit
    cases digit

theorem readInt64? {i : Int64} (h : Digits10 word i.toInt) : readInt64? word = some i := by
  have range : Int64.minValue.toInt ≤ i.toInt ∧ i.toInt ≤ Int64.maxValue.toInt :=
    ⟨Int64.minValue_le_toInt i, Int64.toInt_le i⟩
  have back := Int64.ofInt_toInt i
  generalize i.toInt = value at h range back
  cases h with
  | plain n =>
    rw [Syntax.readInt64?, splitSign_toDigits]
    dsimp only
    rw [readDecimal?_toDigits]
    show (if _ ≤ (n : Int) ∧ (n : Int) ≤ _ then some (Int64.ofInt n) else none) = some i
    rw [if_pos range, back]
  | minus n =>
    rw [Syntax.readInt64?, Decimal.splitSign]
    dsimp only
    rw [readDecimal?_toDigits]
    show (if _ ≤ -(n : Int) ∧ -(n : Int) ≤ _ then some (Int64.ofInt (-n)) else none) = some i
    rw [if_pos range, back]

theorem readNumber? {i : Int64} (h : Digits10 word i.toInt) :
    readNumber? word = some (.int i) := by
  have clean {c : Char} (mem : c ∈ word) : c ≠ 'f' ∧ c ≠ '.' ∧ c ≠ 'e' ∧ c ≠ 'E' := by
    refine ⟨?_, ?_, ?_, ?_⟩
    all_goals
      rintro rfl
      exact absurd (h.mem mem) (by decide)
  have last : (word.getLast? == some 'f') = false := by
    rw [beq_eq_false_iff_ne]
    intro eq
    exact (clean (List.mem_of_getLast? eq)).1 rfl
  have any : word.any (fun c => c == '.' || c == 'e' || c == 'E') = false := by
    rw [List.any_eq_false]
    intro c mem
    simp [clean mem]
  rw [Syntax.readNumber?, last, any, h.readInt64?]
  rfl

end Digits10

theorem lexeme_number {word : List Char} {value : Literal}
    (plain : ∀ c ∈ word, isDelimiter c = false) (starts : startsNumber word = true)
    (read : readNumber? word = some value) (p : Position) :
    lexeme p word = .ok ⟨.atom (.literal value), p⟩ := by
  rw [lexeme_word plain p, readWord, if_pos starts, read]

theorem Atom.readsBack_int (i : Int64) : (Atom.literal (.int i)).ReadsBack := by
  have digits : Digits10 (Atom.literal (.int i)).text.toList i.toInt := digits10_toString i.toInt
  have plain : ∀ c ∈ (Atom.literal (.int i)).text.toList, isDelimiter c = false := by
    intro c mem
    rcases digits.mem mem with digit | rfl
    · exact isDelimiter_of_isDigit digit
    · decide
  refine ⟨?_, plain, lexeme_number plain digits.startsNumber digits.readNumber?⟩
  intro empty
  have starts := digits.startsNumber
  rw [empty] at starts
  cases starts

/-- Atoms that are readable and no floating-point literals are read from their own texts. -/
theorem Atom.Readable.readsBack {value : Atom} (h : value.Readable) (free : value.FloatFree) :
    value.ReadsBack := by
  cases value with
  | symbol name => exact ReadableName.readsBack h
  | literal value =>
    cases value with
    | int i => exact Atom.readsBack_int i
    | single x => exact free.elim
    | double x => exact free.elim

/-! ## Texts -/

/-- What the next token is decides what all tokens are. -/
theorem Source.tokensOnto_congr {s s' : Source} (h : s.next = s'.next) {done : List Located} :
    s.tokensOnto done = s'.tokensOnto done := by
  rcases next : s'.next with ⟨e | t, s''⟩
  · rw [Source.tokensOnto_error (h.trans next), Source.tokensOnto_error next]
  · by_cases eof : t.token = .eof
    · rw [Source.tokensOnto_eof (h.trans next) eof, Source.tokensOnto_eof next eof]
    · rw [Source.tokensOnto_ok (h.trans next) eof, Source.tokensOnto_ok next eof]

/-- From one place in a text to another, the lexer reads the given tokens. -/
def Source.Reads (s : Source) (ts : List Token) (s' : Source) : Prop :=
  ∃ read : List Located, read.map Located.token = ts ∧
    ∀ done, s.tokensOnto done = s'.tokensOnto (read.reverse ++ done)

namespace Source.Reads

theorem refl (s : Source) : s.Reads [] s := ⟨[], rfl, fun _ => rfl⟩

theorem trans {s s' s'' : Source} {ts us : List Token} (h : s.Reads ts s')
    (h' : s'.Reads us s'') : s.Reads (ts ++ us) s'' := by
  rcases h with ⟨read, rfl, first⟩
  rcases h' with ⟨read', rfl, second⟩
  refine ⟨read ++ read', List.map_append, fun done => ?_⟩
  rw [first, second, List.reverse_append, List.append_assoc]

/-- What the lexer cuts off is read as one token. -/
theorem cut {word rest : List Char} (h : Cut word rest) {p : Position} {token : Token}
    (read : lexeme p word = .ok ⟨token, p⟩) (eof : token ≠ .eof) :
    Source.Reads ⟨word ++ rest, p⟩ [token] ⟨rest, p.afterAll word⟩ := by
  refine ⟨[⟨token, p⟩], rfl, fun done => ?_⟩
  have next := h.next p
  rw [read] at next
  rw [Source.tokensOnto_ok next eof]
  rfl

/-- A blank makes no difference. -/
theorem blank {rest : List Char} {p : Position} {ts : List Token} {s' : Source}
    (h : Source.Reads ⟨rest, p.after ' '⟩ ts s') : Source.Reads ⟨' ' :: rest, p⟩ ts s' := by
  rcases h with ⟨read, eq, run⟩
  refine ⟨read, eq, fun done => ?_⟩
  have same : Source.next ⟨' ' :: rest, p⟩ = Source.next ⟨rest, p.after ' '⟩ := rfl
  rw [← run, Source.tokensOnto_congr same]

end Source.Reads

@[simp] theorem SExpr.itemsText_nil : SExpr.itemsText [] = "" := by
  rw [SExpr.itemsText, SExpr.writeItems]

@[simp] theorem SExpr.itemsText_singleton (e : SExpr) : SExpr.itemsText [e] = e.text := by
  rw [SExpr.itemsText, SExpr.writeItems, SExpr.writeTail, SExpr.text]

theorem SExpr.itemsText_cons_cons (e e' : SExpr) (es : List SExpr) :
    SExpr.itemsText (e :: e' :: es) = e.text ++ " " ++ SExpr.itemsText (e' :: es) := by
  rw [SExpr.itemsText, SExpr.itemsText, ← SExpr.writeItems_append, String.append_empty,
    SExpr.writeItems, SExpr.writeTail, SExpr.writeItems, SExpr.text]

/-- Items are written as their texts with blanks between them. -/
theorem SExpr.intercalate_text (es : List SExpr) :
    " ".intercalate (es.map SExpr.text) = SExpr.itemsText es := by
  match es with
  | [] => simp
  | [e] => simp
  | e :: e' :: es =>
    have rest := SExpr.intercalate_text (e' :: es)
    rw [List.map_cons] at rest
    rw [List.map_cons, List.map_cons, String.intercalate_cons_cons, rest,
      SExpr.itemsText_cons_cons]

mutual

/-- An expression is read from its text, if what follows ends a word. -/
theorem SExpr.reads : ∀ (e : SExpr), e.AllAtoms Atom.ReadsBack → ∀ {rest : List Char},
    (∀ c tail, rest = c :: tail → isDelimiter c = true) → ∀ (p : Position),
      ∃ p', Source.Reads ⟨e.text.toList ++ rest, p⟩ e.flatten ⟨rest, p'⟩
  | .atom value, h, rest, ends, p => by
    rw [SExpr.text_atom, SExpr.flatten_atom]
    exact ⟨_, .cut (.word h.nonempty h.plain ends) (h.read p) nofun⟩
  | .list items, h, rest, ends, p => by
    have behind : ∀ c tail, ')' :: rest = c :: tail → isDelimiter c = true := by
      intro c tail eq
      cases eq
      decide
    have opens : Source.Reads ⟨'(' :: ((SExpr.itemsText items).toList ++ ')' :: rest), p⟩
        [.lparen] ⟨(SExpr.itemsText items).toList ++ ')' :: rest, p.afterAll ['(']⟩ :=
      .cut (.lparen _) rfl nofun
    rcases SExpr.reads_items items h behind (p.afterAll ['(']) with ⟨p', inner⟩
    have closes : Source.Reads ⟨')' :: rest, p'⟩ [.rparen] ⟨rest, p'.afterAll [')']⟩ :=
      .cut (.rparen _) rfl nofun
    refine ⟨p'.afterAll [')'], ?_⟩
    rw [SExpr.text_list, SExpr.flatten_list, String.toList_append, String.toList_append,
      List.append_assoc, List.append_assoc]
    exact opens.trans (inner.trans closes)

theorem SExpr.reads_items : ∀ (es : List SExpr), SExpr.AllAtomsIn Atom.ReadsBack es →
    ∀ {rest : List Char}, (∀ c tail, rest = c :: tail → isDelimiter c = true) →
      ∀ (p : Position), ∃ p',
        Source.Reads ⟨(SExpr.itemsText es).toList ++ rest, p⟩ (SExpr.flattenAll es) ⟨rest, p'⟩
  | [], _, rest, _, p => by
    rw [SExpr.itemsText_nil, SExpr.flattenAll_nil]
    exact ⟨p, .refl _⟩
  | [e], h, rest, ends, p => by
    rw [SExpr.itemsText_singleton, SExpr.flattenAll_cons, SExpr.flattenAll_nil, List.append_nil]
    exact SExpr.reads e h.1 ends p
  | e :: e' :: es, h, rest, ends, p => by
    have behind : ∀ c tail, ' ' :: ((SExpr.itemsText (e' :: es)).toList ++ rest) = c :: tail →
        isDelimiter c = true := by
      intro c tail eq
      cases eq
      decide
    rcases SExpr.reads e h.1 behind p with ⟨p', first⟩
    rcases SExpr.reads_items (e' :: es) h.2 ends (p'.after ' ') with ⟨p'', others⟩
    refine ⟨p'', ?_⟩
    rw [SExpr.itemsText_cons_cons, SExpr.flattenAll_cons, String.toList_append,
      String.toList_append, List.append_assoc, List.append_assoc]
    exact first.trans others.blank

end

/-- Expressions whose atoms are read back are read back themselves. -/
theorem SExpr.parse_itemsText {es : List SExpr} (h : SExpr.AllAtomsIn Atom.ReadsBack es) :
    SExpr.parse (SExpr.itemsText es) = .ok es := by
  have ends : ∀ c tail, ([] : List Char) = c :: tail → isDelimiter c = true := nofun
  rcases SExpr.reads_items es h ends {} with ⟨p, read, flat, run⟩
  have tokens : tokenize (SExpr.itemsText es) = .ok (read ++ [⟨.eof, p⟩]) := by
    have eof : Source.next ⟨[], p⟩ = (.ok ⟨.eof, p⟩, ⟨[], p⟩) := rfl
    have whole := run []
    rw [List.append_nil, List.append_nil, Source.tokensOnto_eof eof rfl, List.reverse_cons,
      List.reverse_reverse] at whole
    exact whole
  have body : untilEof (read ++ [⟨.eof, p⟩]) = read := by
    have stays : ∀ t ∈ read, (t.token != .eof) = true := by
      intro t mem
      rw [bne_iff_ne]
      intro eof
      refine (SExpr.balanced_flattenAll es).eof_not_mem ?_
      rw [← flat, ← eof]
      exact List.mem_map_of_mem mem
    rw [untilEof, List.takeWhile_append_of_pos stays, List.takeWhile_cons_of_neg (by simp),
      List.append_nil]
  rw [SExpr.parse, tokens]
  refine (SExpr.readAll_reading _).unique ?_
  rw [body]
  exact .forms flat

/-! ## What is read -/

/-- Every token of a text is its end or what the lexer makes of a piece. -/
theorem exists_piece_of_mem_tokenize {text : String} {tokens : List Located}
    (h : tokenize text = .ok tokens) {t : Located} (mem : t ∈ tokens) :
    t.token = .eof ∨ ∃ start stop, Piece text.toList start stop ∧
      lexeme (placeBehind (text.toList.take start)) (text.toList.extract start stop) = .ok t := by
  rcases (Source.behind_ofString text).exists_run with ⟨pieces, run⟩
  have read : ((Source.ofString text).calls (pieces.length + 1)).mapM Prod.fst = .ok tokens := by
    rw [tokenize, run.tokens] at h
    cases all : ((Source.ofString text).calls (pieces.length + 1)).mapM Prod.fst with
    | error e =>
      rw [all] at h
      cases h
    | ok ts =>
      rw [all] at h
      exact h
  rcases exists_of_mem_mapM_ok read mem with ⟨call, made, answered⟩
  rw [run.calls, List.mem_append] at made
  rcases made with piece | ended
  · rcases List.mem_map.1 piece with ⟨x, mem, eq⟩
    rw [← eq] at answered
    exact .inr ⟨x.1, x.2, (run.sound x mem).2, answered⟩
  · rw [List.eq_of_mem_replicate ended] at answered
    cases answered
    exact .inl rfl

theorem readableName_of_lexeme {word : List Char} {p q : Position} {name : String}
    (nonempty : word ≠ []) (plain : ∀ c ∈ word, isDelimiter c = false)
    (h : lexeme p word = .ok ⟨.atom (.symbol name), q⟩) : ReadableName name := by
  rw [lexeme_word plain p, readWord] at h
  by_cases number : startsNumber word = true
  · rw [if_pos number] at h
    cases value : readNumber? word with
    | none =>
      rw [value] at h
      cases h
    | some value' =>
      rw [value] at h
      cases h
  · rw [if_neg number] at h
    cases h
    rw [readableName_iff, String.toList_ofList]
    exact ⟨nonempty, plain, Bool.not_eq_true _ ▸ number⟩

/-- Every symbol that is read has a readable name. -/
theorem SExpr.parse_readable {text : String} {es : List SExpr}
    (h : SExpr.parse text = .ok es) : SExpr.AllAtomsIn Atom.Readable es := by
  unfold SExpr.parse at h
  split at h
  · cases h
  next tokens lexed =>
    have reading := SExpr.readAll_reading tokens
    rw [h] at reading
    cases reading with
    | forms flat =>
      rw [SExpr.allAtomsIn_iff]
      intro value mem
      cases value with
      | literal => trivial
      | symbol name =>
        rw [← flat] at mem
        rcases List.mem_map.1 mem with ⟨⟨token, q⟩, mem, rfl⟩
        rcases exists_piece_of_mem_tokenize lexed (List.takeWhile_sublist _ |>.mem mem) with
          eof | ⟨start, stop, piece, read⟩
        · cases eof
        rcases piece.extract_cases with eq | eq | ⟨nonempty, plain⟩
        · rw [eq] at read
          cases read
        · rw [eq] at read
          cases read
        · exact readableName_of_lexeme nonempty plain read

/-- Writing and reading are inverse. Expressions of readable symbols and integers are read back from
their texts with blanks between them; whatever is read has readable symbols only; and so, what is
read from a text and has no floating-point literal is read again when it is written. -/
theorem SExpr.parse_written :
    (∀ es : List SExpr, SExpr.AllAtomsIn Atom.Readable es → SExpr.AllAtomsIn Atom.FloatFree es →
      SExpr.parse (" ".intercalate (es.map SExpr.text)) = .ok es) ∧
    (∀ (text : String) (es : List SExpr), SExpr.parse text = .ok es →
      SExpr.AllAtomsIn Atom.Readable es) ∧
    ∀ (text : String) (es : List SExpr), SExpr.parse text = .ok es →
      SExpr.AllAtomsIn Atom.FloatFree es →
        SExpr.parse (" ".intercalate (es.map SExpr.text)) = .ok es := by
  have back (es : List SExpr) (readable : SExpr.AllAtomsIn Atom.Readable es)
      (free : SExpr.AllAtomsIn Atom.FloatFree es) :
      SExpr.parse (" ".intercalate (es.map SExpr.text)) = .ok es := by
    rw [SExpr.allAtomsIn_iff] at readable free
    rw [SExpr.intercalate_text]
    apply SExpr.parse_itemsText
    rw [SExpr.allAtomsIn_iff]
    intro value mem
    exact (readable value mem).readsBack (free value mem)
  refine ⟨back, fun text es => SExpr.parse_readable, ?_⟩
  intro text es read free
  exact back es (SExpr.parse_readable read) free

/-- Nested lists, an empty one among them, the least integer, and names that start almost like
numbers. -/
def nestedForms : List SExpr :=
  [.list [.atom (.symbol "-x"), .list [.atom (.literal (.int Int64.minValue)), .list []]],
    .atom (.symbol "-"), .atom (.symbol "é1f")]

theorem SExpr.parse_written_nestedForms :
    SExpr.parse "(-x (-9223372036854775808 ())) - é1f" = .ok nestedForms ∧
      SExpr.AllAtomsIn Atom.Readable nestedForms ∧
        SExpr.parse (" ".intercalate (nestedForms.map SExpr.text)) = .ok nestedForms := by
  have names : ReadableName "-x" ∧ ReadableName "-" ∧ ReadableName "é1f" := by decide +kernel
  have readable : SExpr.AllAtomsIn Atom.Readable nestedForms :=
    ⟨⟨names.1, ⟨trivial, trivial, trivial⟩, trivial⟩, names.2.1, names.2.2, trivial⟩
  have free : SExpr.AllAtomsIn Atom.FloatFree nestedForms :=
    ⟨⟨trivial, ⟨trivial, trivial, trivial⟩, trivial⟩, trivial, trivial, trivial⟩
  have text : " ".intercalate (nestedForms.map SExpr.text) =
      "(-x (-9223372036854775808 ())) - é1f" := by decide +kernel
  have read := SExpr.parse_written.1 nestedForms readable free
  rw [text] at read
  exact ⟨read, SExpr.parse_written.2.1 _ _ read, SExpr.parse_written.2.2 _ _ read free⟩

end RegLisp.Syntax
