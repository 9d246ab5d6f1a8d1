import RegLisp.Proofs.Linking
import RegLisp.Syntax.Lexer

/-!
# The pieces of a text

What a text consists of can be said without reading it from left to right. A character is in a
comment if a semicolon stands at it or before it in its line. Of the characters that are neither
white space nor in a comment, a parenthesis is a piece of its own, and the others form pieces as
long as they stand side by side.

The lexer takes one piece after the other. At each call it stands behind a piece, so it is in no
comment and in no word, and what it skips up to the next piece does not count.
-/

namespace RegLisp.Syntax

open RegLisp.Text

/-! ## Lines and columns -/

/-- The characters since the last end of a line. -/
def lastLine (before : List Char) : List Char :=
  (before.reverse.takeWhile (· != '\n')).reverse

/-- The place behind the given characters: lines and columns are counted from one. -/
def placeBehind (before : List Char) : Position :=
  ⟨1 + before.count '\n', 1 + (lastLine before).length⟩

@[simp] theorem lastLine_nil : lastLine [] = [] := rfl

theorem lastLine_newline (before : List Char) : lastLine (before ++ ['\n']) = [] := by
  simp [lastLine]

theorem lastLine_snoc (before : List Char) {c : Char} (h : c ≠ '\n') :
    lastLine (before ++ [c]) = lastLine before ++ [c] := by
  simp [lastLine, h]

theorem lastLine_append (before : List Char) {word : List Char} (h : '\n' ∉ word) :
    lastLine (before ++ word) = lastLine before ++ word := by
  induction word generalizing before with
  | nil => rw [List.append_nil, List.append_nil]
  | cons c word ih =>
    rw [List.mem_cons, not_or] at h
    rw [List.append_cons, ih _ h.2, lastLine_snoc before (Ne.symm h.1), ← List.append_cons]

/-- Whether the end of a text is in a comment, after one more character. -/
theorem semicolon_mem_snoc (before : List Char) (c : Char) :
    ';' ∈ lastLine (before ++ [c]) ↔ c ≠ '\n' ∧ (c = ';' ∨ ';' ∈ lastLine before) := by
  by_cases newline : c = '\n'
  · subst newline
    simp [lastLine_newline]
  · simp [lastLine_snoc before newline, newline, or_comm, eq_comm]

theorem placeBehind_snoc (before : List Char) (c : Char) :
    placeBehind (before ++ [c]) = (placeBehind before).after c := by
  by_cases newline : c = '\n'
  · subst newline
    simp [placeBehind, Position.after, lastLine_newline, List.count_append, Nat.add_assoc]
  · simp [placeBehind, Position.after, newline, lastLine_snoc before newline, List.count_append,
      Nat.add_assoc]

/-- Counting as one goes and counting in the end give the same place. -/
theorem placeBehind_append (before cs : List Char) :
    placeBehind (before ++ cs) = (placeBehind before).afterAll cs := by
  induction cs generalizing before with
  | nil => rw [List.append_nil, Position.afterAll_nil]
  | cons c cs ih => rw [List.append_cons, ih, placeBehind_snoc, Position.afterAll_cons]

/-! ## Pieces -/

/-- The character at `i` is in a comment: a semicolon stands at it or before it in its line. -/
def Commented (text : List Char) (i : Nat) : Prop := ';' ∈ lastLine (text.take (i + 1))

/-- The character at `i` is neither white space nor in a comment. -/
def Counts (text : List Char) (i : Nat) : Prop :=
  ∃ c, text[i]? = some c ∧ isBlank c = false ∧ ¬ Commented text i

/-- The character at `i` belongs to a word. -/
def InWord (text : List Char) (i : Nat) : Prop :=
  ∃ c, text[i]? = some c ∧ isDelimiter c = false ∧ ¬ Commented text i

/-- A piece of a text, from its first character to the one behind its last: a parenthesis, or a run
of characters of a word that cannot be longer to either side. -/
inductive Piece (text : List Char) : Nat → Nat → Prop
  | paren {i : Nat} {c : Char} (get : text[i]? = some c) (paren : c = '(' ∨ c = ')')
    (outside : ¬ Commented text i) : Piece text i (i + 1)
  | word {start stop : Nat} (lt : start < stop)
    (inside : ∀ i, start ≤ i → i < stop → InWord text i)
    (left : ∀ i, i + 1 = start → ¬ InWord text i) (right : ¬ InWord text stop) :
    Piece text start stop

theorem isDelimiter_eq_false {c : Char} :
    isDelimiter c = false ↔ isBlank c = false ∧ c ≠ '(' ∧ c ≠ ')' ∧ c ≠ ';' := by
  simp [isDelimiter, and_assoc]

theorem InWord.counts {text : List Char} {i : Nat} (h : InWord text i) : Counts text i := by
  rcases h with ⟨c, get, delimiter, outside⟩
  exact ⟨c, get, (isDelimiter_eq_false.1 delimiter).1, outside⟩

theorem Piece.start_lt {text : List Char} {start stop : Nat} (h : Piece text start stop) :
    start < stop := by
  cases h with
  | paren => exact Nat.lt_succ_self _
  | word lt => exact lt

/-- All characters of a piece count. -/
theorem Piece.counts {text : List Char} {start stop i : Nat} (h : Piece text start stop)
    (le : start ≤ i) (lt : i < stop) : Counts text i := by
  cases h with
  | @paren c get paren outside =>
    rcases Nat.le_antisymm (Nat.le_of_lt_succ lt) le with rfl
    refine ⟨c, get, ?_, outside⟩
    rcases paren with rfl | rfl <;> decide
  | word _ inside _ _ => exact (inside i le lt).counts

theorem getElem?_extract (text : List Char) {start stop k : Nat} (h : k < stop - start) :
    (text.extract start stop)[k]? = text[start + k]? := by
  rw [List.extract, List.getElem?_take_of_lt h, List.getElem?_drop]

/-- A piece is a parenthesis, or it has no character that ends a word. -/
theorem Piece.extract_cases {text : List Char} {start stop : Nat} (h : Piece text start stop) :
    text.extract start stop = ['('] ∨ text.extract start stop = [')'] ∨
      text.extract start stop ≠ [] ∧ ∀ c ∈ text.extract start stop, isDelimiter c = false := by
  cases h with
  | @paren c get paren =>
    have one : text.extract start (start + 1) = [c] := by
      rw [List.extract, Nat.add_sub_cancel_left, List.take_one, List.head?_drop, get]
      rfl
    rcases paren with rfl | rfl
    · exact .inl one
    · exact .inr (.inl one)
  | word lt inside =>
    refine .inr (.inr ⟨?_, ?_⟩)
    · intro empty
      rcases inside start (Nat.le_refl _) lt with ⟨c, get, -, -⟩
      have first := getElem?_extract text (Nat.sub_pos_of_lt lt)
      rw [empty, Nat.add_zero, get] at first
      cases first
    · intro c mem
      rcases List.mem_iff_getElem?.1 mem with ⟨k, get⟩
      have short : k < stop - start := by
        have bound := (List.getElem?_eq_some_iff.1 get).1
        exact Nat.lt_of_lt_of_le bound (List.length_take_le _ _)
      rw [getElem?_extract text short] at get
      rcases inside (start + k) (by omega) (by omega) with ⟨c', get', delimiter, -⟩
      cases get.symm.trans get'
      exact delimiter

/-- No parenthesis stands in a word. -/
theorem not_inWord_of_paren {text : List Char} {i : Nat} {c : Char} (get : text[i]? = some c)
    (paren : c = '(' ∨ c = ')') : ¬ InWord text i := by
  rintro ⟨c', get', delimiter, -⟩
  cases get.symm.trans get'
  have facts := isDelimiter_eq_false.1 delimiter
  rcases paren with rfl | rfl
  · exact facts.2.1 rfl
  · exact facts.2.2.1 rfl

/-- No word reaches across the end of a piece. -/
theorem Piece.apart {text : List Char} {start stop i : Nat} (h : Piece text start stop)
    (last : i + 1 = stop) (inside : InWord text i) : ¬ InWord text stop := by
  cases h with
  | paren get paren =>
    cases last
    exact absurd inside (not_inWord_of_paren get paren)
  | word _ _ _ right => exact right

/-- A run that cannot be longer to the left starts no later than any other run that it shares a
character with. -/
theorem start_le_of_runs {text : List Char} {start start' i : Nat} (le : start ≤ i)
    (left : ∀ k, k + 1 = start → ¬ InWord text k)
    (run : ∀ k, start' ≤ k → k ≤ i → InWord text k) : start ≤ start' := by
  by_contra before
  cases start with
  | zero => omega
  | succ k => exact left k rfl (run k (by omega) (by omega))

/-- Pieces do not overlap. -/
theorem Piece.eq_of_common {text : List Char} {start stop start' stop' i : Nat}
    (h : Piece text start stop) (h' : Piece text start' stop') (le : start ≤ i) (lt : i < stop)
    (le' : start' ≤ i) (lt' : i < stop') : start = start' ∧ stop = stop' := by
  cases h with
  | paren get paren =>
    rcases Nat.le_antisymm (Nat.le_of_lt_succ lt) le with rfl
    cases h' with
    | paren => omega
    | word _ inside _ _ => exact absurd (inside i le' lt') (not_inWord_of_paren get paren)
  | word _ inside left right =>
    cases h' with
    | paren get paren =>
      rcases Nat.le_antisymm (Nat.le_of_lt_succ lt') le' with rfl
      exact absurd (inside i le lt) (not_inWord_of_paren get paren)
    | word _ inside' left' right' =>
      constructor
      · exact Nat.le_antisymm
          (start_le_of_runs le left fun k le _ => inside' k le (by omega))
          (start_le_of_runs le' left' fun k le _ => inside k le (by omega))
      · rcases Nat.lt_trichotomy stop stop' with short | eq | long
        · exact absurd (inside' stop (by omega) short) right
        · exact eq
        · exact absurd (inside stop' (by omega) long) right'

theorem getElem?_behind (before : List Char) (c : Char) (rest : List Char) :
    (before ++ c :: rest)[before.length]? = some c := by
  rw [List.getElem?_append_right (Nat.le_refl _), Nat.sub_self]
  rfl

theorem commented_behind (before : List Char) (c : Char) (rest : List Char) :
    Commented (before ++ c :: rest) before.length ↔ ';' ∈ lastLine (before ++ [c]) := by
  have eq : (before ++ c :: rest).take (before.length + 1) = before ++ [c] := by
    rw [List.append_cons]
    exact List.take_left' (by rw [List.length_append, List.length_singleton])
  rw [Commented, eq]

theorem inWord_behind (before : List Char) (c : Char) (rest : List Char) :
    InWord (before ++ c :: rest) before.length ↔
      isDelimiter c = false ∧ ';' ∉ lastLine before := by
  constructor
  · rintro ⟨c', get, delimiter, outside⟩
    rw [getElem?_behind] at get
    cases get
    rw [commented_behind, semicolon_mem_snoc] at outside
    refine ⟨delimiter, fun mem => outside ⟨?_, .inr mem⟩⟩
    rintro rfl
    exact absurd delimiter (by decide)
  · rintro ⟨delimiter, outside⟩
    refine ⟨c, getElem?_behind before c rest, delimiter, ?_⟩
    rw [commented_behind, semicolon_mem_snoc]
    rintro ⟨-, semicolon | mem⟩
    · exact (isDelimiter_eq_false.1 delimiter).2.2.2 semicolon
    · exact outside mem

/-! ## Gaps -/

/-- From behind `before` on, the lexer skips the gap, and the rest starts with a character that
counts. -/
structure Gap (before gap rest : List Char) : Prop where
  idle : ∀ i, before.length ≤ i → i < (before ++ gap).length →
    ¬ Counts (before ++ (gap ++ rest)) i
  ends : ∀ c tail, rest = c :: tail → isBlank c = false ∧ c ≠ ';' ∧ ';' ∉ lastLine (before ++ gap)

/-- A gap can be longer by a character in front that does not count. -/
theorem Gap.cons {before gap rest : List Char} {c : Char} (h : Gap (before ++ [c]) gap rest)
    (skipped : isBlank c = true ∨ ';' ∈ lastLine (before ++ [c])) :
    Gap before (c :: gap) rest := by
  constructor
  · intro i le lt
    rcases Nat.eq_or_lt_of_le le with rfl | gt
    · rintro ⟨c', get, blank, outside⟩
      rw [List.cons_append, getElem?_behind] at get
      rw [List.cons_append, commented_behind] at outside
      cases get
      rcases skipped with skipped | skipped
      · rw [skipped] at blank
        cases blank
      · exact outside skipped
    · have := h.idle i (by rwa [List.length_append]) (by rwa [← List.append_cons])
      rwa [← List.append_cons] at this
  · intro c' tail eq
    rw [List.append_cons]
    exact h.ends c' tail eq

/-- Skipping goes on behind a character that does not count. -/
theorem skipBlank_skipped (before : List Char) (p : Position) {c : Char} (cs : List Char)
    (skipped : isBlank c = true ∨ ';' ∈ lastLine (before ++ [c])) :
    skipBlank (decide (';' ∈ lastLine before)) p (c :: cs) =
      skipBlank (decide (';' ∈ lastLine (before ++ [c]))) (p.after c) cs := by
  rw [skipBlank]
  by_cases inside : ';' ∈ lastLine before
  · by_cases newline : c = '\n'
    · simp [semicolon_mem_snoc, inside, newline]
    · have : (c != '\n') = true := bne_iff_ne.2 newline
      simp [semicolon_mem_snoc, inside, newline, this]
  by_cases blank : isBlank c = true
  · have semicolon : c ≠ ';' := by
      rintro rfl
      exact absurd blank (by decide)
    simp [semicolon_mem_snoc, inside, blank, semicolon]
  · rw [semicolon_mem_snoc] at skipped
    rcases skipped with skipped | ⟨-, rfl | mem⟩
    · exact absurd skipped blank
    · simp [semicolon_mem_snoc, blank]
    · exact absurd mem inside

/-- Skipping stops at any other character. -/
theorem skipBlank_stop (p : Position) {c : Char} (cs : List Char) (blank : isBlank c = false)
    (semicolon : c ≠ ';') : skipBlank false p (c :: cs) = ⟨c :: cs, p⟩ := by
  rw [skipBlank]
  simp [blank, semicolon]

/-- Skipping finds a gap, whether it starts in a comment or not. -/
theorem exists_gap (rest before : List Char) :
    ∃ gap rest', rest = gap ++ rest' ∧ Gap before gap rest' ∧
      skipBlank (decide (';' ∈ lastLine before)) (placeBehind before) rest =
        ⟨rest', placeBehind (before ++ gap)⟩ := by
  have none (rest : List Char) (i : Nat) (le : before.length ≤ i)
      (lt : i < (before ++ []).length) : ¬ Counts (before ++ ([] ++ rest)) i := by
    rw [List.append_nil] at lt
    omega
  induction rest generalizing before with
  | nil =>
    refine ⟨[], [], rfl, ⟨none [], nofun⟩, ?_⟩
    rw [List.append_nil, skipBlank]
  | cons c rest ih =>
    by_cases skipped : isBlank c = true ∨ ';' ∈ lastLine (before ++ [c])
    · rcases ih (before ++ [c]) (by simp; omega) with ⟨gap, rest', rfl, isGap, skip⟩
      refine ⟨c :: gap, rest', rfl, isGap.cons skipped, ?_⟩
      rw [skipBlank_skipped before _ _ skipped, ← placeBehind_snoc, skip, ← List.append_cons]
    · rw [not_or, Bool.not_eq_true, semicolon_mem_snoc] at skipped
      rcases skipped with ⟨blank, outside⟩
      have newline : c ≠ '\n' := by
        rintro rfl
        exact absurd blank (by decide)
      have semicolon : c ≠ ';' := fun eq => outside ⟨newline, .inl eq⟩
      have inside : ';' ∉ lastLine before := fun mem => outside ⟨newline, .inr mem⟩
      refine ⟨[], c :: rest, rfl, ⟨none _, ?_⟩, ?_⟩
      · intro c' tail eq
        cases eq
        rw [List.append_nil]
        exact ⟨blank, semicolon, inside⟩
      · rw [decide_eq_false inside, skipBlank_stop _ _ blank semicolon, List.append_nil]

/-! ## Cutting off a piece -/

/-- What the lexer makes of a piece that starts at a place. -/
def lexeme (p : Position) : List Char → Except InvalidNumber Located
  | ['('] => .ok ⟨.lparen, p⟩
  | [')'] => .ok ⟨.rparen, p⟩
  | word => readWord p word

/-- The word is all that the lexer cuts off a text that goes on with the rest. -/
inductive Cut : List Char → List Char → Prop
  | lparen (rest : List Char) : Cut ['('] rest
  | rparen (rest : List Char) : Cut [')'] rest
  | word {word rest : List Char} (nonempty : word ≠ [])
    (inside : ∀ c ∈ word, isDelimiter c = false)
    (ends : ∀ c tail, rest = c :: tail → isDelimiter c = true) : Cut word rest

theorem Cut.nonempty {word rest : List Char} (h : Cut word rest) : word ≠ [] := by
  cases h with
  | lparen => exact List.cons_ne_nil _ _
  | rparen => exact List.cons_ne_nil _ _
  | word nonempty => exact nonempty

/-- No line ends and no comment starts in what is cut off. -/
theorem Cut.not_mem {word rest : List Char} (h : Cut word rest) : '\n' ∉ word ∧ ';' ∉ word := by
  cases h with
  | lparen => decide
  | rparen => decide
  | word _ inside _ =>
    constructor
    · intro mem
      exact absurd (inside _ mem) (by decide)
    · intro mem
      exact absurd (inside _ mem) (by decide)

theorem exists_cut {c : Char} (blank : isBlank c = false) (semicolon : c ≠ ';')
    (tail : List Char) : ∃ word rest, c :: tail = word ++ rest ∧ Cut word rest := by
  by_cases opens : c = '('
  · exact ⟨['('], tail, by rw [opens]; rfl, .lparen tail⟩
  by_cases closes : c = ')'
  · exact ⟨[')'], tail, by rw [closes]; rfl, .rparen tail⟩
  refine ⟨c :: tail.takeWhile (!isDelimiter ·), tail.dropWhile (!isDelimiter ·), ?_, ?_⟩
  · rw [List.cons_append, List.takeWhile_append_dropWhile]
  · refine .word (List.cons_ne_nil _ _) ?_ ?_
    · rintro d (_ | ⟨_, mem⟩)
      · exact isDelimiter_eq_false.2 ⟨blank, opens, closes, semicolon⟩
      · simpa using List.mem_takeWhile_imp mem
    · intro d rest eq
      have := List.head_dropWhile_not (!isDelimiter ·) (l := tail) (by simp [eq])
      simpa [eq] using this

theorem lexeme_word {word : List Char} (plain : ∀ c ∈ word, isDelimiter c = false)
    (p : Position) : lexeme p word = readWord p word := by
  unfold lexeme
  split
  · exact absurd (plain '(' List.mem_cons_self) (by decide)
  · exact absurd (plain ')' List.mem_cons_self) (by decide)
  · rfl

/-- The lexer cuts off all that it can. -/
theorem Cut.next {word rest : List Char} (h : Cut word rest) (p : Position) :
    Source.next ⟨word ++ rest, p⟩ = (lexeme p word, ⟨rest, p.afterAll word⟩) := by
  cases h with
  | lparen => rfl
  | rparen => rfl
  | word nonempty inside ends =>
    cases word with
    | nil => exact absurd rfl nonempty
    | cons c word =>
      have first := inside c List.mem_cons_self
      rcases isDelimiter_eq_false.1 first with ⟨blank, opens, closes, semicolon⟩
      have all : ∀ d ∈ word, (!isDelimiter d) = true := by
        intro d mem
        rw [inside d (List.mem_cons_of_mem _ mem)]
        rfl
      have stop : rest.takeWhile (!isDelimiter ·) = [] ∧
          rest.dropWhile (!isDelimiter ·) = rest := by
        cases rest with
        | nil => exact ⟨rfl, rfl⟩
        | cons d tail => simp [ends d tail rfl]
      rw [Source.next, List.cons_append]
      dsimp only
      rw [skipBlank_stop p _ blank semicolon]
      dsimp only
      split
      · next eq => cases eq
      · next eq =>
        cases eq
        exact absurd rfl opens
      · next eq =>
        cases eq
        exact absurd rfl closes
      · next eq =>
        cases eq
        rw [List.takeWhile_append_of_pos all, List.dropWhile_append_of_pos all, stop.1, stop.2,
          List.append_nil, lexeme_word inside p]

/-- Skipped characters make no difference to the next token. -/
theorem Source.next_of_skip {s : Source} {c : Char} {tail : List Char} {p : Position}
    (skip : skipBlank false s.position s.rest = ⟨c :: tail, p⟩) (blank : isBlank c = false)
    (semicolon : c ≠ ';') : s.next = Source.next ⟨c :: tail, p⟩ := by
  rw [Source.next, Source.next, skip]
  dsimp only
  rw [skipBlank_stop p tail blank semicolon]

/-- Outside of comments, characters that end no word are in a word. -/
theorem inWord_within {before word : List Char} (rest : List Char)
    (outside : ';' ∉ lastLine before) (inside : ∀ c ∈ word, isDelimiter c = false) {i : Nat}
    (le : before.length ≤ i) (lt : i < (before ++ word).length) :
    InWord (before ++ (word ++ rest)) i := by
  rcases Nat.exists_eq_add_of_le le with ⟨k, rfl⟩
  rw [List.length_append] at lt
  have short : k < word.length := by omega
  have split : before ++ (word ++ rest) =
      (before ++ word.take k) ++ word[k] :: (word.drop (k + 1) ++ rest) := by
    rw [← List.cons_append, ← List.drop_eq_getElem_cons, List.append_assoc,
      ← List.append_assoc (word.take k), List.take_append_drop]
  have length : before.length + k = (before ++ word.take k).length := by
    rw [List.length_append, List.length_take, Nat.min_eq_left (Nat.le_of_lt short)]
  have front : ∀ c ∈ word.take k, isDelimiter c = false := fun c mem =>
    inside c (List.mem_of_mem_take mem)
  rw [split, length, inWord_behind]
  refine ⟨inside _ (List.getElem_mem short), ?_⟩
  rw [lastLine_append, List.mem_append, not_or]
  · exact ⟨outside, fun mem => absurd (front _ mem) (by decide)⟩
  · exact fun mem => absurd (front _ mem) (by decide)

/-- What is cut off is a piece, if no word reaches into it. -/
theorem Cut.piece {before word rest : List Char} (h : Cut word rest)
    (outside : ';' ∉ lastLine before)
    (apart : ∀ i, i + 1 = before.length → InWord (before ++ (word ++ rest)) i →
      ¬ InWord (before ++ (word ++ rest)) before.length) :
    Piece (before ++ (word ++ rest)) before.length (before ++ word).length := by
  -- a parenthesis starts no comment
  have paren (c : Char) (paren : c = '(' ∨ c = ')') :
      Piece (before ++ c :: rest) before.length (before ++ [c]).length := by
    rw [List.length_append, List.length_singleton]
    refine .paren (getElem?_behind before c rest) paren ?_
    rw [commented_behind, semicolon_mem_snoc]
    rintro ⟨-, semicolon | mem⟩
    · rcases paren with rfl | rfl <;> cases semicolon
    · exact outside mem
  cases h with
  | lparen => exact paren '(' (.inl rfl)
  | rparen => exact paren ')' (.inr rfl)
  | word nonempty inside ends =>
    have lt : before.length < (before ++ word).length := by
      rw [List.length_append]
      have := List.length_pos_iff.2 nonempty
      omega
    refine .word lt (fun i => inWord_within rest outside inside) ?_ ?_
    · intro i first inWord
      exact apart i first inWord (inWord_within rest outside inside (Nat.le_refl _) lt)
    · cases rest with
      | nil =>
        rintro ⟨c, get, -, -⟩
        rw [List.append_nil, List.getElem?_eq_none (Nat.le_refl _)] at get
        cases get
      | cons c tail =>
        rw [← List.append_assoc, inWord_behind, ends c tail rfl]
        rintro ⟨delimiter, -⟩
        cases delimiter

/-! ## Calls -/

/-- The lexer stands behind `before`: in no comment, unless nothing is left, and in no word. -/
structure Source.Behind (text before : List Char) (s : Source) : Prop where
  split : text = before ++ s.rest
  position : s.position = placeBehind before
  outside : s.rest = [] ∨ ';' ∉ lastLine before
  apart : ∀ i, i + 1 = before.length → InWord text i → ¬ InWord text before.length

/-- What a call of the lexer from behind `before` on comes to: the end of the text, or the next
piece, with the lexer behind it. -/
inductive Source.Called (text before : List Char) (s : Source) : Prop
  | ended (next : s.next = (.ok ⟨.eof, placeBehind text⟩, ⟨[], placeBehind text⟩))
    (idle : ∀ i, before.length ≤ i → ¬ Counts text i)
  | piece {gap word : List Char} {s' : Source}
    (next : s.next = (lexeme (placeBehind (before ++ gap)) word, s'))
    (behind : s'.Behind text (before ++ (gap ++ word)))
    (piece : Piece text (before ++ gap).length (before ++ (gap ++ word)).length)
    (idle : ∀ i, before.length ≤ i → i < (before ++ gap).length → ¬ Counts text i)

theorem not_counts_of_length_le {text : List Char} {i : Nat} (h : text.length ≤ i) :
    ¬ Counts text i := by
  rintro ⟨c, get, -, -⟩
  rw [List.getElem?_eq_none h] at get
  cases get

/-- One call of the lexer. -/
theorem Source.Behind.called {text before : List Char} {s : Source} (h : s.Behind text before) :
    s.Called text before := by
  rcases s with ⟨rest, p⟩
  rcases h with ⟨rfl, rfl, outside, apart⟩
  dsimp only at outside apart ⊢
  by_cases empty : rest = []
  · subst empty
    rw [List.append_nil]
    exact .ended rfl fun i => not_counts_of_length_le
  have clear := outside.resolve_left empty
  rcases exists_gap rest before with ⟨gap, rest', rfl, isGap, skip⟩
  rw [decide_eq_false clear] at skip
  cases rest' with
  | nil =>
    refine .ended ?_ ?_
    · rw [Source.next]
      dsimp only
      rw [skip, List.append_nil]
    · intro i le
      by_cases lt : i < (before ++ gap).length
      · exact isGap.idle i le lt
      · rw [List.append_nil]
        exact not_counts_of_length_le (Nat.le_of_not_lt lt)
  | cons c tail =>
    rcases isGap.ends c tail rfl with ⟨blank, semicolon, gapClear⟩
    rcases exists_cut blank semicolon tail with ⟨word, rest, eq, cut⟩
    have next := Source.next_of_skip (s := ⟨gap ++ c :: tail, placeBehind before⟩) skip blank
      semicolon
    rw [eq] at next isGap apart ⊢
    have split : before ++ (gap ++ (word ++ rest)) = (before ++ gap) ++ (word ++ rest) :=
      (List.append_assoc ..).symm
    have piece : Piece (before ++ (gap ++ (word ++ rest))) (before ++ gap).length
        (before ++ (gap ++ word)).length := by
      rw [← List.append_assoc before gap word, split]
      refine cut.piece gapClear fun i last inWord => ?_
      rw [← split] at inWord ⊢
      -- the character before the piece is in the gap, or there is no gap
      by_cases le : before.length ≤ i
      · exact absurd inWord.counts (isGap.idle i le (by omega))
      · rw [List.length_append] at last ⊢
        have none : gap.length = 0 := by omega
        rw [none] at last ⊢
        exact apart i last inWord
    refine .piece (next.trans (cut.next _)) ⟨?_, ?_, .inr ?_, fun i => piece.apart⟩ piece
      isGap.idle
    · rw [List.append_assoc, List.append_assoc]
    · rw [← List.append_assoc, placeBehind_append (before ++ gap)]
    · rw [← List.append_assoc, lastLine_append _ cut.not_mem.1, List.mem_append, not_or]
      exact ⟨gapClear, cut.not_mem.2⟩

/-- Less is left behind a piece than before it. -/
theorem Source.Behind.shorter {text before gap word : List Char} {s s' : Source}
    (h : s.Behind text before) (behind : s'.Behind text (before ++ (gap ++ word)))
    (piece : Piece text (before ++ gap).length (before ++ (gap ++ word)).length) :
    s'.rest.length < s.rest.length := by
  have whole := congrArg List.length (h.split.symm.trans behind.split)
  have lt := piece.start_lt
  simp only [List.length_append] at whole lt
  omega

/-- Every call uses up a character, as long as there is one. -/
theorem Source.Behind.progress {text before : List Char} {s : Source} (h : s.Behind text before)
    (left : s.rest ≠ []) : s.next.2.rest.length < s.rest.length := by
  cases h.called with
  | ended next =>
    rw [next]
    exact List.length_pos_iff.2 left
  | piece next behind piece =>
    rw [next]
    exact h.shorter behind piece

/-! ## All calls -/

section Tokens

variable {s s' : Source} {done : List Located}

theorem Source.tokensOnto_error {e : InvalidNumber} (next : s.next = (.error e, s')) :
    s.tokensOnto done = .error e := by
  rw [Source.tokensOnto]
  split
  · next eq =>
    cases next.symm.trans eq
    rfl
  · next eq => cases next.symm.trans eq

theorem Source.tokensOnto_eof {t : Located} (next : s.next = (.ok t, s')) (h : t.token = .eof) :
    s.tokensOnto done = .ok (t :: done).reverse := by
  rw [Source.tokensOnto]
  split
  · next eq => cases next.symm.trans eq
  · next eq =>
    cases next.symm.trans eq
    rw [dif_pos h]

theorem Source.tokensOnto_ok {t : Located} (next : s.next = (.ok t, s')) (h : t.token ≠ .eof) :
    s.tokensOnto done = s'.tokensOnto (t :: done) := by
  rw [Source.tokensOnto]
  split
  · next eq => cases next.symm.trans eq
  · next eq =>
    cases next.symm.trans eq
    rw [dif_neg h]

end Tokens

/-- The source after some calls of the lexer. -/
def Source.afterCalls : Nat → Source → Source
  | 0, s => s
  | n + 1, s => s.next.2.afterCalls n

/-- The answers to the first calls of the lexer, each with the text that is left behind it. -/
def Source.calls : Nat → Source → List (Except InvalidNumber Located × List Char)
  | 0, _ => []
  | n + 1, s => (s.next.1, s.next.2.rest) :: s.next.2.calls n

/-- The answer to a piece, and the text behind it. -/
def answer (text : List Char) (piece : Nat × Nat) : Except InvalidNumber Located × List Char :=
  (lexeme (placeBehind (text.take piece.1)) (text.extract piece.1 piece.2), text.drop piece.2)

/-- An answer at a place: a token there, or a message that names the word and the place. -/
def AnswersAt (p : Position) (word : List Char) : Except InvalidNumber Located → Prop
  | .ok t => t.position = p ∧ t.token ≠ .eof
  | .error e => e.message = "Invalid number literal: " ++ String.ofList word ++ " at line " ++
      toString p.line ++ ", column " ++ toString p.column

theorem InvalidNumber.message_eq (e : InvalidNumber) :
    e.message = "Invalid number literal: " ++ e.word ++ " at line " ++ toString e.position.line ++
      ", column " ++ toString e.position.column := by
  show "Invalid number literal: " ++ e.word ++ " at " ++ ("line " ++ toString e.position.line ++
    ", column " ++ toString e.position.column) = _
  rw [← String.toList_inj]
  simp

theorem lexeme_answersAt (p : Position) (word : List Char) : AnswersAt p word (lexeme p word) := by
  unfold lexeme
  split
  · exact ⟨rfl, nofun⟩
  · exact ⟨rfl, nofun⟩
  · unfold readWord
    split
    · split
      · exact ⟨rfl, nofun⟩
      · exact InvalidNumber.message_eq _
    · exact ⟨rfl, nofun⟩

/-- From behind `before` on, the lexer gives the answers to the pieces, and then it stays at the
end. -/
structure Source.Run (text before : List Char) (s : Source) (pieces : List (Nat × Nat)) : Prop where
  sound : ∀ x ∈ pieces, before.length ≤ x.1 ∧ Piece text x.1 x.2
  ordered : pieces.Pairwise fun x y => x.2 ≤ y.1
  covers : ∀ i, before.length ≤ i → Counts text i → ∃ x ∈ pieces, x.1 ≤ i ∧ i < x.2
  calls : ∀ n, s.calls (pieces.length + n) = pieces.map (answer text) ++
    List.replicate n (.ok ⟨.eof, placeBehind text⟩, [])
  progress : ∀ n, (s.afterCalls n).rest ≠ [] →
    (s.afterCalls (n + 1)).rest.length < (s.afterCalls n).rest.length
  tokens : ∀ done, s.tokensOnto done =
    ((s.calls (pieces.length + 1)).mapM Prod.fst).map (done.reverse ++ ·)

theorem Source.calls_end (p : Position) (n : Nat) :
    Source.calls n ⟨[], p⟩ = List.replicate n (.ok ⟨.eof, p⟩, []) := by
  induction n with
  | zero => rfl
  | succ n ih =>
    rw [List.replicate_succ, ← ih]
    rfl

theorem Source.afterCalls_end (p : Position) (n : Nat) :
    Source.afterCalls n ⟨[], p⟩ = ⟨[], p⟩ := by
  induction n with
  | zero => rfl
  | succ n ih => exact ih

/-- At the end of a text, no piece is left. -/
theorem Source.Behind.run_end {text before : List Char} {s : Source} (h : s.Behind text before)
    (next : s.next = (.ok ⟨.eof, placeBehind text⟩, ⟨[], placeBehind text⟩))
    (idle : ∀ i, before.length ≤ i → ¬ Counts text i) : s.Run text before [] where
  sound := nofun
  ordered := .nil
  covers i le counts := absurd counts (idle i le)
  calls n := by
    rw [List.length_nil, Nat.zero_add, List.map_nil, List.nil_append]
    cases n with
    | zero => rfl
    | succ n => rw [Source.calls, next, Source.calls_end, List.replicate_succ]
  progress n left := by
    cases n with
    | zero => exact h.progress left
    | succ n =>
      rw [Source.afterCalls, next, Source.afterCalls_end] at left
      exact absurd rfl left
  tokens done := by
    rw [Source.tokensOnto_eof next rfl, List.reverse_cons, List.length_nil, Source.calls,
      Source.calls, next]
    rfl

/-- A call that takes a piece, and then the calls that follow it. -/
theorem Source.Run.cons {text before : List Char} {s s' : Source} {gap word : List Char}
    {pieces : List (Nat × Nat)} (h : s.Behind text before)
    (next : s.next = (lexeme (placeBehind (before ++ gap)) word, s'))
    (behind : s'.Behind text (before ++ (gap ++ word)))
    (piece : Piece text (before ++ gap).length (before ++ (gap ++ word)).length)
    (idle : ∀ i, before.length ≤ i → i < (before ++ gap).length → ¬ Counts text i)
    (run : s'.Run text (before ++ (gap ++ word)) pieces) :
    s.Run text before (((before ++ gap).length, (before ++ (gap ++ word)).length) :: pieces) := by
  have reply : (s.next.1, s.next.2.rest) =
      answer text ((before ++ gap).length, (before ++ (gap ++ word)).length) := by
    have split : text = (before ++ gap) ++ (word ++ s'.rest) := by
      rw [behind.split, List.append_assoc, List.append_assoc, List.append_assoc]
    rw [next, answer]
    dsimp only
    rw [Prod.mk.injEq]
    constructor
    · congr 1
      · rw [split, List.take_left]
      · have length : (before ++ (gap ++ word)).length - (before ++ gap).length = word.length := by
          simp only [List.length_append]
          omega
        rw [List.extract, length, split, List.drop_left, List.take_left]
    · rw [behind.split, List.drop_left]
  refine ⟨?_, ?_, ?_, ?_, ?_, ?_⟩
  · rintro x (_ | ⟨_, mem⟩)
    · exact ⟨by rw [List.length_append]; omega, piece⟩
    · have := run.sound x mem
      exact ⟨by rw [List.length_append] at this; omega, this.2⟩
  · exact .cons (fun y mem => (run.sound y mem).1) run.ordered
  · intro i le counts
    by_cases first : i < (before ++ (gap ++ word)).length
    · refine ⟨_, List.mem_cons_self, ?_, first⟩
      by_contra lt
      exact idle i le (Nat.lt_of_not_le lt) counts
    · rcases run.covers i (Nat.le_of_not_lt first) counts with ⟨x, mem, within⟩
      exact ⟨x, List.mem_cons_of_mem _ mem, within⟩
  · intro n
    rw [List.length_cons, Nat.add_right_comm, Source.calls, reply, next, run.calls, List.map_cons,
      List.cons_append]
  · intro n left
    cases n with
    | zero => exact h.progress left
    | succ n =>
      rw [Source.afterCalls, next] at left
      show (s.next.2.afterCalls (n + 1)).rest.length < (s.next.2.afterCalls n).rest.length
      rw [next]
      exact run.progress n left
  · intro done
    rw [List.length_cons, Source.calls, List.mapM_cons]
    have answers := lexeme_answersAt (placeBehind (before ++ gap)) word
    cases read : lexeme (placeBehind (before ++ gap)) word with
    | error e =>
      rw [read] at next
      rw [Source.tokensOnto_error next, next]
      rfl
    | ok t =>
      rw [read] at next answers
      rw [Source.tokensOnto_ok next answers.2, run.tokens, next, List.reverse_cons]
      dsimp only
      cases (s'.calls (pieces.length + 1)).mapM Prod.fst with
      | error e => rfl
      | ok ts =>
        show Except.ok (done.reverse ++ [t] ++ ts) = Except.ok (done.reverse ++ t :: ts)
        rw [← List.append_cons]

/-- All calls of the lexer, by induction on the text that is left. -/
theorem Source.Behind.exists_run {text before : List Char} {s : Source}
    (h : s.Behind text before) : ∃ pieces, s.Run text before pieces := by
  cases h.called with
  | ended next idle => exact ⟨[], h.run_end next idle⟩
  | @piece gap word s' next behind piece idle =>
    have := h.shorter behind piece
    rcases behind.exists_run with ⟨pieces, run⟩
    exact ⟨_, .cons h next behind piece idle run⟩
termination_by s.rest.length

theorem Source.behind_ofString (text : String) :
    (Source.ofString text).Behind text.toList [] :=
  ⟨rfl, rfl, .inr List.not_mem_nil, nofun⟩

/-- The lexer takes a text apart into the given pieces. -/
structure Lexed (text : String) (pieces : List (Nat × Nat)) : Prop where
  /-- The pieces are those of the text, in their order. -/
  whole : ∀ start stop, (start, stop) ∈ pieces ↔ Piece text.toList start stop
  ordered : pieces.Pairwise fun x y => x.2 ≤ y.1
  /-- The characters that count are those that belong to a piece, and each belongs to one only. -/
  covered : ∀ i, Counts text.toList i ↔
    ∃! k : Nat, ∃ x : Nat × Nat, pieces[k]? = some x ∧ x.1 ≤ i ∧ i < x.2
  /-- Each call takes the next piece, and when none is left, the text ends again and again. -/
  calls : ∀ n, (Source.ofString text).calls (pieces.length + n) =
    pieces.map (answer text.toList) ++
      List.replicate n (.ok ⟨.eof, placeBehind text.toList⟩, [])
  placed : ∀ x ∈ pieces, AnswersAt (placeBehind (text.toList.take x.1))
    (text.toList.extract x.1 x.2) (answer text.toList x).1
  progress : ∀ n, ((Source.ofString text).afterCalls n).rest ≠ [] →
    ((Source.ofString text).afterCalls (n + 1)).rest.length <
      ((Source.ofString text).afterCalls n).rest.length
  /-- The tokens are the answers up to the end, unless one of them is an error. -/
  tokens : tokenize text =
    ((Source.ofString text).calls (pieces.length + 1)).mapM Prod.fst

/-- The lexer takes every text apart into its pieces. -/
theorem exists_lexed (text : String) : ∃ pieces, Lexed text pieces := by
  rcases (Source.behind_ofString text).exists_run with ⟨pieces, run⟩
  have whole (x : Nat × Nat) : x ∈ pieces ↔ Piece text.toList x.1 x.2 := by
    constructor
    · intro mem
      exact (run.sound x mem).2
    · intro piece
      have counts := piece.counts (Nat.le_refl _) piece.start_lt
      rcases run.covers x.1 (Nat.zero_le _) counts with ⟨y, mem, le, lt⟩
      have same := piece.eq_of_common (run.sound y mem).2 (Nat.le_refl _) piece.start_lt le lt
      rwa [Prod.ext same.1 same.2]
  refine ⟨pieces, fun start stop => whole (start, stop), run.ordered, ?_, run.calls, ?_,
    run.progress, ?_⟩
  · intro i
    constructor
    · intro counts
      rcases run.covers i (Nat.zero_le _) counts with ⟨x, mem, le, lt⟩
      rcases List.mem_iff_getElem?.1 mem with ⟨k, get⟩
      refine ⟨k, ⟨x, get, le, lt⟩, ?_⟩
      rintro k' ⟨y, get', le', lt'⟩
      rcases Nat.lt_trichotomy k k' with less | eq | less
      · have := pairwise_getElem? run.ordered get get' less
        omega
      · exact eq.symm
      · have := pairwise_getElem? run.ordered get' get less
        omega
    · rintro ⟨k, ⟨x, get, le, lt⟩, -⟩
      exact (run.sound x (List.mem_of_getElem? get)).2.counts le lt
  · intro x mem
    exact lexeme_answersAt _ _
  · rw [tokenize, run.tokens]
    cases ((Source.ofString text).calls (pieces.length + 1)).mapM Prod.fst <;> rfl

end RegLisp.Syntax
