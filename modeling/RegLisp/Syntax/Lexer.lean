import RegLisp.Syntax.Token
import RegLisp.Text.Blank
import RegLisp.Text.Radix

/-!
# Reading tokens

A text is cut into parentheses and words; white space and comments stand between them. A word that
starts like a number has to be one, and any other word is a symbol. A bad number is an error, but
reading can go on behind it.
-/

namespace RegLisp.Syntax

open RegLisp.Text

/-- A text that is being read: what is left of it, and where that starts. -/
structure Source where
  rest : List Char
  position : Position := {}
  deriving DecidableEq, Repr

/-- The start of a text. -/
def Source.ofString (text : String) : Source := { rest := text.toList }

/-- A word that starts like a number and is none. -/
structure InvalidNumber where
  word : String
  position : Position
  deriving DecidableEq, Repr

def InvalidNumber.message (e : InvalidNumber) : String :=
  s!"Invalid number literal: {e.word} at {e.position.text}"

/-- Skip white space and comments. A comment goes from a semicolon to the end of its line;
`comment` says whether the text starts inside one. -/
def skipBlank (comment : Bool) (p : Position) : List Char → Source
  | [] => ⟨[], p⟩
  | c :: cs =>
    if comment then skipBlank (c != '\n') (p.after c) cs
    else if isBlank c then skipBlank false (p.after c) cs
    else if c == ';' then skipBlank true (p.after c) cs
    else ⟨c :: cs, p⟩

/-- Whether a word starts like a number: with a digit, or with a minus and a digit. -/
def startsNumber : List Char → Bool
  | '-' :: c :: _ => c.isDigit
  | c :: _ => c.isDigit
  | [] => false

/-- The value of an integer of 64 bits, with an optional sign. -/
def readInt64? (word : List Char) : Option Int64 := do
  let (negative, digits) := Decimal.splitSign word
  let magnitude ← readDecimal? digits
  let value : Int := if negative then -magnitude else magnitude
  if Int64.minValue.toInt ≤ value ∧ value ≤ Int64.maxValue.toInt then some (.ofInt value) else none

/-- Read a number: a single ends in `f`, a double has a point or a power of ten, and all other
numbers are integers. -/
def readNumber? (word : List Char) : Option Literal :=
  if word.getLast? == some 'f' then (Single.read? word.dropLast).map .single
  else if word.any (fun c => c == '.' || c == 'e' || c == 'E') then (Double.read? word).map .double
  else (readInt64? word).map .int

/-- The token of a word that starts at `p`. -/
def readWord (p : Position) (word : List Char) : Except InvalidNumber Located :=
  if startsNumber word then
    match readNumber? word with
    | some value => .ok ⟨.atom (.literal value), p⟩
    | none => .error ⟨String.ofList word, p⟩
  else .ok ⟨.atom (.symbol (String.ofList word)), p⟩

/-- Read the next token, and what follows it. The end of the text is a token that does not go
away. -/
def Source.next (s : Source) : Except InvalidNumber Located × Source :=
  let s := skipBlank false s.position s.rest
  match s.rest with
  | [] => (.ok ⟨.eof, s.position⟩, s)
  | '(' :: cs => (.ok ⟨.lparen, s.position⟩, ⟨cs, s.position.after '('⟩)
  | ')' :: cs => (.ok ⟨.rparen, s.position⟩, ⟨cs, s.position.after ')'⟩)
  | c :: cs =>
    let word := c :: cs.takeWhile (!isDelimiter ·)
    (readWord s.position word, ⟨cs.dropWhile (!isDelimiter ·), s.position.afterAll word⟩)

theorem skipBlank_length (comment : Bool) (p : Position) (cs : List Char) :
    (skipBlank comment p cs).rest.length ≤ cs.length := by
  induction cs generalizing comment p with
  | nil => simp [skipBlank]
  | cons c cs ih =>
    rw [skipBlank]
    have step (b : Bool) := ih b (p.after c)
    split
    · exact Nat.le_succ_of_le (step _)
    split
    · exact Nat.le_succ_of_le (step _)
    split
    · exact Nat.le_succ_of_le (step _)
    · exact Nat.le_refl _

/-- Reading a token other than the end uses up at least one character. -/
theorem Source.next_length {s s' : Source} {t : Located}
    (h : s.next = (.ok t, s')) (ht : t.token ≠ .eof) : s'.rest.length < s.rest.length := by
  have hskip := skipBlank_length false s.position s.rest
  rw [Source.next] at h
  generalize skipBlank false s.position s.rest = u at h hskip
  dsimp only at h
  split at h
  · simp only [Prod.mk.injEq, Except.ok.injEq] at h
    exact absurd (by rw [← h.1]) ht
  · next heq =>
    simp only [Prod.mk.injEq] at h
    rw [heq] at hskip
    rw [← h.2]
    exact hskip
  · next heq =>
    simp only [Prod.mk.injEq] at h
    rw [heq] at hskip
    rw [← h.2]
    exact hskip
  · next c cs _ _ heq =>
    simp only [Prod.mk.injEq] at h
    rw [heq] at hskip
    have hdrop : (cs.dropWhile (!isDelimiter ·)).length ≤ cs.length :=
      (List.dropWhile_suffix _).length_le
    rw [← h.2]
    simp only [List.length_cons] at hskip
    dsimp only
    omega

/-- Read the tokens of a text up to and including its end, after those already `done` (latest
first). -/
def Source.tokensOnto (done : List Located) (s : Source) : Except InvalidNumber (List Located) :=
  match h : s.next with
  | (.error e, _) => .error e
  | (.ok t, s') =>
    if ht : t.token = .eof then .ok (t :: done).reverse
    else
      have := Source.next_length h ht
      tokensOnto (t :: done) s'
termination_by s.rest.length

/-- The tokens of a text, the last of them its end. -/
def tokenize (text : String) : Except InvalidNumber (List Located) :=
  (Source.ofString text).tokensOnto []

end RegLisp.Syntax
