import RegLisp.Value

/-!
# Tokens

The words of a source text with the place where each starts. Lines and columns count from one, and
a column counts characters.
-/

namespace RegLisp.Syntax

/-- A place in a text. -/
structure Position where
  line : Nat := 1
  column : Nat := 1
  deriving DecidableEq, Repr, Inhabited

/-- The place of the character that follows `c`, when `c` stands at `p`. -/
def Position.after (p : Position) (c : Char) : Position :=
  if c == '\n' then ⟨p.line + 1, 1⟩ else ⟨p.line, p.column + 1⟩

/-- The place reached after a run of characters. -/
def Position.afterAll (p : Position) (cs : List Char) : Position :=
  cs.foldl Position.after p

/-- A place, as messages name it. -/
def Position.text (p : Position) : String :=
  s!"line {p.line}, column {p.column}"

/-- A word other than a parenthesis. -/
inductive Atom where
  | symbol (name : String)
  | literal (value : Literal)
  deriving DecidableEq, Repr

/-- An atom as source text. -/
def Atom.text : Atom → String
  | symbol name => name
  | literal value => value.text

/-- A word of a source text, or its end. -/
inductive Token where
  | lparen
  | rparen
  | atom (value : Atom)
  | eof
  deriving DecidableEq, Repr

/-- A token as source text. -/
def Token.text : Token → String
  | lparen => "("
  | rparen => ")"
  | atom value => value.text
  | eof => "EOF"

/-- A token and the place of its first character. -/
structure Located where
  token : Token
  position : Position
  deriving DecidableEq, Repr

@[simp] theorem Position.afterAll_nil (p : Position) : p.afterAll [] = p := rfl

@[simp] theorem Position.afterAll_cons (p : Position) (c : Char) (cs : List Char) :
    p.afterAll (c :: cs) = (p.after c).afterAll cs := rfl

end RegLisp.Syntax
