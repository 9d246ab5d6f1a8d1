import RegLisp.Syntax.Lexer
import RegLisp.Syntax.SExpr

/-!
# Reading s-expressions

Tokens are read from left to right with the parentheses that are still open on a stack. Reading
stops at the end token or behind the last token, and an error leaves the rest of the tokens as it
was when the error showed.
-/

namespace RegLisp.Syntax

/-- Why text or tokens are no s-expressions. -/
inductive ReadError where
  | invalidNumber (cause : InvalidNumber)
  /-- A parenthesis that is never closed, opened at the given place. -/
  | unclosed (opened : Position)
  /-- A closing parenthesis without an open one. -/
  | unexpectedClose (position : Position)
  /-- An expression was asked for and none is left. -/
  | unexpectedEnd
  deriving DecidableEq, Repr

def ReadError.message : ReadError → String
  | invalidNumber cause => cause.message
  | unclosed opened => s!"Unclosed '(' opened at {opened.text}"
  | unexpectedClose position => s!"Unexpected ')' at {position.text}"
  | unexpectedEnd => "Unexpected end of input"

/-- A list that is still open: where it was opened, and its items so far, latest first. -/
structure OpenList where
  opened : Position
  items : List SExpr

/-- The list of items of an open list. -/
def OpenList.close (l : OpenList) : SExpr := .list l.items.reverse

/-- Add an item to an open list. -/
def OpenList.add (l : OpenList) (item : SExpr) : OpenList := { l with items := item :: l.items }

/-- What the end of the tokens means: nothing is missing, or the innermost open list is. -/
def endOfTokens : List OpenList → Option ReadError
  | [] => none
  | inner :: _ => some (.unclosed inner.opened)

/-- Read one expression, with the given lists open, innermost first. -/
def readForm (stack : List OpenList) : List Located → Except ReadError SExpr × List Located
  | [] => (.error ((endOfTokens stack).getD .unexpectedEnd), [])
  | t :: ts =>
    match t.token with
    | .eof => (.error ((endOfTokens stack).getD .unexpectedEnd), t :: ts)
    | .lparen => readForm (⟨t.position, []⟩ :: stack) ts
    | .rparen =>
      match stack with
      | [] => (.error (.unexpectedClose t.position), t :: ts)
      | [inner] => (.ok inner.close, ts)
      | inner :: outer :: stack => readForm (outer.add inner.close :: stack) ts
    | .atom value =>
      match stack with
      | [] => (.ok (.atom value), ts)
      | inner :: stack => readForm (inner.add (.atom value) :: stack) ts

/-- Read expressions up to the end, after those already `done` (latest first), with the given
lists open, innermost first. -/
def readForms (done : List SExpr) (stack : List OpenList) :
    List Located → Except ReadError (List SExpr) × List Located
  | [] =>
    match endOfTokens stack with
    | some e => (.error e, [])
    | none => (.ok done.reverse, [])
  | t :: ts =>
    match t.token with
    | .eof =>
      match endOfTokens stack with
      | some e => (.error e, t :: ts)
      | none => (.ok done.reverse, t :: ts)
    | .lparen => readForms done (⟨t.position, []⟩ :: stack) ts
    | .rparen =>
      match stack with
      | [] => (.error (.unexpectedClose t.position), t :: ts)
      | [inner] => readForms (inner.close :: done) [] ts
      | inner :: outer :: stack => readForms done (outer.add inner.close :: stack) ts
    | .atom value =>
      match stack with
      | [] => readForms (.atom value :: done) [] ts
      | inner :: stack => readForms done (inner.add (.atom value) :: stack) ts

/-- Read one expression from the front of the tokens. -/
def SExpr.read (tokens : List Located) : Except ReadError SExpr × List Located :=
  readForm [] tokens

/-- Read all expressions up to the end. -/
def SExpr.readAll (tokens : List Located) : Except ReadError (List SExpr) × List Located :=
  readForms [] [] tokens

/-- Read a whole source text. -/
def SExpr.parse (text : String) : Except ReadError (List SExpr) :=
  match tokenize text with
  | .error e => .error (.invalidNumber e)
  | .ok tokens => (readAll tokens).1

end RegLisp.Syntax
