import RegLisp.Syntax.Token

/-!
# S-expressions

Atoms and lists of expressions. `text` writes an expression, and `flatten` gives the tokens
that it is read from. Both are built in one pass behind or before what is already there.
-/

namespace RegLisp.Syntax

/-- A symbolic expression. -/
inductive SExpr where
  | atom (value : Atom)
  | list (items : List SExpr)
  deriving Repr, Inhabited

namespace SExpr

/-- The name, when the expression is a symbol. -/
def symbol? : SExpr → Option String
  | atom (.symbol name) => some name
  | _ => none

/-- The items, when the expression is a list. -/
def items? : SExpr → Option (List SExpr)
  | list items => some items
  | _ => none

mutual

/-- Write an expression behind a text. -/
def write (written : String) : SExpr → String
  | atom value => written ++ value.text
  | list items => writeItems (written ++ "(") items ++ ")"

/-- Write items behind a text, with blanks between them. -/
def writeItems (written : String) : List SExpr → String
  | [] => written
  | item :: items => writeTail (write written item) items

/-- Write items behind a text, with a blank before each. -/
def writeTail (written : String) : List SExpr → String
  | [] => written
  | item :: items => writeTail (write (written ++ " ") item) items

end

/-- An expression as source text. -/
def text (e : SExpr) : String := write "" e

/-- Items as source text, with blanks between them. -/
def itemsText (items : List SExpr) : String := writeItems "" items

mutual

/-- The tokens of an expression in order, before other tokens. -/
def flattenOnto (rest : List Token) : SExpr → List Token
  | atom value => .atom value :: rest
  | list items => .lparen :: flattenItemsOnto (.rparen :: rest) items

/-- The tokens of several expressions in order, before other tokens. -/
def flattenItemsOnto (rest : List Token) : List SExpr → List Token
  | [] => rest
  | item :: items => flattenOnto (flattenItemsOnto rest items) item

end

/-- The tokens of an expression in order. -/
def flatten (e : SExpr) : List Token := flattenOnto [] e

/-- The tokens of several expressions in order. -/
def flattenAll (items : List SExpr) : List Token := flattenItemsOnto [] items

mutual

/-- What is already written stays in front. -/
theorem write_append (v w : String) : (e : SExpr) → write (v ++ w) e = v ++ write w e
  | atom _ => by simp [write, String.append_assoc]
  | list items => by
    rw [write, write, String.append_assoc, writeItems_append v (w ++ "(") items,
      String.append_assoc]

theorem writeItems_append (v w : String) :
    (items : List SExpr) → writeItems (v ++ w) items = v ++ writeItems w items
  | [] => by simp [writeItems]
  | item :: items => by
    rw [writeItems, writeItems, write_append v w item, writeTail_append v (write w item) items]

theorem writeTail_append (v w : String) :
    (items : List SExpr) → writeTail (v ++ w) items = v ++ writeTail w items
  | [] => by simp [writeTail]
  | item :: items => by
    rw [writeTail, writeTail, String.append_assoc, write_append v (w ++ " ") item,
      writeTail_append v (write (w ++ " ") item) items]

end

theorem write_eq_append (w : String) (e : SExpr) : write w e = w ++ e.text := by
  rw [text, ← write_append, String.append_empty]

@[simp] theorem text_atom (value : Atom) : (atom value).text = value.text := by
  simp [text, write]

@[simp] theorem text_list (items : List SExpr) :
    (list items).text = "(" ++ itemsText items ++ ")" := by
  rw [text, write, itemsText, ← writeItems_append, String.append_empty, String.empty_append]

mutual

/-- The tokens of an expression come before the rest. -/
theorem flattenOnto_append (ts us : List Token) :
    (e : SExpr) → flattenOnto (ts ++ us) e = flattenOnto ts e ++ us
  | atom _ => by simp [flattenOnto]
  | list items => by
    rw [flattenOnto, flattenOnto, ← List.cons_append, flattenItemsOnto_append _ us items,
      List.cons_append]

theorem flattenItemsOnto_append (ts us : List Token) :
    (items : List SExpr) → flattenItemsOnto (ts ++ us) items = flattenItemsOnto ts items ++ us
  | [] => by simp [flattenItemsOnto]
  | item :: items => by
    rw [flattenItemsOnto, flattenItemsOnto, flattenItemsOnto_append ts us items,
      flattenOnto_append _ us item]

end

theorem flattenOnto_eq_append (rest : List Token) (e : SExpr) :
    flattenOnto rest e = e.flatten ++ rest := by
  rw [flatten, ← flattenOnto_append, List.nil_append]

@[simp] theorem flatten_atom (value : Atom) : (atom value).flatten = [.atom value] := by
  simp [flatten, flattenOnto]

@[simp] theorem flatten_list (items : List SExpr) :
    (list items).flatten = .lparen :: (flattenAll items ++ [.rparen]) := by
  rw [flatten, flattenOnto, flattenAll, ← flattenItemsOnto_append, List.nil_append]

@[simp] theorem flattenAll_nil : flattenAll [] = [] := by
  simp [flattenAll, flattenItemsOnto]

@[simp] theorem flattenAll_cons (item : SExpr) (items : List SExpr) :
    flattenAll (item :: items) = item.flatten ++ flattenAll items := by
  rw [flattenAll, flattenItemsOnto, flattenOnto_eq_append, flattenAll]

end SExpr

end RegLisp.Syntax
