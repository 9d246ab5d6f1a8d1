import RegLisp.Text.Radix

/-!
# Control characters

Characters by which a text could steer the terminal that shows it: escape, bell, backspace, form
feed, delete, and the controls behind the ASCII range. Where a text is shown in a log, they are
written as escapes. White space stays as it is.
-/

namespace RegLisp.Text

/-- Whether an ASCII character steers a terminal. -/
def isSteering (c : Char) : Bool :=
  c == '\x1b' || c == '\x07' || c == '\x08' || c == '\x0c' || c == '\x7f'

/-- Whether a character is a control behind the ASCII range. -/
def isHighControl (c : Char) : Bool := 0x80 ≤ c.toNat && c.toNat ≤ 0x9F

/-- How a character is shown in a log. -/
def shown (c : Char) : String :=
  if isSteering c then "\\x" ++ hex 2 c.toNat
  else if isHighControl c then "\\u\x7b" ++ hex 1 c.toNat ++ "\x7d"
  else String.singleton c

/-- A text as a log shows it. -/
def showControls (text : String) : String := String.join (text.toList.map shown)

end RegLisp.Text
