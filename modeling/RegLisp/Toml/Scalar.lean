import RegLisp.Decimal.Numeral
import RegLisp.Text.Radix
import RegLisp.Toml.Basic

/-!
# Scalars of a configuration document

Strings in four kinds of quotes, numbers, truth values and dates. Each reader takes the front of
the text and gives back the rest.
-/

namespace RegLisp.Toml

/-- A reader of the front of a text. -/
abbrev Reads (α : Type) := List Char → Option (α × List Char)

def isSpace (c : Char) : Bool := c == ' ' || c == '\t'

def skipSpace (cs : List Char) : List Char := cs.dropWhile isSpace

/-- Whether a character may stand in a comment or, quotes and backslashes apart, in a string. -/
def isPlain (c : Char) : Bool := c == '\t' || (0x20 ≤ c.toNat && c.toNat != 0x7F)

/-- The rest of a text behind a line end. -/
def newline? : List Char → Option (List Char)
  | '\n' :: cs => some cs
  | '\r' :: '\n' :: cs => some cs
  | _ => none

/-- The character with a code point in hexadecimal digits. -/
def codePoint? (digits : List Char) : Option Char := do
  let n ← digits.foldlM (fun n c => (Text.hexDigit? c).map (16 * n + ·)) 0
  if n.isValidChar then some (Char.ofNat n) else none

/-- The character that a backslash and a letter stand for. -/
def shortEscape? : Char → Option Char
  | 'b' => some '\x08'
  | 't' => some '\t'
  | 'n' => some '\n'
  | 'f' => some '\x0c'
  | 'r' => some '\r'
  | '"' => some '"'
  | '\\' => some '\\'
  | _ => none

/-- The character of an escape behind its backslash. -/
def readEscape : Reads Char
  | 'u' :: a :: b :: c :: d :: cs => (codePoint? [a, b, c, d]).map (·, cs)
  | 'U' :: a :: b :: c :: d :: e :: f :: g :: h :: cs =>
    (codePoint? [a, b, c, d, e, f, g, h]).map (·, cs)
  | c :: cs => (shortEscape? c).map (·, cs)
  | [] => none

/-- The kind of quotes around a string. -/
structure Quotes where
  mark : Char
  /-- Whether there are three of them, and the string may have several lines. -/
  long : Bool
  deriving DecidableEq

/-- Whether backslashes are escapes. -/
def Quotes.escapes (q : Quotes) : Bool := q.mark == '"'

/-- Whether a backslash is followed by the end of its line. -/
def endsLine (cs : List Char) : Bool := (newline? (skipSpace cs)).isSome

/-- The end of a string: one mark, or three. Two more marks before three belong to the string. -/
def closing? (q : Quotes) (cs : List Char) : Option (List Char × List Char) :=
  let m := q.mark
  let run := (cs.takeWhile (· == m)).length
  if !q.long then if 1 ≤ run then some ([], cs.drop 1) else none
  else if run < 3 then none
  else
    let more := min run 5 - 3
    some (List.replicate more m, cs.drop (3 + more))

/-- Read a string up to its end. `text` is what has been read, backwards. After a backslash at the
end of a line, `trimming` leaves out white space. -/
def readQuoted (q : Quotes) : (fuel : Nat) → (trimming : Bool) → (text : List Char) → Reads String
  | 0, _, _, _ => none
  | fuel + 1, trimming, text, cs =>
    match newline? cs with
    | some rest =>
      if trimming then readQuoted q fuel true text rest
      else if q.long then readQuoted q fuel false ('\n' :: text) rest
      else none
    | none =>
      match closing? q cs, cs with
      | some (more, rest), _ => some (String.ofList (text.reverse ++ more), rest)
      | none, [] => none
      | none, c :: cs =>
        if trimming && isSpace c then readQuoted q fuel true text cs
        else if c == '\\' && q.escapes then
          if q.long && endsLine cs then readQuoted q fuel true text cs
          else
            match readEscape cs with
            | some (c, rest) => readQuoted q fuel false (c :: text) rest
            | none => none
        else if isPlain c then readQuoted q fuel false (c :: text) cs
        else none

/-- A string on one line. -/
def readLine (mark : Char) (cs : List Char) : Option (String × List Char) :=
  readQuoted ⟨mark, false⟩ (cs.length + 1) false [] cs

/-- A string in three quotes. A line end right behind them does not belong to it. -/
def readLong (mark : Char) (cs : List Char) : Option (String × List Char) :=
  readQuoted ⟨mark, true⟩ (cs.length + 1) false [] ((newline? cs).getD cs)

/-- A string in any quotes. -/
def readString : Reads String
  | '"' :: '"' :: '"' :: cs => readLong '"' cs
  | '\'' :: '\'' :: '\'' :: cs => readLong '\'' cs
  | '"' :: cs => readLine '"' cs
  | '\'' :: cs => readLine '\'' cs
  | _ => none

/-- More digits, which single underscores may separate. -/
def moreDigits (isDigit : Char → Bool) (digits : List Char) : Reads (List Char)
  | '_' :: c :: cs => if isDigit c then moreDigits isDigit (c :: digits) cs else none
  | c :: cs =>
    if isDigit c then moreDigits isDigit (c :: digits) cs
    else if c == '_' then none
    else some (digits.reverse, c :: cs)
  | [] => some (digits.reverse, [])

/-- At least one digit. -/
def readDigits (isDigit : Char → Bool) : Reads (List Char)
  | c :: cs => if isDigit c then moreDigits isDigit [c] cs else none
  | [] => none

/-- A whole number in base ten, which has no zero in front. -/
def readWhole : Reads (List Char)
  | '0' :: cs => some (['0'], cs)
  | cs => readDigits Char.isDigit cs

/-- The values that an integer may have. -/
def integer? (value : Int) : Option Node :=
  if Int64.minValue.toInt ≤ value && value ≤ Int64.maxValue.toInt then some (.integer value) else none

/-- A whole number in a base behind its mark. -/
def readRadix (base : Nat) (cs : List Char) : Option (Node × List Char) := do
  let (digits, rest) ← readDigits (fun c => ((Text.hexDigit? c).getD base) < base) cs
  let value := digits.foldl (fun n c => base * n + (Text.hexDigit? c).getD 0) 0
  return (← integer? value, rest)

/-- The power of ten at the end of a float. -/
def readPower (cs : List Char) : Option (Option Int × List Char) :=
  match cs with
  | c :: rest =>
    if c == 'e' || c == 'E' then do
      let (negative, rest) := Decimal.splitSign rest
      let (digits, rest) ← readDigits Char.isDigit rest
      let value : Int := Nat.ofDigitChars 10 digits 0
      return (some (if negative then -value else value), rest)
    else some (none, cs)
  | [] => some (none, [])

/-- A float is refused if it is so great that it would be rounded to infinity. -/
def float? (n : Decimal.Numeral) : Option Node :=
  if n.toBits .binary64 == Decimal.Format.binary64.infinity then none else some .float

/-- A number in base ten: a float if it has a point or a power. -/
def readDecimal (cs : List Char) : Option (Node × List Char) := do
  let (negative, cs) := Decimal.splitSign cs
  let (whole, rest) ← readWhole cs
  let (fraction, rest) ← match rest with
    | '.' :: rest => (readDigits Char.isDigit rest).map fun (digits, rest) => (some digits, rest)
    | rest => some (none, rest)
  let (power, rest) ← readPower rest
  let digits := Nat.ofDigitChars 10 (whole ++ fraction.getD []) 0
  let node ← if fraction.isNone && power.isNone then
      integer? (if negative then -(digits : Int) else digits)
    else float? { negative, digits, exponent := power.getD 0 - (fraction.getD []).length }
  return (node, rest)

/-- A number of two digits in a range. -/
def readTwo (least greatest : Nat) : Reads Nat
  | a :: b :: cs => do
    let n ← Text.readDecimal? [a, b]
    if least ≤ n && n ≤ greatest then some (n, cs) else none
  | _ => none

def readMark (mark : Char) : List Char → Option (List Char)
  | c :: cs => if c == mark then some cs else none
  | [] => none

/-- The rest of a text behind a time of day with its seconds. -/
def readTime (cs : List Char) : Option (List Char) := do
  let (_, cs) ← readTwo 0 23 cs
  let (_, cs) ← readTwo 0 59 (← readMark ':' cs)
  let (_, cs) ← readTwo 0 60 (← readMark ':' cs)
  match cs with
  | '.' :: rest =>
    if (rest.takeWhile Char.isDigit).isEmpty then some cs else some (rest.dropWhile Char.isDigit)
  | cs => some cs

/-- The rest of a text behind the distance of a time zone. -/
def readOffset (cs : List Char) : Option (List Char) :=
  match cs with
  | c :: rest =>
    if c == 'Z' || c == 'z' then some rest
    else if c == '+' || c == '-' then do
      let (_, rest) ← readTwo 0 23 rest
      let (_, rest) ← readTwo 0 59 (← readMark ':' rest)
      return rest
    else none
  | [] => none

def isLeapYear (year : Nat) : Bool := year % 4 == 0 && (year % 100 != 0 || year % 400 == 0)

def daysInMonth (year month : Nat) : Nat :=
  if month == 2 then if isLeapYear year then 29 else 28
  else if month == 4 || month == 6 || month == 9 || month == 11 then 30
  else 31

/-- The rest of a text behind a day. -/
def readDay (cs : List Char) : Option (List Char) := do
  let year ← Text.readDecimal? (cs.take 4)
  if (cs.take 4).length != 4 then none
  let (month, cs) ← readTwo 1 12 (← readMark '-' (cs.drop 4))
  let (_, cs) ← readTwo 1 (daysInMonth year month) (← readMark '-' cs)
  return cs

/-- A day with an optional time, or a time. -/
def readDate (cs : List Char) : Option (Node × List Char) :=
  match readDay cs with
  | none => (readTime cs).map (.date, ·)
  | some rest =>
    match rest with
    | c :: behind =>
      if c == 'T' || c == 't' || c == ' ' then
        match readTime behind with
        | some behind => some (.date, (readOffset behind).getD behind)
        | none => some (.date, rest)
      else some (.date, rest)
    | [] => some (.date, [])

/-- An infinite or undefined float. -/
def readSpecial (cs : List Char) : Option (Node × List Char) :=
  match (Decimal.splitSign cs).2 with
  | 'i' :: 'n' :: 'f' :: rest => some (.float, rest)
  | 'n' :: 'a' :: 'n' :: rest => some (.float, rest)
  | _ => none

/-- A value that is neither an array nor a table. -/
def readScalar (cs : List Char) : Option (Node × List Char) :=
  match cs with
  | '"' :: _ | '\'' :: _ => (readString cs).map fun (text, rest) => (.string text, rest)
  | 't' :: 'r' :: 'u' :: 'e' :: rest => some (.boolean true, rest)
  | 'f' :: 'a' :: 'l' :: 's' :: 'e' :: rest => some (.boolean false, rest)
  | '0' :: 'x' :: rest => readRadix 16 rest
  | '0' :: 'o' :: rest => readRadix 8 rest
  | '0' :: 'b' :: rest => readRadix 2 rest
  | cs => (readDate cs).or ((readSpecial cs).or (readDecimal cs))

end RegLisp.Toml
