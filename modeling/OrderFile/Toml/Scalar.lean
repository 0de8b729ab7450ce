import OrderFile.Decimal.Digits
import OrderFile.Toml.Value

/-!
The values of TOML that hold no other values. Each reader takes its value off the front of a text
and gives the text after it, or nothing if no such value stands there.
-/

set_option autoImplicit false

namespace OrderFile.Toml

/-- A reader of something at the front of a text. -/
abbrev Reader (α : Type) := List Char → Option (α × List Char)

def isSpace (c : Char) : Bool := c == ' ' || c == '\t'

def skipSpaces (text : List Char) : List Char := text.dropWhile isSpace

/-- The text after a fixed front. -/
def after? (front : String) (text : List Char) : Option (List Char) :=
  front.toList.isPrefixOf? text

/-- The text after a line end. -/
def afterLineEnd? : List Char → Option (List Char)
  | '\n' :: text => some text
  | '\r' :: '\n' :: text => some text
  | _ => none

/-- Characters that stand for themselves in comments and strings: tabs and whatever is not an ASCII
control. -/
def isPlain (c : Char) : Bool :=
  c == '\t' || 0x20 ≤ c.toNat && c.toNat != 0x7F

/-! ### Strings -/

/-- The value of hexadecimal digits. -/
def hexValue? (digits : List Char) : Option Nat :=
  digits.foldlM (fun n c ↦
    if c.isDigit then some (16 * n + (c.toNat - '0'.toNat))
    else if 'a' ≤ c.toLower ∧ c.toLower ≤ 'f' then some (16 * n + (c.toLower.toNat - 'a'.toNat + 10))
    else none) 0

/-- A character by its code point in exactly so many digits. -/
def codePoint (width : Nat) : Reader Char := fun text ↦ do
  let digits := text.take width
  if digits.length < width then none
  else
    let n ← hexValue? digits
    if n.isValidChar then some (Char.ofNat n, text.drop width) else none

/-- The character an escape stands for, after its backslash. -/
def escape : Reader Char
  | 'b' :: text => some ('\x08', text)
  | 't' :: text => some ('\t', text)
  | 'n' :: text => some ('\n', text)
  | 'f' :: text => some ('\x0c', text)
  | 'r' :: text => some ('\r', text)
  | '"' :: text => some ('"', text)
  | '\\' :: text => some ('\\', text)
  | 'u' :: text => codePoint 4 text
  | 'U' :: text => codePoint 8 text
  | _ => none

/-- The text after spaces and line ends, at least one line end among them, as a backslash at the
end of a line joins it to the next. -/
def afterJoinedLines? (text : List Char) : Option (List Char) := do
  let text ← afterLineEnd? (skipSpaces text)
  return skip text.length text
where
  /-- The text after spaces and line ends. -/
  skip : Nat → List Char → List Char
    | 0, text => text
    | n + 1, text =>
      match afterLineEnd? (skipSpaces text) with
      | some text => skip n text
      | none => skipSpaces text

/-- How a kind of string is written. -/
structure StringForm where
  quote : Char
  /-- Backslashes start escapes. -/
  escapes : Bool
  /-- The string may go over lines and ends at three quotes. -/
  multiline : Bool

/-- The number of quotes at the front of a text. -/
def leadingQuotes (quote : Char) (text : List Char) : Nat :=
  (text.takeWhile (· == quote)).length

/-- The rest of a string up to its closing quotes. Up to two quotes may stand right before those
of a string that goes over lines. Every step takes a character, so the length of the text bounds
the steps. -/
def stringRest (form : StringForm) : Nat → Reader (List Char)
  | 0, _ => none
  | n + 1, text =>
    let quotes := leadingQuotes form.quote text
    if form.multiline ∧ 3 ≤ quotes then
      if 5 < quotes then none
      else some (List.replicate (quotes - 3) form.quote, text.drop quotes)
    else
      match text with
      | [] => none
      | c :: rest =>
        if c = form.quote ∧ !form.multiline then some ([], rest)
        else if c = '\\' ∧ form.escapes then
          match if form.multiline then afterJoinedLines? rest else none with
          | some rest => stringRest form n rest
          | none => do
            let (c, rest) ← escape rest
            let (more, rest) ← stringRest form n rest
            return (c :: more, rest)
        else
          match if form.multiline then afterLineEnd? text else none with
          | some rest => do
            let (more, rest) ← stringRest form n rest
            return ('\n' :: more, rest)
          | none =>
            if isPlain c then do
              let (more, rest) ← stringRest form n rest
              return (c :: more, rest)
            else none

/-- A string of a form. A line end right after three opening quotes is not part of it. -/
def stringOf (form : StringForm) : Reader String := fun text ↦ do
  let opening := String.ofList (List.replicate (if form.multiline then 3 else 1) form.quote)
  let text ← after? opening text
  let text := if form.multiline then (afterLineEnd? text).getD text else text
  let (value, rest) ← stringRest form (text.length + 1) text
  return (String.ofList value, rest)

/-- A string on one line. -/
def lineString : Reader String := fun text ↦
  stringOf ⟨'"', true, false⟩ text <|> stringOf ⟨'\'', false, false⟩ text

def string : Reader String := fun text ↦
  if (after? "\"\"\"" text).isSome then stringOf ⟨'"', true, true⟩ text
  else if (after? "'''" text).isSome then stringOf ⟨'\'', false, true⟩ text
  else lineString text

/-! ### Numbers -/

/-- Digits of a class, with single underscores between digits; the underscores are left out. -/
def digitRun (isDigit : Char → Bool) : Reader (List Char)
  | [] => none
  | c :: text => if isDigit c then some (more c text) else none
where
  /-- The run after a digit. -/
  more (last : Char) : List Char → List Char × List Char
    | '_' :: c :: text =>
      if isDigit c then
        let (digits, rest) := more c text
        (last :: digits, rest)
      else ([last], '_' :: c :: text)
    | c :: text =>
      if isDigit c then
        let (digits, rest) := more c text
        (last :: digits, rest)
      else ([last], c :: text)
    | [] => ([last], [])

/-- Whether a number is negative, by its optional sign. -/
def sign : List Char → Bool × List Char
  | '-' :: text => (true, text)
  | '+' :: text => (false, text)
  | text => (false, text)

/-- The value of digits, letters among them, in a base. -/
def valueIn (base : Nat) (digits : List Char) : Nat :=
  digits.foldl (fun n c ↦
    base * n + (if c.isDigit then c.toNat - '0'.toNat else c.toLower.toNat - 'a'.toNat + 10)) 0

/-- A run of decimal digits that starts with zero only if it is just that. -/
def wholeDigits : Reader (List Char)
  | '0' :: text => some (['0'], text)
  | text => digitRun Char.isDigit text

/-- An integer that fits in 64 bits: decimal with an optional sign, or in another base after its
mark. -/
def integer : Reader Int64 := fun text ↦ do
  let (negative, digits, base, rest) ← literal text
  let size : Int := valueIn base digits
  return (← int64? (if negative then -size else size), rest)
where
  /-- The sign, digits and base of an integer. -/
  literal : List Char → Option (Bool × List Char × Nat × List Char)
    | '0' :: 'x' :: text =>
      (digitRun (fun c ↦ c.isDigit || 'a' ≤ c.toLower && c.toLower ≤ 'f') text).map
        fun (digits, rest) ↦ (false, digits, 16, rest)
    | '0' :: 'o' :: text =>
      (digitRun (fun c ↦ '0' ≤ c && c ≤ '7') text).map fun (digits, rest) ↦ (false, digits, 8, rest)
    | '0' :: 'b' :: text =>
      (digitRun (fun c ↦ c == '0' || c == '1') text).map fun (digits, rest) ↦ (false, digits, 2, rest)
    | text =>
      let (negative, text) := sign text
      (wholeDigits text).map fun (digits, rest) ↦ (negative, digits, 10, rest)

/-- The nearest floating point number to `coefficient * 10 ^ exponent`. Exponents far outside the
range of such numbers are not computed with. -/
def nearestFloat (coefficient : Nat) (exponent : Int) : Float :=
  let place := exponent + (Nat.toDigits 10 coefficient).length
  if coefficient = 0 ∨ place < -400 then 0
  else if 400 < place then 1 / 0
  else .ofScientific coefficient (exponent < 0) exponent.natAbs

/-- The digits after a point. -/
def fraction : Reader (List Char)
  | '.' :: text => digitRun Char.isDigit text
  | _ => none

/-- The value after an exponent mark. -/
def exponent : Reader Int
  | c :: text => do
    if c = 'e' ∨ c = 'E' then
      let (negative, text) := sign text
      let (digits, rest) ← digitRun Char.isDigit text
      let size : Int := digitsValue digits
      return (if negative then -size else size, rest)
    else none
  | [] => none

/-- A decimal with a fraction or an exponent or both, an infinity or what is not a number. One that
is too large is none, unless it is negative. -/
def float : Reader Float := fun text ↦ do
  let (negative, unsigned) := sign text
  let signed (size : Float) : Float := if negative then -size else size
  if let some rest := after? "inf" unsigned then return (signed (1 / 0), rest)
  if let some rest := after? "nan" unsigned then return (signed (0 / 0), rest)
  let (whole, rest) ← wholeDigits unsigned
  let decimals := fraction rest
  let (places, rest) := decimals.getD ([], rest)
  let scale := exponent rest
  let (power, rest) := scale.getD (0, rest)
  if decimals.isNone ∧ scale.isNone then none
  let value := signed (nearestFloat (digitsValue (whole ++ places)) (power - places.length))
  if value.isInf ∧ !negative then none else return (value, rest)

/-! ### Dates and times -/

/-- Exactly so many digits, with a value in a range. -/
def fixedDigits (width low high : Nat) : Reader Nat := fun text ↦
  let digits := text.take width
  let value := digitsValue digits
  if digits.length = width ∧ digits.all Char.isDigit ∧ low ≤ value ∧ value ≤ high then
    some (value, text.drop width)
  else none

def daysInMonth (year month : Nat) : Nat :=
  if month = 2 then
    if year % 4 = 0 ∧ (year % 100 ≠ 0 ∨ year % 400 = 0) then 29 else 28
  else if month ∈ [4, 6, 9, 11] then 30
  else 31

/-- The text after a date. -/
def afterDate? (text : List Char) : Option (List Char) := do
  let (year, text) ← fixedDigits 4 0 9999 text
  let (month, text) ← fixedDigits 2 1 12 (← after? "-" text)
  let (_, text) ← fixedDigits 2 1 (daysInMonth year month) (← after? "-" text)
  return text

/-- The text after hours and minutes. -/
def afterMinutes? (text : List Char) : Option (List Char) := do
  let (_, text) ← fixedDigits 2 0 23 text
  let (_, text) ← fixedDigits 2 0 59 (← after? ":" text)
  return text

/-- The text after a time of day, which may have a fraction of a second. -/
def afterTime? (text : List Char) : Option (List Char) := do
  let text ← afterMinutes? text
  let (_, text) ← fixedDigits 2 0 60 (← after? ":" text)
  match text with
  | '.' :: d :: text =>
    if d.isDigit then return text.dropWhile Char.isDigit else return '.' :: d :: text
  | text => return text

/-- The text after an offset from universal time, if there is one. -/
def afterOffset (text : List Char) : List Char :=
  match text with
  | 'Z' :: text => text
  | 'z' :: text => text
  | '+' :: rest => (afterMinutes? rest).getD text
  | '-' :: rest => (afterMinutes? rest).getD text
  | text => text

/-- The text after a date, a time or both. -/
def afterDatetime? (text : List Char) : Option (List Char) :=
  match afterDate? text with
  | none => afterTime? text
  | some rest =>
    match rest with
    | c :: time =>
      if c = 'T' ∨ c = 't' ∨ c = ' ' then some ((afterTime? time).elim rest afterOffset)
      else some rest
    | [] => some []

/-- A value that holds no other values. -/
def scalar : Reader Value := fun text ↦
  (after? "true" text).map (Value.boolean true, ·)
    <|> (after? "false" text).map (Value.boolean false, ·)
    <|> (string text).map (fun (s, rest) ↦ (.string s, rest))
    <|> (afterDatetime? text).map (Value.datetime, ·)
    <|> (float text).map (fun (x, rest) ↦ (.float x, rest))
    <|> (integer text).map (fun (n, rest) ↦ (.integer n, rest))

end OrderFile.Toml
