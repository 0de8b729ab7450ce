import OrderFile.Toml.Scalar

/-!
TOML documents read from text. A text that is not a TOML document has no reading. This is the reader
that the program is run with. What is said of settings and of the command line is said for any
reader.
-/

set_option autoImplicit false

namespace OrderFile.Toml

/-- How deep arrays and inline tables may be nested, and how many parts a key may have. -/
def maxDepth : Nat := 79

/-! ### Keys -/

def isBareKeyChar (c : Char) : Bool :=
  c.isAlphanum || c == '-' || c == '_'

/-- One part of a key. -/
def keyPart : Reader String := fun text ↦
  match text.takeWhile isBareKeyChar with
  | [] => lineString text
  | name => some (String.ofList name, text.dropWhile isBareKeyChar)

/-- The parts of a key, with points between them, at most the given number. -/
def keyParts : Nat → Reader (List String)
  | 0, _ => none
  | n + 1, text => do
    let (part, text) ← keyPart (skipSpaces text)
    match skipSpaces text with
    | '.' :: text => do
      let (parts, text) ← keyParts n text
      return (part :: parts, text)
    | text => return ([part], text)

/-- A key: the parts before the last, and the last. -/
def key : Reader (List String × String) := fun text ↦ do
  let (parts, text) ← keyParts maxDepth text
  return ((parts.dropLast, ← parts.getLast?), text)

/-! ### Values -/

/-- The text after a comment, if one stands at the front. -/
def skipComment : List Char → List Char
  | '#' :: text => text.dropWhile isPlain
  | text => text

/-- The text after spaces, comments and line ends, at most the given number of lines. -/
def skipLines : Nat → List Char → List Char
  | 0, text => text
  | n + 1, text =>
    let text := skipSpaces text
    match afterLineEnd? (skipComment text) with
    | some text => skipLines n text
    | none => text

/-- The text after whatever may stand between the items of an array. -/
def skipBetween (text : List Char) : List Char :=
  skipLines (text.length + 1) text

/-- The items of an array after its opening bracket. Every item takes a character, so the length of
the text bounds their number. -/
def arrayItems (item : Reader Value) : Nat → Reader (List Value)
  | 0, _ => none
  | n + 1, text =>
    match skipBetween text with
    | ']' :: text => some ([], text)
    | text => do
      let (value, text) ← item text
      match skipBetween text with
      | ',' :: text => do
        let (values, text) ← arrayItems item n text
        return (value :: values, text)
      | ']' :: text => return ([value], text)
      | _ => none

/-- A key, an equals sign and a value. -/
def keyValue (value : Reader Value) : Reader ((List String × String) × Value) := fun text ↦ do
  let (key, text) ← key text
  let (value, text) ← value (skipSpaces (← after? "=" text))
  return ((key, value), text)

/-- The entries of an inline table after its first brace or a comma. -/
def inlineEntries (value : Reader Value) : Nat → Entries → Reader Entries
  | 0, _, _ => none
  | n + 1, entries, text => do
    let (((path, key), value'), text) ← keyValue value text
    let entries ← entries.insertDotted? path key value'
    match skipSpaces text with
    | ',' :: text => inlineEntries value n entries text
    | '\x7d' :: text => return (entries, text)
    | _ => none

/-- An inline table after its opening brace. -/
def inlineTable (value : Reader Value) : Reader Entries := fun text ↦
  match skipSpaces text with
  | '\x7d' :: text => some ([], text)
  | text => inlineEntries value (text.length + 1) [] text

/-- A value in which arrays and inline tables are nested at most so deep. -/
def value : Nat → Reader Value
  | depth, '[' :: text =>
    match depth with
    | 0 => none
    | d + 1 => (arrayItems (value d) (text.length + 1) text).map fun (items, rest) ↦
      (.array items, rest)
  | depth, '\x7b' :: text =>
    match depth with
    | 0 => none
    | d + 1 => (inlineTable (value d) text).map fun (entries, rest) ↦ (.table .inline entries, rest)
  | _, text => scalar text

/-! ### Documents -/

/-- The text after the end of a line, a comment before it left out; the end of the text also ends
its line. -/
def afterLine? (text : List Char) : Option (List Char) :=
  match skipComment (skipSpaces text) with
  | [] => some []
  | text => afterLineEnd? text

/-- The document after the line at the front of a text, and the text after that line. -/
def line (d : Document) : Reader Document := fun text ↦ do
  let text := skipSpaces text
  let (d, text) ← match text with
    | '[' :: '[' :: text => do
      let ((path, key), text) ← key text
      pure (← d.openElement? path key, ← after? "]]" text)
    | '[' :: text => do
      let ((path, key), text) ← key text
      pure (← d.openTable? path key, ← after? "]" text)
    | c :: _ =>
      if c = '#' ∨ c = '\n' ∨ c = '\r' then pure (d, text)
      else do
        let (((path, key), value), text) ← keyValue (value maxDepth) text
        pure (← d.insert? path key value, text)
    | [] => pure (d, text)
  return (d, ← afterLine? text)

/-- The document after the lines of a text, at most the given number. -/
def lines (d : Document) : Nat → List Char → Option Document
  | _, [] => some d
  | 0, _ => none
  | n + 1, text => do
    let (d, text) ← line d text
    lines d n text

/-- The root table of the document in a text. A byte order mark may stand in front. -/
def read? (text : String) : Option Entries := do
  let text := text.toList
  let text := if text.head? = some '\uFEFF' then text.tail else text
  let d ← lines .empty (text.length + 1) text
  d.close?

instance : Parser where
  parse text := (read? text).elim (.error "not a TOML document") .ok

end OrderFile.Toml
