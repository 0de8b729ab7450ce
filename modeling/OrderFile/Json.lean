import OrderFile.Decimal.Layout

/-!
JSON documents whose objects keep the order of their fields, and their compact and indented texts.
-/

set_option autoImplicit false

namespace OrderFile

inductive Json where
  | null
  | bool (value : Bool)
  | int (value : Int)
  | float (value : Float)
  | str (value : String)
  | arr (items : List Json)
  | obj (fields : List (String × Json))

namespace Json

/-- The value, or null where there is none. -/
def ofOption {α : Type} (encode : α → Json) : Option α → Json
  | none => null
  | some a => encode a

def ofNat (n : Nat) : Json := int n

/-- A value under a name. -/
def tagged (name : String) (value : Json) : Json :=
  obj [(name, value)]

/-- How one character is written in a JSON string. -/
def escape (c : Char) : List Char :=
  if c = '"' then ['\\', '"']
  else if c = '\\' then ['\\', '\\']
  else if c = '\x08' then ['\\', 'b']
  else if c = '\x0c' then ['\\', 'f']
  else if c = '\n' then ['\\', 'n']
  else if c = '\r' then ['\\', 'r']
  else if c = '\t' then ['\\', 't']
  else if c.toNat < 0x20 then
    ['\\', 'u', '0', '0', Nat.digitChar (c.toNat / 16), Nat.digitChar (c.toNat % 16)]
  else [c]

def quote (text : String) : String :=
  String.ofList ('"' :: text.toList.flatMap escape ++ ['"'])

/-- The text of a number; null for one that is not finite. -/
def number (x : Float) : String :=
  (Decimal.json.text? x).getD "null"

/-- How the items of a document are laid out: on one line, or one to a line with an indent of two
spaces per level. -/
inductive Spacing where
  | compact
  | indented (level : Nat)

/-- The spacing one level deeper. -/
def Spacing.deeper : Spacing → Spacing
  | compact => compact
  | indented level => indented (level + 1)

/-- What stands before an item or a closing bracket at a level. -/
def Spacing.lineStart : Spacing → String
  | compact => ""
  | indented level => "\n" ++ String.ofList (List.replicate (2 * level) ' ')

/-- What stands between a key and its value. -/
def Spacing.colon : Spacing → String
  | compact => ":"
  | indented _ => ": "

/-- Items between brackets, each at the start of a line of its own. Empty brackets hold nothing. -/
def enclose (spacing : Spacing) (opening closing : String) (items : List String) : String :=
  if items.isEmpty then opening ++ closing
  else
    let start := spacing.deeper.lineStart
    opening ++ start ++ String.intercalate ("," ++ start) items ++ spacing.lineStart ++ closing

mutual

/-- The text of a document. -/
def render (spacing : Spacing) : Json → String
  | null => "null"
  | bool true => "true"
  | bool false => "false"
  | int n => toString n
  | float x => number x
  | str text => quote text
  | arr items => enclose spacing "[" "]" (renderItems spacing.deeper items)
  | obj fields => enclose spacing "\x7b" "\x7d" (renderFields spacing.deeper fields)

def renderItems (spacing : Spacing) : List Json → List String
  | [] => []
  | item :: items => item.render spacing :: renderItems spacing items

def renderFields (spacing : Spacing) : List (String × Json) → List String
  | [] => []
  | (key, value) :: fields =>
    (quote key ++ spacing.colon ++ value.render spacing) :: renderFields spacing fields

end

mutual

/-- The document with the fields of every object sorted by key. -/
def sortKeys : Json → Json
  | arr items => arr (sortItems items)
  | obj fields => obj ((sortFields fields).mergeSort fun a b ↦ a.1 ≤ b.1)
  | scalar => scalar

def sortItems : List Json → List Json
  | [] => []
  | item :: items => item.sortKeys :: sortItems items

def sortFields : List (String × Json) → List (String × Json)
  | [] => []
  | (key, value) :: fields => (key, value.sortKeys) :: sortFields fields

end

def compact (document : Json) : String :=
  document.render .compact

def indented (document : Json) : String :=
  document.render (.indented 0)

end Json

end OrderFile
