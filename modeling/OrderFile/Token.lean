import OrderFile.Material
import OrderFile.Text.Caseless
import OrderFile.Text.Quoted

/-!
The tokens of an order file: where each stands, what it is, its text and the value it carries.
-/

set_option autoImplicit false

namespace OrderFile

/-- What a token is. The last seven kinds are words of the game's vocabulary. -/
inductive Token.Kind where
  | eof
  | eol
  | comma
  | parenOpen
  | parenClose
  | comment
  | spaces
  | integer
  | float
  | percentage
  | text
  | quotedText
  | population
  | resource
  | research
  | product
  | depositId
  | factoryGroupId
  | mineGroupId
  deriving DecidableEq, Inhabited

namespace Token.Kind

/-- Every kind. -/
def all : List Kind :=
  [eof, eol, comma, parenOpen, parenClose, comment, spaces, integer, float, percentage, text,
    quotedText, population, resource, research, product, depositId, factoryGroupId, mineGroupId]

/-- The name of the kind in the grammar and in messages. -/
def name : Kind → String
  | eof => "EOF"
  | eol => "EOL"
  | comma => "COMMA"
  | parenOpen => "PARENOP"
  | parenClose => "PARENCL"
  | comment => "COMMENT"
  | spaces => "SPACES"
  | integer => "INTEGER"
  | float => "FLOAT"
  | percentage => "PERCENTAGE"
  | text => "TEXT"
  | quotedText => "QUOTED_TEXT"
  | population => "POPULATION"
  | resource => "RESOURCE"
  | research => "RESEARCH"
  | product => "PRODUCT"
  | depositId => "DEPOSIT_ID"
  | factoryGroupId => "FACTORY_GROUP_ID"
  | mineGroupId => "MINE_GROUP_ID"

/-- The name of the kind in JSON documents. -/
def tag : Kind → String
  | eof => "Eof"
  | eol => "Eol"
  | comma => "Comma"
  | parenOpen => "ParenOp"
  | parenClose => "ParenCl"
  | comment => "Comment"
  | spaces => "Spaces"
  | integer => "Integer"
  | float => "Float"
  | percentage => "Percentage"
  | text => "Text"
  | quotedText => "QuotedText"
  | population => "Population"
  | resource => "Resource"
  | research => "Research"
  | product => "Product"
  | depositId => "DepositId"
  | factoryGroupId => "FactoryGroupId"
  | mineGroupId => "MineGroupId"

/-- Comments and spaces separate tokens and mean nothing. -/
def isTrivia : Kind → Bool
  | comment | spaces => true
  | _ => false

/-- Several kinds as one expectation. -/
def joinedNames (kinds : List Kind) : String :=
  String.intercalate " | " (kinds.map name)

end Token.Kind

/-- The value a token carries. -/
inductive Payload where
  | none
  | text (value : String)
  | integer (value : Int64)
  | float (value : Float)
  | material (value : Material)
  deriving DecidableEq, Inhabited

def Payload.toJson : Payload → Json
  | none => .str "None"
  | text s => .tagged "Text" (.str s)
  | integer n => .tagged "Integer" (.int n.toInt)
  | float x => .tagged "Float" (.float x)
  | material m => .tagged "Material" m.toJson

structure Token where
  line : UInt32
  kind : Token.Kind
  lexeme : String
  payload : Payload
  deriving DecidableEq, Inhabited

namespace Token

/-- A line end that is not in the text. -/
def impliedEol (line : UInt32) : Token := ⟨line, .eol, "", .none⟩

def eof (line : UInt32) : Token := ⟨line, .eof, "", .none⟩

def integer? (t : Token) : Option Int64 :=
  match t.payload with
  | .integer n => some n
  | _ => none

/-- The value of an integer or floating point payload. -/
def number? (t : Token) : Option Float :=
  match t.payload with
  | .float x => some x
  | .integer n => some n.toFloat
  | _ => none

def text? (t : Token) : Option String :=
  match t.payload with
  | .text s => some s
  | _ => none

def material? (t : Token) : Option Material :=
  match t.payload with
  | .material m => some m
  | _ => none

/-- Whether the token is a plain word that spells the given one in any case. -/
def spells (t : Token) (word : String) : Bool :=
  t.kind == .text && sameWord t.lexeme word

theorem kind_of_spells {t : Token} {word : String} (h : t.spells word = true) : t.kind = .text := by
  rw [spells, Bool.and_eq_true, beq_iff_eq] at h
  exact h.1

/-- How a listing shows what stands at the token's place. -/
def shown (t : Token) : String :=
  match t.kind with
  | .eof => "$$"
  | .eol => "'\\n'"
  | .comma => "','"
  | .parenOpen => "'('"
  | .parenClose => "')'"
  | .comment => ";..."
  | .spaces => "..."
  | .text => Quoted.quote t.lexeme
  | .quotedText => "`" ++ t.text?.getD "" ++ "`"
  | _ => t.lexeme

/-- The token in messages and listings: its line and what stands there, in braces. -/
def display (t : Token) : String :=
  "\x7b" ++ toString t.line ++ " " ++ t.shown ++ "\x7d"

def toJson (t : Token) : Json :=
  .obj [("line", .ofNat t.line.toNat), ("kind", .str t.kind.tag), ("lexeme", .str t.lexeme),
    ("payload", t.payload.toJson)]

end Token

end OrderFile
