import OrderFile.Complaint
import OrderFile.Coordinates
import OrderFile.Keyword

/-!
Orders: the commands a player can give, with their values, the line each was given on and what is
wrong with it. A line that is no order is kept as an unknown command.
-/

set_option autoImplicit false

namespace OrderFile

/-- A deposit, or a group of factories or mines. -/
inductive GroupRef where
  | deposit (number : Int64)
  | factoryGroup (number : Int64)
  | mineGroup (number : Int64)
  deriving DecidableEq

def GroupRef.display : GroupRef → String
  | deposit n => "dp-" ++ toString n
  | factoryGroup n => "fg-" ++ toString n
  | mineGroup n => "mg-" ++ toString n

def GroupRef.toJson : GroupRef → Json
  | deposit n => .tagged "Deposit" (.int n.toInt)
  | factoryGroup n => .tagged "FactoryGroup" (.int n.toInt)
  | mineGroup n => .tagged "MineGroup" (.int n.toInt)

/-- What a probe is sent to. -/
inductive ProbeTarget where
  | orbit (number : Int64)
  | system (location : Coordinates)
  deriving DecidableEq

def ProbeTarget.display : ProbeTarget → String
  | orbit n => toString n
  | system location => location.display

def ProbeTarget.toJson : ProbeTarget → Json
  | orbit n => .tagged "Orbit" (.int n.toInt)
  | system location => .tagged "System" location.toJson

/-- What a setup order founds. -/
inductive SetupKind where
  | colony
  | ship
  deriving DecidableEq, Inhabited

def SetupKind.word : SetupKind → String
  | colony => "colony"
  | ship => "ship"

/-- What a setup order moves to the place it founds. -/
structure TransferItem where
  material : Material
  quantity : Int64
  deriving DecidableEq

def TransferItem.toJson (item : TransferItem) : Json :=
  .obj [("material", item.material.toJson), ("quantity", .int item.quantity.toInt)]

/-- What an order asks for. Percentages and ids may be out of range: the order says so. -/
inductive Command where
  | assemble (id : Int64) (group : Option GroupRef) (quantity : Int64) (material : Material)
  | bombard (id targetId pctCommitted : Int64)
  | buy (id quantity : Int64) (material : Material) (bid : Float)
  | disassemble (id : Int64) (group : Option GroupRef) (quantity : Int64) (material : Material)
  | invade (id targetId pctCommitted : Int64)
  | move (id : Int64) (location : Coordinates)
  | name (id : Int64) (name : String)
  | news (location : Coordinates) (article : String) (signature : Option String)
  | pay (id : Option Int64) (profession : Material) (rate : Float)
  | probe (id : Int64) (target : Option ProbeTarget)
  | raid (id targetId pctCommitted : Int64) (material : Material)
  | ration (id : Option Int64) (pct : Int64)
  | retool (id factoryGroup : Int64) (material : Material)
  | sell (id quantity : Int64) (material : Material) (ask : Float)
  | setup (id : Int64) (location : Coordinates) (kind : SetupKind) (items : List TransferItem)
  | supportAttack (id supportId targetId pctCommitted : Int64)
  | supportDefend (id supportId pctCommitted : Int64)
  | survey (id : Int64)
  | transfer (id quantity : Int64) (material : Material) (targetId : Int64)
  | unknown (text : String)
  deriving DecidableEq

namespace Command

def keyword? : Command → Option Keyword
  | assemble .. => some .assemble
  | bombard .. => some .bombard
  | buy .. => some .buy
  | disassemble .. => some .disassemble
  | invade .. => some .invade
  | move .. => some .move
  | name .. => some .name
  | news .. => some .news
  | pay .. => some .pay
  | probe .. => some .probe
  | raid .. => some .raid
  | ration .. => some .ration
  | retool .. => some .retool
  | sell .. => some .sell
  | setup .. => some .setup
  | supportAttack .. => some .support
  | supportDefend .. => some .support
  | survey .. => some .survey
  | transfer .. => some .transfer
  | unknown _ => none

/-- The name of the command in JSON documents. -/
def tag : Command → String
  | supportAttack .. => "support_attack"
  | supportDefend .. => "support_defend"
  | unknown _ => "unknown"
  | command => (command.keyword?.map Keyword.word).getD ""

def isUnknown : Command → Bool
  | unknown _ => true
  | _ => false

/-- A percentage as it is written. -/
def percent (pct : Int64) : String :=
  toString pct ++ "%"

/-- A traded material as it is written; research has no quantity. -/
def tradeWords (quantity : Int64) (material : Material) : List String :=
  material.display :: if material.isResearch then [] else [toString quantity]

/-- The words of a command after its keyword. -/
def operandWords : Command → List String
  | assemble id group quantity material
  | disassemble id group quantity material =>
    [toString id] ++ (group.map GroupRef.display).toList ++ [toString quantity, material.display]
  | bombard id targetId pct
  | invade id targetId pct => [toString id, toString targetId, percent pct]
  | buy id quantity material price
  | sell id quantity material price =>
    [toString id] ++ tradeWords quantity material ++ [Decimal.display price]
  | move id location => [toString id, location.display]
  | name id text => [toString id, Quoted.quote text]
  | news location article signature =>
    [location.display, Quoted.quote article] ++ (signature.map Quoted.quote).toList
  | pay id profession rate =>
    (id.map toString).toList ++ [profession.display, Decimal.display rate]
  | probe id target => [toString id] ++ (target.map ProbeTarget.display).toList
  | raid id targetId pct material =>
    [toString id, toString targetId, percent pct, material.display]
  | ration id pct => (id.map toString).toList ++ [percent pct]
  | retool id factoryGroup material =>
    [toString id, (GroupRef.factoryGroup factoryGroup).display, material.display]
  | setup id location kind items =>
    [toString id, location.display, kind.word, "transfer"] ++
      items.map fun item ↦ "[" ++ toString item.quantity ++ " " ++ item.material.display ++ "]"
  | supportAttack id supportId targetId pct =>
    [toString id, toString supportId, toString targetId, percent pct]
  | supportDefend id supportId pct => [toString id, toString supportId, percent pct]
  | survey id => [toString id]
  | transfer id quantity material targetId =>
    [toString id, toString quantity, material.display, toString targetId]
  | unknown text => [Quoted.quote text]

/-- The command on one line. -/
def display (command : Command) : String :=
  String.intercalate " " (command.keyword?.elim "unknown" Keyword.word :: command.operandWords)

private def int64 (n : Int64) : Json := .int n.toInt

/-- The values of a command, by name. -/
def fields : Command → List (String × Json)
  | assemble id group quantity material
  | disassemble id group quantity material =>
    [("id", int64 id), ("group", .ofOption GroupRef.toJson group), ("quantity", int64 quantity),
      ("material", material.toJson)]
  | bombard id targetId pct
  | invade id targetId pct =>
    [("id", int64 id), ("target_id", int64 targetId), ("pct_committed", int64 pct)]
  | buy id quantity material bid =>
    [("id", int64 id), ("quantity", int64 quantity), ("material", material.toJson),
      ("bid", .float bid)]
  | move id location => [("id", int64 id), ("location", location.toJson)]
  | name id text => [("id", int64 id), ("name", .str text)]
  | news location article signature =>
    [("location", location.toJson), ("article", .str article),
      ("signature", .ofOption .str signature)]
  | pay id profession rate =>
    [("id", .ofOption int64 id), ("profession", profession.toJson), ("rate", .float rate)]
  | probe id target => [("id", int64 id), ("target", .ofOption ProbeTarget.toJson target)]
  | raid id targetId pct material =>
    [("id", int64 id), ("target_id", int64 targetId), ("pct_committed", int64 pct),
      ("material", material.toJson)]
  | ration id pct => [("id", .ofOption int64 id), ("pct", int64 pct)]
  | retool id factoryGroup material =>
    [("id", int64 id), ("factory_group", int64 factoryGroup), ("material", material.toJson)]
  | sell id quantity material ask =>
    [("id", int64 id), ("quantity", int64 quantity), ("material", material.toJson),
      ("ask", .float ask)]
  | setup id location kind items =>
    [("id", int64 id), ("location", location.toJson), ("kind", .str kind.word),
      ("action", .str "transfer"), ("items", .arr (items.map TransferItem.toJson))]
  | supportAttack id supportId targetId pct =>
    [("id", int64 id), ("support_id", int64 supportId), ("target_id", int64 targetId),
      ("pct_committed", int64 pct)]
  | supportDefend id supportId pct =>
    [("id", int64 id), ("support_id", int64 supportId), ("pct_committed", int64 pct)]
  | survey id => [("id", int64 id)]
  | transfer id quantity material targetId =>
    [("id", int64 id), ("quantity", int64 quantity), ("material", material.toJson),
      ("target_id", int64 targetId)]
  | unknown text => [("command", .str text)]

end Command

/-- A command where it was given, with what is wrong with it. -/
structure Order where
  line : UInt32
  errors : List Complaint
  command : Command
  deriving DecidableEq

namespace Order

def keyword? (order : Order) : Option Keyword :=
  order.command.keyword?

def isUnknown (order : Order) : Bool :=
  order.command.isUnknown

def isValid (order : Order) : Bool :=
  order.errors.isEmpty

/-- The order on one line, after its line number. -/
def display (order : Order) : String :=
  toString order.line ++ ": " ++ order.command.display

/-- The order as a document. An unknown command has no list of errors. -/
def toJson (order : Order) : Json :=
  .obj <|
    [("order", .str order.command.tag), ("line", .ofNat order.line.toNat)] ++
      (if order.isUnknown then [] else [("errors", .arr (order.errors.map Complaint.toJson))]) ++
      order.command.fields

end Order

end OrderFile
