import OrderFile.Grammar.Rules
import OrderFile.Order
import OrderFile.Tree.Reader

/-!
Orders out of parse trees. Each command reads the children of its rule in the order in which the
grammar puts them there.
-/

set_option autoImplicit false

namespace OrderFile

open OrderFile.Tree (Read)
open OrderFile.Tree.Read

namespace Command

/-- The material a token stands for: its own, or one of the token's name. -/
def materialOf (t : Token) : Material :=
  t.material?.getD ⟨lowercase t.lexeme, none⟩

def groupOf? (t : Token) : Option GroupRef := do
  let n ← t.integer?
  match t.kind with
  | .depositId => some (.deposit n)
  | .factoryGroupId => some (.factoryGroup n)
  | .mineGroupId => some (.mineGroup n)
  | _ => none

def materialToken (kinds : List Token.Kind) : Read Material := do
  return ((← tokenOf? kinds).map materialOf).getD default

def material : Read Material := do
  return (← nested? "material" (materialToken Grammar.materialKinds)).getD default

def cargo : Read Material := do
  return (← nested? "cargo" (materialToken Grammar.cargoKinds)).getD default

def number : Read Float := do
  let value ← nested? "number" do
    return ((← tokenOf? Grammar.numberKinds).bind Token.number?).getD 0
  return value.getD 0

/-- An orbit number; zero stands for no orbit. -/
def orbit : Read Int64 := do
  let value ← integer
  checkRange "orbit" value 0 maxOrbit
  return value

/-- A place. One with an orbit that does not exist is read as its star system. -/
def location : Read Coordinates := do
  let place ← nested? "coordinate" do
    let _ ← token? .parenOpen
    let x ← integer
    let _ ← token? .comma
    let y ← integer
    let _ ← token? .comma
    let z ← integer
    let orbit ← match ← optional? [.comma] with
      | some _ => orbit
      | none => pure 0
    let _ ← token? .parenClose
    return (Coordinates.checked x y z orbit).toOption.getD (.system x y z)
  return place.getD default

def group? (kinds : List Token.Kind) : Read (Option GroupRef) := do
  return (← optional? kinds).bind groupOf?

/-- An id that may be left out. -/
def optionalId? : Read (Option Int64) := do
  let id := (← optional? [.integer]).bind Token.integer?
  if let some id := id then checkRange "id" id 0 Int64.maxValue
  return id

/-- A traded quantity and material. Research trades one unit. -/
def trade : Read (Int64 × Material) := do
  if (← peekKind?) = some .research then
    return (1, ← materialToken [.research])
  else
    let material ← materialToken Grammar.materialKinds
    return (← natural "quantity", material)

/-- A rate of pay, which should not be negative. -/
def rate : Read Float := do
  let rate ← number
  if rate < 0 then checkRange "rate" rate.floor.toInt64 0 Int64.maxValue
  return rate

def probeTarget? : Read (Option ProbeTarget) := do
  match ← peek? with
  | some (.leaf t) => if t.kind = .integer then return some (.orbit (← orbit)) else return none
  | some tree => if tree.isRule "coordinate" then return some (.system (← location)) else return none
  | none => return none

def transferItem : Read TransferItem := do
  let quantity ← natural "quantity"
  let material ← cargo
  eol
  return ⟨material, quantity⟩

/-- The lines of a setup order, as long as they come. -/
def transferItems : Read (List TransferItem) := do
  let (details, rest) := (← get).rest.span (·.isRule "xfer_detail")
  modify fun r ↦ { r with rest }
  details.mapM (inside · transferItem)

/-- What a command reads after its keyword. -/
def operands : Keyword → Read Command
  | .assemble =>
    return .assemble (← natural "id") (← group? [.depositId, .factoryGroupId, .mineGroupId])
      (← natural "quantity") (← material)
  | .bombard => return .bombard (← natural "id") (← natural "target_id") (← percentage "pct_committed")
  | .buy => do
    let id ← natural "id"
    let (quantity, material) ← trade
    return .buy id quantity material (← number)
  | .disassemble =>
    return .disassemble (← natural "id") (← group? [.factoryGroupId, .mineGroupId])
      (← natural "quantity") (← material)
  | .invade => return .invade (← natural "id") (← natural "target_id") (← percentage "pct_committed")
  | .move => return .move (← natural "id") (← location)
  | .name => return .name (← natural "id") (← quotedText)
  | .news =>
    return .news (← location) (← quotedText) ((← optional? [.quotedText]).bind Token.text?)
  | .pay => return .pay (← optionalId?) (← materialToken [.population]) (← rate)
  | .probe => return .probe (← natural "id") (← probeTarget?)
  | .raid =>
    return .raid (← natural "id") (← natural "target_id") (← percentage "pct_committed") (← cargo)
  | .ration => return .ration (← optionalId?) (← percentage "pct")
  | .retool =>
    return .retool (← natural "id") (((← token? .factoryGroupId).bind Token.integer?).getD 0)
      (← material)
  | .sell => do
    let id ← natural "id"
    let (quantity, material) ← trade
    return .sell id quantity material (← number)
  | .setup => do
    let id ← natural "id"
    let location ← location
    let kind := if (← wordOf? ["colony", "ship"]) = some 1 then SetupKind.ship else .colony
    word "transfer"
    eol
    let items ← transferItems
    word "end"
    return .setup id location kind items
  | .support => do
    let id ← natural "id"
    let supportId ← natural "support_id"
    if (← peekKind?) = some .integer then
      return .supportAttack id supportId (← natural "target_id") (← percentage "pct_committed")
    else return .supportDefend id supportId (← percentage "pct_committed")
  | .survey => return .survey (← natural "id")
  | .transfer =>
    return .transfer (← natural "id") (← natural "quantity") (← cargo) (← natural "target_id")

/-- A command and what is wrong with it, out of the rule of a keyword. -/
def read (k : Keyword) : Read (Command × List Complaint) := do
  word k.word
  let command ← operands k
  eol
  return (command, ← finish)

end Command

namespace Order

/-- The complaint about a node that is not an order. -/
def unexpected (tree : Tree) : Complaint :=
  ⟨tree.line?.getD 0, .unexpectedNode tree.describe⟩

/-- The order in an `order` node, if the node's first child is the rule of a keyword. -/
def ofTree (tree : Tree) : Except Complaint Order :=
  match tree.children.head? with
  | none => .error (unexpected tree)
  | some rule =>
    match rule.rule?.bind Keyword.ofWord? with
    | none => .error (unexpected rule)
    | some k =>
      let line := rule.line?.getD 0
      let (command, errors) := ((Command.read k).run (rule.reader line)).1
      .ok ⟨line, errors, command⟩

/-- The text of a line that is not an order. -/
def unknownText (tree : Tree) : String :=
  String.intercalate " " ((tree.tokens.filter (·.kind != .eol)).map (·.lexeme))

/-- What one child of an `orders` node comes to: an order, a complaint, or nothing for a line end. -/
def ofChild (tree : Tree) : Option (Except Complaint Order) :=
  match tree with
  | .leaf t => if t.kind = .eol ∨ t.kind = .eof then none else some (.error (unexpected tree))
  | .node rule _ =>
    if rule = "order" then some (ofTree tree)
    else if rule = "unknown" then some (.ok ⟨tree.line?.getD 0, [], .unknown (unknownText tree)⟩)
    else some (.error (unexpected tree))

/-- The complaints that come with the outcome of a child. -/
def complaints : Except Complaint Order → List Complaint
  | .ok order => order.errors
  | .error complaint => [complaint]

/-- The orders in an `orders` tree, and everything that is wrong with them. -/
def allOfTree (tree : Tree) : List Order × List Complaint :=
  if tree.isRule "orders" then
    let outcomes := tree.children.filterMap ofChild
    (outcomes.filterMap Except.toOption, outcomes.flatMap complaints)
  else ([], [unexpected tree])

end Order

end OrderFile
