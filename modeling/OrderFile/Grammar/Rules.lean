import OrderFile.Grammar.Pattern
import OrderFile.Coordinates
import OrderFile.Keyword

/-!
The rules of order files, as patterns.
-/

set_option autoImplicit false

namespace OrderFile.Grammar

open Pattern

/-- What can be carried. -/
def cargoKinds : List Token.Kind := [.population, .product, .research, .resource]

/-- What can be built. -/
def materialKinds : List Token.Kind := [.product, .research]

def numberKinds : List Token.Kind := [.float, .integer]

def cargo : Pattern := rule "cargo" (anyOf cargoKinds)

def material : Pattern := rule "material" (anyOf materialKinds)

def number : Pattern := rule "number" (anyOf numberKinds)

/-- A star system, and perhaps the number of an orbit. -/
def coordinate : Pattern :=
  rule "coordinate" <| sequence
    [kind .parenOpen, kind .integer, kind .comma, kind .integer, kind .comma, kind .integer,
      optional (seq (kind .comma) (integerIn 1 maxOrbit)), kind .parenClose]

/-- A line of a setup order. -/
def transferDetail : Pattern :=
  rule "xfer_detail" <| sequence [kind .integer, cargo, kind .eol]

/-- What is traded. Research is traded one at a time, products by quantity. -/
def tradeItem : Pattern :=
  choice (kind .research) (seq (kind .product) (kind .integer))

/-- What follows the keyword of an order. -/
def operands : Keyword → List Pattern
  | .assemble =>
    [kind .integer, optional (anyOf [.depositId, .factoryGroupId, .mineGroupId]), kind .integer,
      material, kind .eol]
  | .bombard | .invade => [kind .integer, kind .integer, kind .percentage, kind .eol]
  | .buy | .sell => [kind .integer, tradeItem, number, kind .eol]
  | .disassemble =>
    [kind .integer, optional (anyOf [.factoryGroupId, .mineGroupId]), kind .integer, material,
      kind .eol]
  | .move => [kind .integer, coordinate, kind .eol]
  | .name => [kind .integer, kind .quotedText, kind .eol]
  | .news => [coordinate, kind .quotedText, optional (kind .quotedText), kind .eol]
  | .pay => [optional (kind .integer), kind .population, number, kind .eol]
  | .probe => [kind .integer, optional (choice (kind .integer) coordinate), kind .eol]
  | .raid => [kind .integer, kind .integer, kind .percentage, cargo, kind .eol]
  | .ration => [optional (kind .integer), kind .percentage, kind .eol]
  | .retool => [kind .integer, kind .factoryGroupId, material, kind .eol]
  | .setup =>
    [kind .integer, coordinate, oneWord ["ship", "colony"], word "transfer", kind .eol,
      repeated transferDetail "end", word "end", kind .eol]
  | .support =>
    [kind .integer, kind .integer, optional (kind .integer), kind .percentage, kind .eol]
  | .survey => [kind .integer, kind .eol]
  | .transfer => [kind .integer, kind .integer, cargo, kind .integer, kind .eol]

/-- The rule of a keyword, which starts with that word. -/
def command (k : Keyword) : Pattern :=
  rule k.word (sequence (word k.word :: operands k))

/-- One order: the rule of the keyword that comes next, and no other rule. -/
def order (p : Parse) : Bool × Parse :=
  p.within "order" fun p ↦
    match p.next?.bind Keyword.ofToken? with
    | some k => (command k).follow p
    | none => (false, p)

/-- Takes tokens up to the end of a line, at most the given number. -/
def skipLine : Nat → Parse → Bool × Parse
  | 0, p => (false, p)
  | n + 1, p =>
    if p.sees [.eol, .eof] then (true, p)
    else
      match p.advance with
      | (true, p) => skipLine n p
      | (false, p) => (false, p)

/-- A line that is not an order, whatever it holds. -/
def unknown (p : Parse) : Bool × Parse :=
  p.within "unknown" fun p ↦
    match skipLine (p.remaining + 1) p with
    | (true, p) => p.acceptKind .eol
    | (false, p) => (false, p)

/-- One line of a file: an order, an empty line or, unless the parse is to stop there, a line that
is neither. -/
def line (stop : Bool) (p : Parse) : Bool × Parse :=
  match order p with
  | (true, p) => (true, p)
  | (false, p) =>
    match p.acceptKind .eol with
    | (true, p) => (true, p)
    | (false, p) => if stop then (false, p) else unknown p

/-- Lines up to the end token, at most the given number. -/
def lines (stop : Bool) : Nat → Parse → Bool × Parse
  | 0, p => (false, p)
  | n + 1, p =>
    if p.sees [.eof] then (true, p)
    else
      match line stop p with
      | (true, p) => lines stop n p
      | (false, p) => (false, p)

/-- A whole file. Every line takes a token, so the number of tokens left bounds the lines. -/
def orders (stop : Bool) (p : Parse) : Bool × Parse :=
  p.within "orders" fun p ↦
    match lines stop (p.remaining + 1) p with
    | (true, p) => p.acceptKind .eof
    | (false, p) => (false, p)

end OrderFile.Grammar
