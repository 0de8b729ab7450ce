import OrderFile.Options
import OrderFile.Order.OfTree
import OrderFile.Token.Prepared
import OrderFile.Token.Scan

/-!
An order file read: its orders and what is wrong with them, or the reason why it was rejected.
-/

set_option autoImplicit false

namespace OrderFile

structure Reading where
  orders : List Order
  /-- What is wrong with the orders, in their order. -/
  errors : List Complaint
  tree : Tree
  /-- The trace of the parse, if it was asked for. -/
  trace : Option Trace

structure Rejection where
  fault : Fault
  trace : Option Trace

namespace Reading

/-- Whether every line is an order and every order is in order. -/
def isClean (reading : Reading) : Bool :=
  reading.errors.isEmpty && !reading.orders.any Order.isUnknown

def validOrders (reading : Reading) : List Order :=
  reading.orders.filter fun order ↦ !order.isUnknown && order.isValid

/-- The lines that are not orders. -/
def unknownLines (reading : Reading) : List UInt32 :=
  (reading.orders.filter Order.isUnknown).map (·.line)

end Reading

/-- The parse of a token stream, which is prepared first. -/
def parseTokens (tokens : List Token) (options : Options) : Parse :=
  (Grammar.orders options.stopOnFirstError (Parse.start (Token.prepare tokens))).2

/-- Reads a token stream. -/
def readTokens (tokens : List Token) (options : Options) : Except Rejection Reading :=
  let parse := parseTokens tokens options
  match parse.tree with
  | none => .error ⟨parse.fault.getD ⟨.unexpected 0 "" "root rule did not run", none⟩, parse.trace⟩
  | some tree =>
    let (orders, errors) := Order.allOfTree tree
    .ok ⟨orders, errors, tree, if options.emitTrace then parse.trace else none⟩

/-- Reads a text. -/
def readText (text : List Char) (options : Options) : Except Rejection Reading :=
  readTokens (Token.scan text) options

/-- Reads a byte sequence. -/
def readBytes (bytes : List UInt8) (options : Options) : Except Rejection Reading :=
  readTokens (Token.ofBytes bytes) options

end OrderFile
