import OrderFile.Tree

/-!
The record of a parse. Every rule that was tried and every token that was tried leaves an entry,
whether it came to something or not.
-/

set_option autoImplicit false

namespace OrderFile

/-- What an entry of a trace records. -/
inductive Trace.Label where
  | rule (name : String) (succeeded : Bool)
  | attempt (expected : String) (found : Option Token) (matched : Bool)

inductive Trace where
  | entry (label : Trace.Label) (children : List Trace)

namespace Trace

/-- The label on one line. -/
def Label.display : Label → String
  | rule name succeeded => name ++ "(" ++ toString succeeded ++ ")"
  | attempt expected found matched =>
    (match found with
      | some token => token.display
      | none => "<none>") ++
    (if matched then " = " else " != ") ++ expected

def Label.succeeded : Label → Bool
  | rule _ succeeded => succeeded
  | attempt _ _ matched => matched

def Label.isRule : Label → Bool
  | rule _ _ => true
  | attempt _ _ _ => false

/-- A rule that failed. -/
def Label.isFailedRule : Label → Bool
  | rule _ false => true
  | _ => false

/-- An attempt at a token that succeeded. -/
def Label.isMatch : Label → Bool
  | attempt _ _ true => true
  | _ => false

def label : Trace → Label
  | entry label _ => label

def children : Trace → List Trace
  | entry _ children => children

def ruleName? (trace : Trace) : Option String :=
  match trace.label with
  | .rule name _ => some name
  | .attempt _ _ _ => none

def succeeded (trace : Trace) : Bool :=
  trace.label.succeeded

/-- The rules tried directly under an entry. -/
def rules (trace : Trace) : List Trace :=
  trace.children.filter (·.label.isRule)

/-- How many tokens were matched directly under an entry. -/
def matchedCount (trace : Trace) : Nat :=
  trace.children.countP (·.label.isMatch)

mutual

/-- The first entry of a rule, the root before what is under it. -/
def findRule? (name : String) : Trace → Option Trace
  | entry label children =>
    match label with
    | .rule found succeeded =>
      if found = name then some (entry (.rule found succeeded) children)
      else findRuleIn? name children
    | .attempt _ _ _ => findRuleIn? name children

def findRuleIn? (name : String) : List Trace → Option Trace
  | [] => none
  | trace :: traces => (trace.findRule? name).or (findRuleIn? name traces)

end

mutual

/-- The number of entries, the root included. -/
def nodeCount : Trace → Nat
  | entry _ children => 1 + nodeCountOf children

def nodeCountOf : List Trace → Nat
  | [] => 0
  | trace :: traces => trace.nodeCount + nodeCountOf traces

end

mutual

/-- The number of tokens matched anywhere in a trace. -/
def matchedTokens : Trace → Nat
  | entry label children => (if label.isMatch then 1 else 0) + matchedTokensOf children

def matchedTokensOf : List Trace → Nat
  | [] => 0
  | trace :: traces => trace.matchedTokens + matchedTokensOf traces

end

mutual

/-- The listing of a trace whose root stands at a depth. -/
def listingAt (depth : Nat) : Trace → String
  | entry label children =>
    Tree.listingLine depth label.display ++ listingsAt (depth + 1) children

def listingsAt (depth : Nat) : List Trace → String
  | [] => ""
  | trace :: traces => trace.listingAt depth ++ listingsAt depth traces

end

/-- The trace as text, one entry to a line. -/
def listing (trace : Trace) : String :=
  trace.listingAt 0

def Label.toJson : Label → Json
  | rule name succeeded =>
    .obj [("type", .str "rule"), ("name", .str name), ("result", .bool succeeded)]
  | attempt expected found matched =>
    .obj [("type", .str "match"), ("expected", .str expected),
      ("found", .ofOption Token.toJson found), ("matched", .bool matched)]

mutual

def toJson : Trace → Json
  | entry label children => .obj [("label", label.toJson), ("children", .arr (listJson children))]

def listJson : List Trace → List Json
  | [] => []
  | trace :: traces => trace.toJson :: listJson traces

end

end Trace

end OrderFile
