import OrderFile.Token

/-!
Parse trees. A leaf is a token; a node is a rule with what it matched, in order.
-/

set_option autoImplicit false

namespace OrderFile

inductive Tree where
  | leaf (token : Token)
  | node (rule : String) (children : List Tree)

namespace Tree

instance : Inhabited Tree := ⟨node "" []⟩

def rule? : Tree → Option String
  | leaf _ => none
  | node rule _ => some rule

def token? : Tree → Option Token
  | leaf token => some token
  | node _ _ => none

def children : Tree → List Tree
  | leaf _ => []
  | node _ children => children

def isRule (tree : Tree) (rule : String) : Bool :=
  tree.rule? == some rule

mutual

/-- The tokens under a tree, left to right. -/
def tokens : Tree → List Token
  | leaf token => [token]
  | node _ children => tokensOf children

def tokensOf : List Tree → List Token
  | [] => []
  | tree :: trees => tree.tokens ++ tokensOf trees

end

/-- The line of the first token under a tree. -/
def line? (tree : Tree) : Option UInt32 :=
  tree.tokens.head?.map (·.line)

/-- What a message calls the tree: a token as listings show it, a node by its rule. -/
def describe : Tree → String
  | leaf token => token.display
  | node rule _ => rule

/-- A line of a listing, indented by two spaces per level. -/
def listingLine (depth : Nat) (text : String) : String :=
  String.ofList (List.replicate (2 * depth) ' ') ++ text ++ "\n"

mutual

/-- The listing of a tree whose root stands at a depth. -/
def listingAt (depth : Nat) : Tree → String
  | leaf token => listingLine depth token.display
  | node rule children => listingLine depth rule ++ listingsAt (depth + 1) children

def listingsAt (depth : Nat) : List Tree → String
  | [] => ""
  | tree :: trees => tree.listingAt depth ++ listingsAt depth trees

end

/-- The tree as text, one tree node to a line. -/
def listing (tree : Tree) : String :=
  tree.listingAt 0

mutual

def toJson : Tree → Json
  | leaf token => .tagged "Terminal" token.toJson
  | node rule children =>
    .tagged "NonTerminal" (.obj [("name", .str rule), ("children", .arr (listJson children))])

def listJson : List Tree → List Json
  | [] => []
  | tree :: trees => tree.toJson :: listJson trees

end

end Tree

end OrderFile
