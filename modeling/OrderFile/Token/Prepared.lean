import OrderFile.Token

/-!
The token stream a parse reads: no comments, no spaces, and no line end right after another.
-/

set_option autoImplicit false

namespace OrderFile.Token

def withoutComments (tokens : List Token) : List Token :=
  tokens.filter (·.kind != .comment)

def withoutSpaces (tokens : List Token) : List Token :=
  tokens.filter (·.kind != .spaces)

/-- The stream without line ends that follow another one; `afterEol` says that one came before. -/
def collapseLinesFrom (afterEol : Bool) : List Token → List Token
  | [] => []
  | t :: tokens =>
    if t.kind = .eol ∧ afterEol then collapseLinesFrom true tokens
    else t :: collapseLinesFrom (t.kind == .eol) tokens

/-- The stream with each run of line ends cut to its first. -/
def collapseLines (tokens : List Token) : List Token :=
  collapseLinesFrom false tokens

/-- The stream as a parse reads it. -/
def prepare (tokens : List Token) : List Token :=
  collapseLines (withoutSpaces (withoutComments tokens))

/-- A way to thin out a token stream. -/
inductive Filter where
  | comments
  | spaces
  | lines
  | prepared
  deriving DecidableEq

def Filter.apply : Filter → List Token → List Token
  | comments => withoutComments
  | spaces => withoutSpaces
  | lines => collapseLines
  | prepared => prepare

end OrderFile.Token
