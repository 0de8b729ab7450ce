import OrderFile.Parse

/-!
The steps of a parse as data, with the two ways in which a sequence of steps can make no sense: a
rule closed that was never entered, and a token asked for outside of any rule.
-/

set_option autoImplicit false

namespace OrderFile.Parse

inductive Misuse where
  | closedWithoutEnter
  | outsideRule (operation : String)
  deriving DecidableEq

def Misuse.message : Misuse → String
  | closedWithoutEnter => "builder exit() called without a matching enter()"
  | outsideRule operation => "builder " ++ operation ++ "() called outside of any rule"

/-- A parse in which a rule is open. -/
def inRule (operation : String) (p : Parse) : Except Misuse Parse :=
  if p.frames.isEmpty then .error (.outsideRule operation) else .ok p

/-- The token at an offset from the next one, inside a rule. -/
def peekInRule (offset : Int) (p : Parse) : Except Misuse (Option Token) := do
  return (← p.inRule "peek").peek offset

/-- A step that may change a parse. -/
inductive Call where
  | enter (rule : String)
  | close (success : Bool)
  | accept (shape : Shape)
  | acceptAnyOf (kinds : List Token.Kind)
  | advance

/-- What a step answers, and the parse after it. Entering a rule always succeeds. A choice between
no kinds looks at no token, so it is the one attempt that needs no open rule. -/
def call (p : Parse) : Call → Except Misuse (Bool × Parse)
  | .enter rule => .ok (true, p.enter rule)
  | .close success => if p.frames.isEmpty then .error .closedWithoutEnter else .ok (p.close success)
  | .accept shape => do return (← p.inRule "match").accept shape
  | .acceptAnyOf kinds => do
    return (← if kinds.isEmpty then .ok p else p.inRule "peek").acceptAnyOf kinds
  | .advance => do return (← p.inRule "advance").advance

/-- The parse after a sequence of steps. -/
def run (p : Parse) : List Call → Except Misuse Parse
  | [] => .ok p
  | c :: calls => do
    let (_, p) ← p.call c
    p.run calls

end OrderFile.Parse
