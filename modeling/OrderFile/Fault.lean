import OrderFile.Decimal.Digits
import OrderFile.Json

/-!
What goes wrong outside of single orders: a cause, and where known the place: a source, a line in
it, and the rules that were open, innermost first.
-/

set_option autoImplicit false

namespace OrderFile

inductive Fault.Cause where
  /-- No rule fits the token found on a line. -/
  | unexpected (line : UInt32) (found message : String)
  /-- The rules ended before the file did. -/
  | unconsumed (line : UInt32)
  | orbitOutOfRange (orbit : Int64)
  | unreadable (path reason : String)
  | settings (message : String)
  deriving DecidableEq

/-- The place of a fault. -/
structure Fault.Context where
  source : Option String := none
  line : Option Nat := none
  stack : List String := []
  deriving DecidableEq

structure Fault where
  cause : Fault.Cause
  context : Option Fault.Context := none
  deriving DecidableEq

namespace Fault

def message (fault : Fault) : String :=
  match fault.cause with
  | .unexpected line found message =>
    "syntax error at line " ++ toString line ++ ": " ++ message ++ " (found " ++ found ++ ")"
  | .unconsumed line => "not all tokens consumed: stopped at line " ++ toString line
  | .orbitOutOfRange orbit => "orbit " ++ toString orbit ++ " out of range 0..=10"
  | .unreadable path reason => "cannot read " ++ path ++ ": " ++ reason
  | .settings message => "configuration error: " ++ message

/-- The line of the cause, or else the line of the context if it fits a line number. -/
def line? (fault : Fault) : Option UInt32 :=
  match fault.cause with
  | .unexpected line _ _ => some line
  | .unconsumed line => some line
  | _ => do
    let context ← fault.context
    let line ← context.line
    uint32? line

def withContext (fault : Fault) (context : Context) : Fault :=
  { fault with context := some context }

/-- The fault with the name of the source it is in. -/
def withSource (fault : Fault) (source : String) : Fault :=
  { fault with context := some { fault.context.getD {} with source := some source } }

/-- The context with one more open rule, outside of those it has. -/
def Context.withFrame (context : Context) (frame : String) : Context :=
  { context with stack := context.stack ++ [frame] }

/-- The place as text. A line is shown only after a source, the open rules on lines of their
own. -/
def Context.display (context : Context) : String :=
  let place := match context.source with
    | none => ""
    | some source =>
      "at " ++ source ++
        (match context.line with
          | none => ""
          | some line => ":" ++ toString line)
  if context.stack.isEmpty then place
  else place ++ "\n" ++ String.join (context.stack.map fun frame ↦ "  in " ++ frame ++ "\n")

end Fault

end OrderFile
