import OrderFile.Trace

/-!
Traces shown in part. An outline leaves out what is under successful entries, or under entries at
a depth, and says how many entries it left out.
-/

set_option autoImplicit false

namespace OrderFile.Trace

/-- What an outline leaves out. -/
structure Outline where
  collapseSuccesses : Bool := false
  maxDepth : Option Nat := none

namespace Outline

/-- Whether what is under an entry is left out. -/
def elides (outline : Outline) (depth : Nat) (label : Label) (children : List Trace) : Bool :=
  !children.isEmpty &&
    (outline.collapseSuccesses && label.succeeded || outline.maxDepth.any (· ≤ depth))

mutual

/-- The lines of an entry at a depth. The mark of what was left out stands at the end of its line. -/
def textAt (outline : Outline) (depth : Nat) : Trace → String
  | entry label children =>
    let elided := outline.elides depth label children
    String.ofList (List.replicate (2 * depth) ' ') ++ label.display ++
      (if elided then " ... (+" ++ toString (nodeCountOf children) ++ ")" else "") ++ "\n" ++
        if elided then "" else textsAt outline (depth + 1) children

def textsAt (outline : Outline) (depth : Nat) : List Trace → String
  | [] => ""
  | trace :: traces => textAt outline depth trace ++ textsAt outline depth traces

end

/-- The outline of a trace. -/
def text (outline : Outline) (trace : Trace) : String :=
  outline.textAt 0 trace

/-- The outlines of several traces, an empty line between them. -/
def texts (outline : Outline) (traces : List Trace) : String :=
  String.intercalate "\n" (traces.map outline.text)

end Outline

end OrderFile.Trace
