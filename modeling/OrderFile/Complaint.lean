import OrderFile.Json

/-!
What is wrong with one order: a part that is missing, of the wrong kind or too many, or a value out
of range.
-/

set_option autoImplicit false

namespace OrderFile

/-- The ways in which an order or a node can be wrong. -/
inductive Complaint.Problem where
  | missing (rule expected : String)
  | wrongKind (rule expected found : String)
  | outOfRange (field : String) (value min max : Int64)
  | trailing (rule : String)
  | unexpectedNode (found : String)
  deriving DecidableEq

structure Complaint where
  line : UInt32
  problem : Complaint.Problem
  deriving DecidableEq

namespace Complaint

def Problem.message : Problem → String
  | missing rule expected => rule ++ ": missing " ++ expected
  | wrongKind rule expected found => rule ++ ": expected " ++ expected ++ ", found " ++ found
  | outOfRange field value min max =>
    field ++ " " ++ toString value ++ " out of range " ++ toString min ++ "..=" ++ toString max
  | trailing rule => rule ++ ": unexpected trailing input"
  | unexpectedNode found => "expected an order, found " ++ found

def message (c : Complaint) : String :=
  "line " ++ toString c.line ++ ": " ++ c.problem.message

def toJson (c : Complaint) : Json :=
  let line : String × Json := ("line", .ofNat c.line.toNat)
  match c.problem with
  | .missing rule expected =>
    .tagged "Missing" (.obj [line, ("rule", .str rule), ("expected", .str expected)])
  | .wrongKind rule expected found =>
    .tagged "WrongKind"
      (.obj [line, ("rule", .str rule), ("expected", .str expected), ("found", .str found)])
  | .outOfRange field value min max =>
    .tagged "OutOfRange"
      (.obj [line, ("field", .str field), ("value", .int value.toInt), ("min", .int min.toInt),
        ("max", .int max.toInt)])
  | .trailing rule => .tagged "Trailing" (.obj [line, ("rule", .str rule)])
  | .unexpectedNode found => .tagged "UnexpectedNode" (.obj [line, ("found", .str found)])

end Complaint

end OrderFile
