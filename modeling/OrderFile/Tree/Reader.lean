import OrderFile.Complaint
import OrderFile.Tree

/-!
Reading the children of a rule one by one. A child that is missing or of the wrong kind is a
complaint, and reading goes on with a default in its place, so that one pass finds everything that
is wrong.
-/

set_option autoImplicit false

namespace OrderFile.Tree

/-- A place among the children of a rule. -/
structure Reader where
  rule : String
  /-- The line that complaints are about. -/
  line : UInt32
  /-- The children that are not read yet. -/
  rest : List Tree
  /-- The complaints so far. -/
  errors : List Complaint

/-- A reading of some children. -/
abbrev Read := StateM Reader

/-- The first child of a rule. A token has no children. -/
def reader (tree : Tree) (line : UInt32) : Reader where
  rule := tree.rule?.getD "?"
  line := line
  rest := tree.children
  errors := []

namespace Read

def complain (problem : String → Complaint.Problem) : Read Unit := do
  modify fun r ↦ { r with errors := r.errors ++ [⟨r.line, problem r.rule⟩] }

def missing (expected : String) : Read Unit :=
  complain (.missing · expected)

def wrongKind (expected : String) (found : Tree) : Read Unit :=
  complain (.wrongKind · expected found.describe)

/-- Complains about a value that is not in a range. -/
def checkRange (field : String) (value low high : Int64) : Read Unit := do
  unless low ≤ value ∧ value ≤ high do
    complain fun _ ↦ .outOfRange field value low high

/-- The next child, left in place. -/
def peek? : Read (Option Tree) := do
  return (← get).rest.head?

/-- The kind of the next child, if it is a token. -/
def peekKind? : Read (Option Token.Kind) := do
  return (← peek?).bind fun tree ↦ tree.token?.map (·.kind)

/-- Reads the next child with a test. What the child should have been is told if there is none, or
if it fails the test. -/
def child? {α : Type} (expected : String) (test : Tree → Option α) : Read (Option α) := do
  match (← get).rest with
  | [] =>
    missing expected
    return none
  | tree :: rest =>
    modify fun r ↦ { r with rest }
    let value := test tree
    if value.isNone then wrongKind expected tree
    return value

/-- A token of one of the kinds. -/
def tokenOf? (kinds : List Token.Kind) : Read (Option Token) :=
  child? (Token.Kind.joinedNames kinds) fun tree ↦
    tree.token?.filter fun t ↦ kinds.contains t.kind

def token? (kind : Token.Kind) : Read (Option Token) :=
  tokenOf? [kind]

/-- A token of one of the kinds if that comes next; otherwise nothing is read. -/
def optional? (kinds : List Token.Kind) : Read (Option Token) := do
  match ← peekKind? with
  | some kind => if kinds.contains kind then token? kind else return none
  | none => return none

/-- One of several words, by its place among them. -/
def wordOf? (words : List String) : Read (Option Nat) :=
  child? (String.intercalate " | " (words.map Quoted.quote)) fun tree ↦
    tree.token?.bind fun t ↦ words.findIdx? t.spells

def word (w : String) : Read Unit := do
  let _ ← wordOf? [w]

def eol : Read Unit := do
  let _ ← token? .eol

/-- The value of an integer token, zero if there is none. -/
def integer : Read Int64 := do
  return ((← token? .integer).bind Token.integer?).getD 0

/-- An integer that should not be negative. -/
def natural (field : String) : Read Int64 := do
  let value ← integer
  checkRange field value 0 Int64.maxValue
  return value

def percentage (field : String) : Read Int64 := do
  let value := ((← token? .percentage).bind Token.integer?).getD 0
  checkRange field value 0 100
  return value

def quotedText : Read String := do
  return ((← token? .quotedText).bind Token.text?).getD ""

/-- The complaints of a finished reading; children that are left over are one more. -/
def finish : Read (List Complaint) := do
  unless (← get).rest.isEmpty do
    complain .trailing
    modify fun r ↦ { r with rest := [] }
  return (← get).errors

/-- Reads the children of a rule under this one. Complaints about them are about this line. -/
def inside {α : Type} (tree : Tree) (body : Read α) : Read α := do
  let line := (← get).line
  let ((value, errors), _) := (do return (← body, ← finish) : Read _).run (tree.reader line)
  modify fun r ↦ { r with errors := r.errors ++ errors }
  return value

/-- Reads a child that should be a certain rule. -/
def nested? {α : Type} (rule : String) (body : Read α) : Read (Option α) := do
  match ← child? rule fun tree ↦ if tree.isRule rule then some tree else none with
  | some tree => return some (← inside tree body)
  | none => return none

end Read

end OrderFile.Tree
