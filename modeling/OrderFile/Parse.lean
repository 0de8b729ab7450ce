import OrderFile.Fault
import OrderFile.Trace

/-!
A parse in progress over a fixed sequence of tokens. Rules are entered and closed around each
other; within a rule tokens are accepted one by one. A rule that fails gives back every token it
took. What was tried is kept in a trace, and the farthest failure explains a parse that comes to
nothing.
-/

set_option autoImplicit false

namespace OrderFile

/-- What a token is expected to be: a kind, and perhaps a spelling. -/
structure Shape where
  kind : Token.Kind
  word : Option String := none
  deriving DecidableEq

namespace Shape

/-- A plain word in any case. -/
def keyword (word : String) : Shape := ⟨.text, some word⟩

def accepts (shape : Shape) (t : Token) : Bool :=
  t.kind == shape.kind && shape.word.all (sameWord t.lexeme)

def display (shape : Shape) : String :=
  match shape.word with
  | some word => Quoted.quote word
  | none => shape.kind.name

end Shape

/-- An open rule: where it started, what it matched and what was tried in it. -/
structure Parse.Frame where
  rule : String
  start : Nat
  children : Array Tree
  trace : Array Trace

/-- A token that was not the expected one, and the rules open at the time, innermost first. -/
structure Parse.Miss where
  index : Nat
  expected : String
  rules : List String

structure Parse where
  tokens : Array Token
  /-- The index of the next token. -/
  cursor : Nat
  /-- The open rules, innermost first. -/
  frames : List Parse.Frame
  /-- The first of the misses at the greatest index. -/
  farthest : Option Parse.Miss
  /-- The tree of the last root rule that succeeded. -/
  tree : Option Tree
  /-- The trace of the last root rule. -/
  trace : Option Trace
  /-- Why the last root rule that failed did so. -/
  fault : Option Fault

namespace Parse

/-- A parse before its first rule. -/
def start (tokens : List Token) : Parse where
  tokens := tokens.toArray
  cursor := 0
  frames := []
  farthest := none
  tree := none
  trace := none
  fault := none

/-- The token at an offset from the next one. -/
def peek (p : Parse) (offset : Int) : Option Token :=
  if 0 ≤ p.cursor + offset then p.tokens[(p.cursor + offset).toNat]? else none

/-- The next token. -/
def next? (p : Parse) : Option Token :=
  p.tokens[p.cursor]?

/-- How many tokens are left. -/
def remaining (p : Parse) : Nat :=
  p.tokens.size - p.cursor

/-- Whether nothing is left, or an end token comes next. -/
def atEnd (p : Parse) : Bool :=
  p.next?.all (·.kind == .eof)

/-- The token at the farthest miss. -/
def farthestToken? (p : Parse) : Option Token :=
  p.farthest.bind fun miss ↦ p.tokens[miss.index]?

/-- The line of the token at an index, or of the last token if there is none there. -/
def lineAt (p : Parse) (index : Nat) : UInt32 :=
  ((p.tokens[index]?).or p.tokens.back?).elim 1 (·.line)

/-- Opens a rule at the next token. -/
def enter (rule : String) (p : Parse) : Parse :=
  { p with frames := ⟨rule, p.cursor, #[], #[]⟩ :: p.frames }

/-- Takes the next token into the innermost rule. -/
def take (expected : String) (t : Token) (p : Parse) : Parse :=
  { p with
    cursor := p.cursor + 1
    frames := p.frames.modifyHead fun frame ↦
      { frame with
        children := frame.children.push (.leaf t)
        trace := frame.trace.push (.entry (.attempt expected (some t) true) []) } }

/-- Records that the next token was not the expected one. -/
def miss (expected : String) (p : Parse) : Parse :=
  { p with
    farthest :=
      if p.farthest.all (·.index < p.cursor) then some ⟨p.cursor, expected, p.frames.map (·.rule)⟩
      else p.farthest
    frames := p.frames.modifyHead fun frame ↦
      { frame with trace := frame.trace.push (.entry (.attempt expected p.next? false) []) } }

/-- Tries the next token, and takes it if it passes. -/
def attempt (expected : String) (accepts : Token → Bool) (p : Parse) : Bool × Parse :=
  match p.next? with
  | some t => if accepts t then (true, p.take expected t) else (false, p.miss expected)
  | none => (false, p.miss expected)

def accept (shape : Shape) (p : Parse) : Bool × Parse :=
  p.attempt shape.display shape.accepts

def acceptKind (kind : Token.Kind) (p : Parse) : Bool × Parse :=
  p.accept ⟨kind, none⟩

def acceptWord (word : String) (p : Parse) : Bool × Parse :=
  p.accept (.keyword word)

/-- Whether the next token has one of the kinds. -/
def sees (kinds : List Token.Kind) (p : Parse) : Bool :=
  p.next?.any fun t ↦ kinds.contains t.kind

/-- Accepts a token of any of the kinds, or fails as a whole. -/
def acceptAnyOf (kinds : List Token.Kind) (p : Parse) : Bool × Parse :=
  match kinds.find? fun kind ↦ p.sees [kind] with
  | some kind => p.acceptKind kind
  | none => (false, p.miss (Token.Kind.joinedNames kinds))

/-- Takes the next token whatever it is, if there is one. -/
def advance (p : Parse) : Bool × Parse :=
  p.attempt "ANY" fun _ ↦ true

/-- Why a root rule that failed did so: the farthest miss, and the rules open there. -/
def explain (p : Parse) : Fault :=
  let index := (p.farthest.map (·.index)).getD p.cursor
  let found := (p.tokens[index]?).elim "end of input" Token.display
  let line := p.lineAt index
  match p.farthest with
  | none => ⟨.unexpected line found "no rule matches", none⟩
  | some miss =>
    ⟨.unexpected line found ("expected " ++ miss.expected),
      some { line := some line.toNat, stack := miss.rules }⟩

/-- Closes a rule that stands in another one. -/
def closeInner (success : Bool) (frame parent : Frame) (outer : List Frame) (p : Parse) : Parse :=
  { p with
    cursor := if success then p.cursor else frame.start
    frames :=
      { parent with
        children :=
          if success then parent.children.push (.node frame.rule frame.children.toList)
          else parent.children
        trace := parent.trace.push (.entry (.rule frame.rule success) frame.trace.toList) } ::
      outer }

/-- Closes a root rule. It succeeds only if nothing is left to read. -/
def closeRoot (success : Bool) (frame : Frame) (p : Parse) : Bool × Parse :=
  let trace (result : Bool) : Option Trace :=
    some (.entry (.rule frame.rule result) frame.trace.toList)
  if success then
    if p.atEnd then
      (true, { p with
        frames := []
        tree := some (.node frame.rule frame.children.toList)
        trace := trace true })
    else
      (false, { p with
        cursor := frame.start
        frames := []
        trace := trace false
        fault := some ⟨.unconsumed (p.lineAt p.cursor), none⟩ })
  else
    let p := { p with cursor := frame.start, frames := [] }
    (false, { p with trace := trace false, fault := some p.explain })

/-- Closes the innermost rule and says whether it succeeded after all. With no rule open there is
nothing to close. -/
def close (success : Bool) (p : Parse) : Bool × Parse :=
  match p.frames with
  | [] => (false, p)
  | [frame] => p.closeRoot success frame
  | frame :: parent :: outer => (success, p.closeInner success frame parent outer)

/-- Runs a rule's body inside the rule. -/
def within (rule : String) (body : Parse → Bool × Parse) (p : Parse) : Bool × Parse :=
  let (success, p) := body (p.enter rule)
  p.close success

end Parse

end OrderFile
