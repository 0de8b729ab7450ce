import OrderFile.Parse

/-!
Patterns of tokens, and how a parse follows one. A parse never tries a second way: where a pattern
leaves a choice, the next token decides.
-/

set_option autoImplicit false

namespace OrderFile.Grammar

inductive Pattern where
  /-- Nothing. -/
  | empty
  /-- One token of a shape. -/
  | token (shape : Shape)
  /-- One token of any of the kinds. -/
  | anyOf (kinds : List Token.Kind)
  /-- One plain word out of several. -/
  | oneWord (words : List String)
  /-- One integer token whose value lies in a range. -/
  | integerIn (low high : Int64)
  | seq (first second : Pattern)
  /-- The pattern if the next token starts it, nothing otherwise. -/
  | optional (body : Pattern)
  /-- The first pattern if the next token starts it, the second otherwise. -/
  | choice (first second : Pattern)
  /-- The pattern any number of times, until it fails or the given word comes next. -/
  | repeated (body : Pattern) (stop : String)
  /-- The pattern as a rule of its own. -/
  | rule (name : String) (body : Pattern)

namespace Pattern

def kind (k : Token.Kind) : Pattern := token ⟨k, none⟩

def word (w : String) : Pattern := token (.keyword w)

/-- Patterns one after the other. -/
def sequence : List Pattern → Pattern
  | [] => empty
  | first :: others => seq first (sequence others)

/-- Whether a token can start a pattern. Optional and repeated parts do not count: no choice is
decided by one. -/
def starts (t : Token) : Pattern → Bool
  | token shape => shape.accepts t
  | anyOf kinds => kinds.contains t.kind
  | oneWord words => words.any t.spells
  | integerIn _ _ => t.kind == .integer
  | seq first _ => first.starts t
  | choice first second => first.starts t || second.starts t
  | rule _ body => body.starts t
  | empty | optional _ | repeated _ _ => false

/-- Whether the next token of a parse can start a pattern. -/
def isNext (pattern : Pattern) (p : Parse) : Bool :=
  p.next?.any (pattern.starts ·)

/-- Runs a body until it fails or a word comes next, at most the given number of times. -/
def repeatUntil (stop : String) (body : Parse → Bool × Parse) : Nat → Parse → Parse
  | 0, p => p
  | n + 1, p =>
    if p.next?.any (·.spells stop) then p
    else
      match body p with
      | (true, p) => repeatUntil stop body n p
      | (false, p) => p

/-- Follows a pattern from the next token on. Whatever is repeated takes a token each time, so the
number of tokens left bounds the repetition. A failure leaves the tokens taken so far with the
innermost rule, which gives them back when it closes. -/
def follow : Pattern → Parse → Bool × Parse
  | empty, p => (true, p)
  | token shape, p => p.accept shape
  | anyOf kinds, p => p.acceptAnyOf kinds
  | oneWord words, p =>
    match words.find? fun w ↦ p.next?.any (·.spells w), words with
    | some w, _ => p.acceptWord w
    | none, w :: _ => p.acceptWord w
    | none, [] => (false, p)
  | integerIn low high, p =>
    let inRange := (p.next?.bind Token.integer?).any fun n ↦ low ≤ n && n ≤ high
    let (success, p) := p.acceptKind .integer
    (success && inRange, p)
  | seq first second, p =>
    match first.follow p with
    | (true, p) => second.follow p
    | (false, p) => (false, p)
  | optional body, p => if body.isNext p then body.follow p else (true, p)
  | choice first second, p => if first.isNext p then first.follow p else second.follow p
  | repeated body stop, p => (true, repeatUntil stop body.follow (p.remaining + 1) p)
  | rule name body, p => p.within name body.follow

end Pattern

end OrderFile.Grammar
