import OrderFile.Decimal.Digits
import OrderFile.Tree

/-!
Grammars in extended Backus-Naur form: how the text of one is read, and which trees its rules
derive. A rule is a name, `=`, alternatives and a point. Words stand between double quotes and
punctuation marks between single ones; `[…]` is optional, braces repeat, and a name directly before
a parenthesis has bounds for its value there.
-/

set_option autoImplicit false

namespace OrderFile.Ebnf

/-! ### Symbols -/

inductive Symbol where
  | name (n : String)
  /-- A name with bounds for the value, as in `INTEGER(1..10)`. -/
  | range (n : String) (low high : Nat)
  /-- What stands between double quotes. -/
  | word (w : String)
  /-- What stands between single quotes. -/
  | mark (m : String)
  /-- A character that stands for itself. -/
  | sign (c : Char)
  deriving DecidableEq

/-- What is read so far of a symbol that is not complete, with the last character first. -/
inductive Partial where
  | none
  | name (chars : List Char)
  | range (n : List Char) (bounds : List Char)
  | word (chars : List Char)
  | mark (chars : List Char)

/-- The slash occurs in prose only: no rule or token has one in its name. -/
def isNameChar (c : Char) : Bool :=
  c.isAlphanum || c == '_' || c == '/'

def textOf (reversed : List Char) : String :=
  String.ofList reversed.reverse

/-- The symbol of a name and of its bounds, which have points between them. -/
def rangeSymbol (n bounds : List Char) : Symbol :=
  .range (textOf n) (digitsValue (bounds.reverse.takeWhile Char.isDigit))
    (digitsValue (bounds.takeWhile Char.isDigit).reverse)

/-- A character where no symbol is open. -/
def startSymbol (c : Char) : List Symbol × Partial :=
  if c = ' ' ∨ c = '\n' then ([], .none)
  else if c = '"' then ([], .word [])
  else if c = '\'' then ([], .mark [])
  else if isNameChar c then ([], .name [c])
  else ([.sign c], .none)

/-- One more character: the symbols that it completes and the one that is open after it. -/
def nextSymbol (c : Char) : Partial → List Symbol × Partial
  | .none => startSymbol c
  | .name n =>
    if isNameChar c then ([], .name (c :: n))
    else if c = '(' then ([], .range n [])
    else (.name (textOf n) :: (startSymbol c).1, (startSymbol c).2)
  | .range n bounds =>
    if c = ')' then ([rangeSymbol n bounds], .none) else ([], .range n (c :: bounds))
  | .word chars => if c = '"' then ([.word (textOf chars)], .none) else ([], .word (c :: chars))
  | .mark chars => if c = '\'' then ([.mark (textOf chars)], .none) else ([], .mark (c :: chars))

/-- The symbols of a text. What is open at its end is none. -/
def symbolsFrom : Partial → List Char → List Symbol
  | _, [] => []
  | open?, c :: text => (nextSymbol c open?).1 ++ symbolsFrom (nextSymbol c open?).2 text

/-! ### Expressions -/

inductive Expr where
  | name (n : String)
  | range (n : String) (low high : Nat)
  | word (w : String)
  | mark (m : String)
  | empty
  | seq (first second : Expr)
  | either (first second : Expr)
  | optional (body : Expr)
  | repeated (body : Expr)

def Expr.sequence : List Expr → Expr
  | [] => empty
  | [e] => e
  | e :: others => seq e (sequence others)

def Expr.choice : List Expr → Expr
  | [] => empty
  | [e] => e
  | e :: others => either e (choice others)

/-- An open bracket: the alternatives inside it that are complete, and the items of the one that is
not, each with the last first. -/
structure Level where
  bracket : Char
  alternatives : List Expr
  items : List Expr

namespace Level

def push (level : Level) (e : Expr) : Level :=
  { level with items := e :: level.items }

/-- The level after a bar, which completes an alternative. -/
def bar (level : Level) : Level :=
  ⟨level.bracket, .sequence level.items.reverse :: level.alternatives, []⟩

def expr (level : Level) : Expr :=
  .choice level.bar.alternatives.reverse

/-- What a level comes to when a bracket closes it. -/
def close? (level : Level) (bracket : Char) : Option Expr :=
  if level.bracket = '(' ∧ bracket = ')' then some level.expr
  else if level.bracket = '[' ∧ bracket = ']' then some (.optional level.expr)
  else if level.bracket = '\x7b' ∧ bracket = '\x7d' then some (.repeated level.expr)
  else none

end Level

/-- The open brackets after a sign, the innermost first. -/
def readSign? (c : Char) : List Level → Option (List Level)
  | [] => none
  | level :: outer =>
    if c = '|' then some (level.bar :: outer)
    else if ['(', '[', '\x7b'].contains c then some (⟨c, [], []⟩ :: level :: outer)
    else
      match level.close? c, outer with
      | some e, next :: outer => some (next.push e :: outer)
      | _, _ => none

/-- The open brackets after an expression. -/
def readItem? (e : Expr) : List Level → Option (List Level)
  | [] => none
  | level :: outer => some (level.push e :: outer)

def readSymbol? (levels : List Level) : Symbol → Option (List Level)
  | .name n => readItem? (.name n) levels
  | .range n low high => readItem? (.range n low high) levels
  | .word w => readItem? (.word w) levels
  | .mark m => readItem? (.mark m) levels
  | .sign c => readSign? c levels

/-- The right-hand side of a rule: alternatives with no bracket left open. -/
def expr? (symbols : List Symbol) : Option Expr :=
  match symbols.foldlM readSymbol? [⟨'=', [], []⟩] with
  | some [level] => some level.expr
  | _ => none

def rule? : List Symbol → Option (String × Expr)
  | .name n :: .sign '=' :: symbols => (expr? symbols).map fun e ↦ (n, e)
  | _ => none

/-- The rules of a grammar. -/
def read? (text : List Char) : Option (List (String × Expr)) :=
  ((symbolsFrom .none text).splitOn (.sign '.')).dropLast.mapM rule?

/-! ### Derivations -/

/-- The kind of the tokens that a name in capitals stands for. The identifiers and quantities of the
game are integers like any other. -/
def terminal? (n : String) : Option Token.Kind :=
  if n = "CSID" ∨ n = "QUANTITY" then some .integer
  else Token.Kind.all.find? fun k ↦ k.name == n

/-- The kind of the tokens that a punctuation mark stands for. -/
def punctuation? (m : String) : Option Token.Kind :=
  if m = "(" then some .parenOpen
  else if m = ")" then some .parenClose
  else if m = "," then some .comma
  else none

/-- Trees that an expression derives, one after the other. A rule derives one node with its name;
words are compared in any case. -/
inductive Derives (rules : List (String × Expr)) : Expr → List Tree → Prop
  | rule {n : String} {body : Expr} {children : List Tree} (hrule : rules.lookup n = some body)
      (hbody : Derives rules body children) : Derives rules (.name n) [.node n children]
  | terminal {n : String} {t : Token} (ht : terminal? n = some t.kind) :
      Derives rules (.name n) [.leaf t]
  | range {n : String} {low high : Nat} {t : Token} {value : Int64}
      (ht : terminal? n = some t.kind) (hvalue : t.integer? = some value)
      (hlow : low ≤ value.toInt) (hhigh : value.toInt ≤ high) :
      Derives rules (.range n low high) [.leaf t]
  | word {w : String} {t : Token} (ht : t.spells w = true) : Derives rules (.word w) [.leaf t]
  | mark {m : String} {t : Token} (ht : punctuation? m = some t.kind) :
      Derives rules (.mark m) [.leaf t]
  | empty : Derives rules .empty []
  | seq {first second : Expr} {front back : List Tree} (hfirst : Derives rules first front)
      (hsecond : Derives rules second back) : Derives rules (.seq first second) (front ++ back)
  | first {first second : Expr} {trees : List Tree} (h : Derives rules first trees) :
      Derives rules (.either first second) trees
  | second {first second : Expr} {trees : List Tree} (h : Derives rules second trees) :
      Derives rules (.either first second) trees
  | skip {body : Expr} : Derives rules (.optional body) []
  | take {body : Expr} {trees : List Tree} (h : Derives rules body trees) :
      Derives rules (.optional body) trees
  | stop {body : Expr} : Derives rules (.repeated body) []
  | again {body : Expr} {part others : List Tree} (hpart : Derives rules body part)
      (hothers : Derives rules (.repeated body) others) :
      Derives rules (.repeated body) (part ++ others)

section

variable {rules : List (String × Expr)} {trees : List Tree}

/-- A name of a rule that is no token derives the nodes of the rule. -/
theorem derives_rule_iff {n : String} {body : Expr} (hrule : rules.lookup n = some body)
    (hname : terminal? n = none) :
    Derives rules (.name n) trees ↔
      ∃ children, Derives rules body children ∧ trees = [.node n children] := by
  constructor
  · intro h
    cases h with
    | rule hother hbody =>
      obtain rfl := Option.some.inj (hrule.symm.trans hother)
      exact ⟨_, hbody, rfl⟩
    | terminal ht =>
      rw [hname] at ht
      cases ht
  · rintro ⟨children, hbody, rfl⟩
    exact .rule hrule hbody

/-- A name of a kind of tokens that is no rule derives the tokens of that kind. -/
theorem derives_terminal_iff {n : String} {k : Token.Kind} (hrule : rules.lookup n = none)
    (hname : terminal? n = some k) :
    Derives rules (.name n) trees ↔ ∃ t, t.kind = k ∧ trees = [.leaf t] := by
  constructor
  · intro h
    cases h with
    | rule hother _ =>
      rw [hrule] at hother
      cases hother
    | terminal ht => exact ⟨_, Option.some.inj (ht.symm.trans hname), rfl⟩
  · rintro ⟨t, rfl, rfl⟩
    exact .terminal hname

/-- A bounded name derives one token of its kind with a value within the bounds. -/
theorem derives_range_iff {n : String} {k : Token.Kind} {low high : Nat}
    (hname : terminal? n = some k) :
    Derives rules (.range n low high) trees ↔
      ∃ (t : Token) (value : Int64), (t.kind = k ∧ t.integer? = some value ∧ low ≤ value.toInt ∧
        value.toInt ≤ high) ∧ trees = [.leaf t] := by
  constructor
  · intro h
    cases h with
    | range ht hvalue hlow hhigh =>
      exact ⟨_, _, ⟨Option.some.inj (ht.symm.trans hname), hvalue, hlow, hhigh⟩, rfl⟩
  · rintro ⟨t, value, ⟨rfl, hvalue, hlow, hhigh⟩, rfl⟩
    exact .range hname hvalue hlow hhigh

theorem derives_word_iff {w : String} :
    Derives rules (.word w) trees ↔ ∃ t, t.spells w = true ∧ trees = [.leaf t] := by
  constructor
  · intro h
    cases h with
    | word ht => exact ⟨_, ht, rfl⟩
  · rintro ⟨t, ht, rfl⟩
    exact .word ht

theorem derives_mark_iff {m : String} {k : Token.Kind} (hmark : punctuation? m = some k) :
    Derives rules (.mark m) trees ↔ ∃ t, t.kind = k ∧ trees = [.leaf t] := by
  constructor
  · intro h
    cases h with
    | mark ht => exact ⟨_, Option.some.inj (ht.symm.trans hmark), rfl⟩
  · rintro ⟨t, rfl, rfl⟩
    exact .mark hmark

theorem derives_empty_iff : Derives rules .empty trees ↔ trees = [] := by
  constructor
  · intro h
    cases h
    rfl
  · rintro rfl
    exact .empty

/-- Expressions in a row derive trees in a row. -/
theorem derives_seq_iff {first second : Expr} :
    Derives rules (.seq first second) trees ↔
      ∃ front back, Derives rules first front ∧ Derives rules second back ∧
        trees = front ++ back := by
  constructor
  · intro h
    cases h with
    | seq hfirst hsecond => exact ⟨_, _, hfirst, hsecond, rfl⟩
  · rintro ⟨front, back, hfirst, hsecond, rfl⟩
    exact .seq hfirst hsecond

/-- Alternatives derive what one of them derives. -/
theorem derives_either_iff {first second : Expr} :
    Derives rules (.either first second) trees ↔
      Derives rules first trees ∨ Derives rules second trees := by
  constructor
  · intro h
    cases h with
    | first h => exact .inl h
    | second h => exact .inr h
  · rintro (h | h)
    · exact .first h
    · exact .second h

/-- What is optional derives nothing, or what it would derive otherwise. -/
theorem derives_optional_iff {body : Expr} :
    Derives rules (.optional body) trees ↔ trees = [] ∨ Derives rules body trees := by
  constructor
  · intro h
    cases h with
    | skip => exact .inl rfl
    | take h => exact .inr h
  · rintro (rfl | h)
    · exact .skip
    · exact .take h

/-- What is repeated derives any number of parts in a row. -/
theorem derives_repeated_iff {body : Expr} :
    Derives rules (.repeated body) trees ↔
      ∃ parts : List (List Tree), (∀ part ∈ parts, Derives rules body part) ∧
        trees = parts.flatten := by
  constructor
  · intro h
    generalize hexpr : Expr.repeated body = e at h
    induction h with
    | stop => exact ⟨[], by simp, rfl⟩
    | @again _ part _ hpart _ _ ih =>
      cases hexpr
      obtain ⟨parts, hparts, rfl⟩ := ih rfl
      exact ⟨part :: parts, List.forall_mem_cons.mpr ⟨hpart, hparts⟩, rfl⟩
    | _ => cases hexpr
  · rintro ⟨parts, hparts, rfl⟩
    induction parts with
    | nil => exact .stop
    | cons part parts ih =>
      obtain ⟨hpart, hothers⟩ := List.forall_mem_cons.mp hparts
      exact .again hpart (ih hothers)

end

end OrderFile.Ebnf
