import OrderFile.Trace

/-!
The rule that came closest. Among the failed rules of a trace that say what they wanted, it is the
last of those under which most tokens were matched.
-/

set_option autoImplicit false

namespace OrderFile.Trace

/-- How close a failed rule came. -/
structure NearMiss where
  rule : String
  /-- How many tokens were matched under the rule. -/
  matched : Nat
  expected : String
  found : Option Token

/-- The near miss as a sentence. -/
def NearMiss.display (miss : NearMiss) : String :=
  "closest rule `" ++ miss.rule ++ "` matched " ++ toString miss.matched ++ " terminal" ++
    (if miss.matched = 1 then "" else "s") ++ ", then expected " ++ miss.expected ++
    (match miss.found with
      | some token => " but found " ++ token.display
      | none => "")

def NearMiss.toJson (miss : NearMiss) : Json :=
  .obj [("rule", .str miss.rule), ("matched", .ofNat miss.matched),
    ("expected", .str miss.expected), ("found", .ofOption Token.toJson miss.found)]

mutual

/-- The failed rules of a trace, the root before what is under it. -/
def failedRules : Trace → List Trace
  | entry label children =>
    (if label.isFailedRule then [entry label children] else []) ++ failedRulesOf children

def failedRulesOf : List Trace → List Trace
  | [] => []
  | trace :: traces => trace.failedRules ++ failedRulesOf traces

end

mutual

/-- What an entry wanted: its own failed attempt, or the last one under a failed rule. -/
def lastMiss? : Trace → Option (String × Option Token)
  | entry label children =>
    match label with
    | .attempt expected found false => some (expected, found)
    | .rule _ false => lastMissOf? children
    | _ => none

def lastMissOf? : List Trace → Option (String × Option Token)
  | [] => none
  | trace :: traces => (lastMissOf? traces).or trace.lastMiss?

end

/-- The name of the last rule directly under an entry that failed. -/
def lastFailedRule? (trace : Trace) : Option String :=
  (trace.children.reverse.find? (·.label.isFailedRule)).bind ruleName?

/-- What a failed rule wanted when it failed: a token, or else a rule. -/
def wanted? (trace : Trace) : Option (String × Option Token) :=
  (lastMissOf? trace.children).or (trace.lastFailedRule?.map (·, none))

/-- A failed rule as a near miss, if it says what it wanted. -/
def nearMiss? (trace : Trace) : Option NearMiss := do
  let rule ← trace.ruleName?
  let (expected, found) ← trace.wanted?
  return ⟨rule, trace.matchedTokens, expected, found⟩

/-- The later of the near misses with most matched tokens. -/
def closest : List NearMiss → Option NearMiss
  | [] => none
  | miss :: misses =>
    match closest misses with
    | none => some miss
    | some later => if miss.matched ≤ later.matched then some later else some miss

/-- The rule that came closest. -/
def nearestMiss (trace : Trace) : Option NearMiss :=
  closest (trace.failedRules.filterMap nearMiss?)

end OrderFile.Trace
