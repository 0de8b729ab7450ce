import OrderFile.Proofs.Parse.Bare

/-!
The farthest miss of a parse. Entering and closing rules and taking tokens leave it alone, and a
token that is not the expected one takes its place only from farther on: of misses at one place the
first counts. A root rule that fails is explained by it.
-/

set_option autoImplicit false

namespace OrderFile.Parse

/-! ### Open rules -/

/-- The names of the open rules, innermost first. -/
def rules (p : Parse) : List String :=
  p.frames.map (·.rule)

@[simp] theorem rules_bare (p : Parse) : p.bare.rules = p.rules := by
  simp [rules, bare, Frame.bare]

@[simp] theorem rules_took (trees : List Tree) (p : Parse) : (p.took trees).rules = p.rules := by
  cases p with
  | mk tokens cursor frames => cases frames <;> rfl

/-- Taking trees opens and closes no rule. -/
theorem rules_of_bare_took {p later : Parse} {trees : List Tree}
    (h : later.bare = p.bare.took trees) : later.rules = p.rules := by
  rw [← rules_bare later, h, rules_took, rules_bare]

/-- Taking trees moves over their tokens. -/
theorem cursor_of_bare_took {p later : Parse} {trees : List Tree}
    (h : later.bare = p.bare.took trees) :
    later.cursor = p.cursor + (Tree.tokensOf trees).length := by
  have hcursor : later.bare.cursor = (p.bare.took trees).cursor := by rw [h]
  exact hcursor

theorem Strayed.tokens_eq {p later : Parse} (h : p.Strayed later) : later.tokens = p.tokens := by
  obtain ⟨cursor, children, hbare⟩ := h
  have htokens : later.bare.tokens = p.bare.tokens := by rw [hbare]
  exact htokens

/-! ### Misses -/

/-- The farther one of the farthest miss so far and a new one. -/
def farther (farthest : Option Miss) (miss : Miss) : Option Miss :=
  if farthest.all (·.index < miss.index) then some miss else farthest

/-- A miss that is not farther on than the one before it does not count. -/
theorem farther_farther {farthest : Option Miss} {miss later : Miss}
    (h : later.index ≤ miss.index) :
    farther (farther farthest miss) later = farther farthest miss := by
  unfold farther
  by_cases hfirst : farthest.all (·.index < miss.index) = true
  · rw [if_pos hfirst, if_neg (by simpa using h)]
  · rw [if_neg hfirst, if_neg]
    cases farthest with
    | none => exact absurd rfl hfirst
    | some first =>
      simp only [Option.all_some, decide_eq_true_eq] at hfirst ⊢
      omega

/-- An attempt that fails is a miss where it was made. -/
theorem farthest_attempt (expected : String) (test : Token → Bool) (p : Parse) :
    (p.attempt expected test).2.farthest =
      if (p.attempt expected test).1 then p.farthest
      else farther p.farthest ⟨p.cursor, expected, p.rules⟩ := by
  obtain ⟨t, -, htaken⟩ | hmissed := attempt_cases expected test p
  · rw [htaken]
    rfl
  · rw [hmissed]
    rfl

/-- A token of another kind is remembered as a miss if none is remembered from as far on. -/
theorem farthest_acceptKind (k : Token.Kind) (p : Parse) :
    (p.acceptKind k).2.farthest =
      if (p.acceptKind k).1 then p.farthest
      else farther p.farthest ⟨p.cursor, Shape.display ⟨k, none⟩, p.rules⟩ :=
  farthest_attempt _ _ p

theorem farthest_close (success : Bool) (p : Parse) :
    (p.close success).2.farthest = p.farthest := by
  rw [close]
  split
  · rfl
  · rw [closeRoot]
    split
    · split <;> rfl
    · rfl
  · rfl

/-- A rule misses what its body misses. -/
theorem farthest_within (name : String) (body : Parse → Bool × Parse) (p : Parse) :
    (p.within name body).2.farthest = (body (p.enter name)).2.farthest := by
  rw [within_eq, farthest_close]

/-! ### Explanations -/

/-- The fault of a file of some tokens whose farthest miss is given: the token that was missed, and
the rules that were open then. -/
def Miss.fault (miss : Miss) (tokens : List Token) : Fault :=
  let line := (start tokens).lineAt miss.index
  ⟨.unexpected line ((tokens[miss.index]?).elim "end of input" Token.display)
      ("expected " ++ miss.expected),
    some { line := some line.toNat, stack := miss.rules }⟩

/-- A root rule that fails after a miss fails for that miss. -/
theorem fault_close_root {p : Parse} {frame : Frame} {miss : Miss} (hframes : p.frames = [frame])
    (hmiss : p.farthest = some miss) :
    (p.close false).2.fault = some (miss.fault p.tokens.toList) := by
  rw [close, hframes]
  simp only [closeRoot, Bool.false_eq_true, if_false, explain, hmiss, Option.map_some,
    Option.getD_some, Miss.fault, start, Array.getElem?_toList]
  rfl

/-- A root that fails is explained by the farthest miss. -/
theorem fault_within_root {name : String} {body : Parse → Bool × Parse} {p : Parse} {frame : Frame}
    {miss : Miss} (hframes : (body (p.enter name)).2.frames = [frame])
    (hfailure : (body (p.enter name)).1 = false)
    (hmiss : (body (p.enter name)).2.farthest = some miss) :
    (p.within name body).2.fault = some (miss.fault (body (p.enter name)).2.tokens.toList) := by
  rw [within_eq, hfailure]
  exact fault_close_root hframes hmiss

end OrderFile.Parse
