import OrderFile.Trace.NearMiss

/-!
How the closest rule of a trace is found. A failed rule has matched no more tokens than the trace
that it stands in, so a rule around it that matched one token more comes closer, and of rules that
come equally close the last one counts.
-/

set_option autoImplicit false

namespace OrderFile.Trace

/-! ### The closest of several near misses -/

theorem closest_eq_none_iff {misses : List NearMiss} : closest misses = none ↔ misses = [] := by
  cases misses with
  | nil => exact iff_of_true rfl rfl
  | cons first others =>
    refine iff_of_false ?_ (List.cons_ne_nil _ _)
    rw [closest]
    split
    · exact Option.some_ne_none _
    · split <;> exact Option.some_ne_none _

/-- None before the closest comes closer, and none after it as close. -/
theorem exists_split_of_closest {misses : List NearMiss} {miss : NearMiss}
    (h : closest misses = some miss) :
    ∃ before after, misses = before ++ miss :: after ∧
      (∀ other ∈ before, other.matched ≤ miss.matched) ∧
      ∀ other ∈ after, other.matched < miss.matched := by
  induction misses generalizing miss with
  | nil => cases h
  | cons first others ih =>
    rw [closest] at h
    cases hothers : closest others with
    | none =>
      rw [hothers] at h
      obtain rfl := Option.some.inj h
      rw [closest_eq_none_iff.mp hothers]
      exact ⟨[], [], rfl, List.forall_mem_nil _, List.forall_mem_nil _⟩
    | some later =>
      rw [hothers] at h
      obtain ⟨before, after, rfl, hbefore, hafter⟩ := ih hothers
      dsimp only at h
      split at h
      · next hle =>
        obtain rfl := Option.some.inj h
        exact ⟨first :: before, after, rfl, List.forall_mem_cons.mpr ⟨hle, hbefore⟩, hafter⟩
      · next hlt =>
        obtain rfl := Option.some.inj h
        refine ⟨[], before ++ later :: after, rfl, List.forall_mem_nil _, fun other hother ↦ ?_⟩
        refine Nat.lt_of_le_of_lt ?_ (Nat.lt_of_not_le hlt)
        rcases List.mem_append.mp hother with hother | hother
        · exact hbefore other hother
        · rcases List.mem_cons.mp hother with rfl | hother
          · exact Nat.le_refl _
          · exact Nat.le_of_lt (hafter other hother)

theorem mem_of_closest {misses : List NearMiss} {miss : NearMiss} (h : closest misses = some miss) :
    miss ∈ misses := by
  obtain ⟨before, after, rfl, -⟩ := exists_split_of_closest h
  exact List.mem_append_right _ List.mem_cons_self

/-- A near miss is the closest if none before it comes closer and none after it as close. -/
theorem closest_append_cons {before after : List NearMiss} {miss : NearMiss}
    (hbefore : ∀ other ∈ before, other.matched ≤ miss.matched)
    (hafter : ∀ other ∈ after, other.matched < miss.matched) :
    closest (before ++ miss :: after) = some miss := by
  induction before with
  | nil =>
    rw [List.nil_append, closest]
    cases hlater : closest after with
    | none => rfl
    | some later => exact if_neg (Nat.not_le_of_lt (hafter later (mem_of_closest hlater)))
  | cons first others ih =>
    obtain ⟨hfirst, hothers⟩ := List.forall_mem_cons.mp hbefore
    rw [List.cons_append, closest, ih hothers]
    exact if_pos hfirst

/-! ### Traces in a row -/

theorem matchedTokensOf_append (first second : List Trace) :
    matchedTokensOf (first ++ second) = matchedTokensOf first + matchedTokensOf second := by
  induction first with
  | nil => rw [List.nil_append, matchedTokensOf, Nat.zero_add]
  | cons trace first ih =>
    rw [List.cons_append, matchedTokensOf, matchedTokensOf, ih, Nat.add_assoc]

theorem failedRulesOf_append (first second : List Trace) :
    failedRulesOf (first ++ second) = failedRulesOf first ++ failedRulesOf second := by
  induction first with
  | nil => rw [List.nil_append, failedRulesOf, List.nil_append]
  | cons trace first ih =>
    rw [List.cons_append, failedRulesOf, failedRulesOf, ih, List.append_assoc]

/-- Several traces have a last miss if one of them has one. -/
theorem isSome_lastMissOf?_of_mem {trace : Trace} {traces : List Trace} (hmem : trace ∈ traces)
    (h : trace.lastMiss?.isSome = true) : (lastMissOf? traces).isSome = true := by
  induction traces with
  | nil => cases hmem
  | cons first others ih =>
    rw [lastMissOf?, Option.isSome_or, Bool.or_eq_true]
    rcases List.mem_cons.mp hmem with rfl | hother
    · exact .inr h
    · exact .inl (ih hother)

mutual

/-- No rule under an entry has matched more tokens than the entry. -/
theorem matchedTokens_le_of_mem_failedRules {rule : Trace} :
    (trace : Trace) → rule ∈ trace.failedRules → rule.matchedTokens ≤ trace.matchedTokens
  | entry label children, h => by
    rw [failedRules] at h
    rcases List.mem_append.mp h with hself | hinside
    · split at hself
      · exact Nat.le_of_eq (congrArg matchedTokens (List.mem_singleton.mp hself))
      · cases hself
    · rw [matchedTokens]
      exact Nat.le_add_left_of_le (matchedTokens_le_of_mem_failedRulesOf children hinside)

theorem matchedTokens_le_of_mem_failedRulesOf {rule : Trace} :
    (traces : List Trace) → rule ∈ failedRulesOf traces →
      rule.matchedTokens ≤ matchedTokensOf traces
  | [], h => by
    rw [failedRulesOf] at h
    cases h
  | trace :: traces, h => by
    rw [failedRulesOf] at h
    rw [matchedTokensOf]
    rcases List.mem_append.mp h with hfirst | hothers
    · exact Nat.le_add_right_of_le (matchedTokens_le_of_mem_failedRules trace hfirst)
    · exact Nat.le_add_left_of_le (matchedTokens_le_of_mem_failedRulesOf traces hothers)

end

/-! ### Near misses -/

/-- The near misses in some traces, in their order. -/
def missesOf (traces : List Trace) : List NearMiss :=
  (failedRulesOf traces).filterMap nearMiss?

/-- The near miss of a trace is the closest of its misses. -/
theorem nearestMiss_eq (trace : Trace) : trace.nearestMiss = closest (missesOf [trace]) := by
  rw [nearestMiss, missesOf, failedRulesOf, failedRulesOf, List.append_nil]

theorem missesOf_append (first second : List Trace) :
    missesOf (first ++ second) = missesOf first ++ missesOf second := by
  rw [missesOf, failedRulesOf_append, List.filterMap_append]
  rfl

/-- The near misses of a rule that failed: the rule itself, if it says what it wanted, and those
under it. -/
theorem missesOf_failedRule (name : String) (children : List Trace) :
    missesOf [entry (.rule name false) children] =
      (entry (.rule name false) children).nearMiss?.toList ++ missesOf children := by
  have hrules : (entry (.rule name false) children).failedRules =
      entry (.rule name false) children :: failedRulesOf children := by
    rw [failedRules]
    rfl
  rw [missesOf, failedRulesOf, failedRulesOf, List.append_nil, hrules, List.filterMap_cons]
  cases (entry (.rule name false) children).nearMiss? <;> rfl

/-- An entry that is no failed rule has no near misses but those under it. -/
theorem missesOf_entry {label : Label} (h : label.isFailedRule = false) (children : List Trace) :
    missesOf [entry label children] = missesOf children := by
  rw [missesOf, failedRulesOf, failedRulesOf, failedRules, h, List.append_nil]
  rfl

/-- A miss has matched no more tokens than the traces that it is in. -/
theorem matched_le_of_mem_missesOf {traces : List Trace} {miss : NearMiss}
    (h : miss ∈ missesOf traces) : miss.matched ≤ matchedTokensOf traces := by
  obtain ⟨rule, hrule, hmiss⟩ := List.mem_filterMap.mp h
  have hmatched : miss.matched = rule.matchedTokens := by
    obtain ⟨_, _, hmiss⟩ := Option.bind_eq_some_iff.mp hmiss
    obtain ⟨_, _, hmiss⟩ := Option.bind_eq_some_iff.mp hmiss
    cases hmiss
    rfl
  rw [hmatched]
  exact matchedTokens_le_of_mem_failedRulesOf traces hrule

/-- A rule with a failure directly under it says what it wanted. -/
theorem isSome_wanted? (name : String) {children : List Trace}
    (h : ∃ trace ∈ children, trace.succeeded = false) :
    (entry (.rule name false) children).wanted?.isSome = true := by
  obtain ⟨⟨label, inside⟩, hmem, hfailed⟩ := h
  rw [wanted?, Option.isSome_or, Bool.or_eq_true, Option.isSome_map]
  cases label with
  | attempt expected found matched =>
    obtain rfl : matched = false := hfailed
    exact .inl (isSome_lastMissOf?_of_mem hmem rfl)
  | rule inner succeeded =>
    obtain rfl : succeeded = false := hfailed
    have hfind : (children.reverse.find? (·.label.isFailedRule)).isSome = true :=
      List.find?_isSome.mpr ⟨_, List.mem_reverse.mpr hmem, rfl⟩
    obtain ⟨⟨last, under⟩, hlast⟩ := Option.isSome_iff_exists.mp hfind
    have hrule := List.find?_some hlast
    refine .inr ?_
    rw [lastFailedRule?, Trace.children, hlast]
    cases last with
    | attempt => cases hrule
    | rule => rfl

/-- A failed rule with a failure right under it is a miss, with all tokens matched under it. -/
theorem exists_nearMiss? (name : String) {children : List Trace}
    (h : ∃ trace ∈ children, trace.succeeded = false) :
    ∃ expected found, (entry (.rule name false) children).nearMiss? =
      some ⟨name, matchedTokensOf children, expected, found⟩ := by
  obtain ⟨⟨expected, found⟩, hwanted⟩ := Option.isSome_iff_exists.mp (isSome_wanted? name h)
  refine ⟨expected, found, ?_⟩
  have hmatched : (entry (.rule name false) children).matchedTokens = matchedTokensOf children := by
    rw [matchedTokens]
    exact Nat.zero_add _
  rw [nearMiss?, hwanted, hmatched]
  rfl

/-! ### Traces that outdo their near misses -/

/-- Whether all the tokens matched in some traces are more than any near miss in them matched. -/
def Outdone (traces : List Trace) : Prop :=
  ∀ miss ∈ missesOf traces, miss.matched < matchedTokensOf traces

/-- Two parts that each matched more than their misses matched more together. -/
theorem Outdone.append {first second : List Trace} (hfirst : Outdone first)
    (hsecond : Outdone second) : Outdone (first ++ second) := by
  intro miss hmiss
  rw [missesOf_append] at hmiss
  rw [matchedTokensOf_append]
  rcases List.mem_append.mp hmiss with hmiss | hmiss
  · exact Nat.lt_add_right _ (hfirst miss hmiss)
  · exact Nat.lt_add_left _ (hsecond miss hmiss)

theorem matchedTokensOf_rule (name : String) (succeeded : Bool) (children : List Trace) :
    matchedTokensOf [entry (.rule name succeeded) children] = matchedTokensOf children := by
  rw [matchedTokensOf, matchedTokensOf, matchedTokens]
  exact Nat.zero_add _

theorem matchedTokensOf_match_cons (expected : String) (found : Option Token)
    (others : List Trace) :
    matchedTokensOf (entry (.attempt expected found true) [] :: others) =
      1 + matchedTokensOf others := by
  rw [matchedTokensOf, matchedTokens, matchedTokensOf]
  rfl

/-- A token that is matched before anything else outdoes what comes after it. -/
theorem outdone_of_match (expected : String) (found : Option Token) (others : List Trace) :
    Outdone (entry (.attempt expected found true) [] :: others) := by
  intro miss hmiss
  have hothers : miss ∈ missesOf others := by
    rw [← List.singleton_append, missesOf_append, missesOf_entry rfl] at hmiss
    exact hmiss
  have hle := matched_le_of_mem_missesOf hothers
  rw [matchedTokensOf_match_cons]
  omega

/-- An entry that is no failed rule adds no miss to those under it. -/
theorem outdone_entry {label : Label} {children : List Trace} (hlabel : label.isFailedRule = false)
    (h : Outdone children) : Outdone [entry label children] := by
  intro miss hmiss
  rw [missesOf_entry hlabel] at hmiss
  rw [matchedTokensOf, matchedTokensOf, matchedTokens]
  have hlt := h miss hmiss
  omega

end OrderFile.Trace
