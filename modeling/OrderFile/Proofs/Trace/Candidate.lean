import Mathlib.Data.Set.Card
import OrderFile.Proofs.Trace.Address
import OrderFile.Proofs.Trace.NearMiss

/-!
The near miss of a trace said by addresses. A failed rule is a candidate if a failed attempt at a
token stands below it with nothing but failed rules between, or if a rule directly under it failed.
The near miss is the last of the candidates with most tokens matched below them, and it wants what
the last of these attempts wanted, or else the last of these rules: `nearestMiss_candidate`.
-/

set_option autoImplicit false

namespace OrderFile.Trace

/-! ### The last of what stands at addresses -/

section

variable {α : Type}

/-- Whether a value is that at the last of the addresses where some values stand. -/
def IsLast (stands : List Nat → α → Prop) : Option α → Prop
  | none => ∀ path value, ¬ stands path value
  | some value => ∃ path, stands path value ∧ ∀ other later, stands other later → UpTo other path

/-- What stands in a list of traces, of which the first has the index zero. -/
def Among (stands : Trace → List Nat → α → Prop) (traces : List Trace) : List Nat → α → Prop
  | [], _ => False
  | i :: path, value => ∃ child, traces[i]? = some child ∧ stands child path value

/-- What the last of several things is depends only on which things there are. -/
theorem IsLast.congr {stands others : List Nat → α → Prop} {last? : Option α}
    (h : ∀ path value, stands path value ↔ others path value) :
    IsLast stands last? ↔ IsLast others last? := by
  obtain rfl : stands = others := funext₂ fun path value ↦ propext (h path value)
  rfl

/-- There is a last one exactly if there is one. -/
theorem IsLast.isSome_iff {stands : List Nat → α → Prop} {last? : Option α}
    (h : IsLast stands last?) : last?.isSome = true ↔ ∃ path value, stands path value := by
  cases last? with
  | none => simpa [IsLast] using h
  | some value =>
    obtain ⟨path, hpath, -⟩ := h
    exact iff_of_true rfl ⟨path, value, hpath⟩

/-- Where one value at most stands at an address, there is one last value at most. -/
theorem IsLast.unique {stands : List Nat → α → Prop} {first? second? : Option α}
    (hfun : ∀ path value other, stands path value → stands path other → value = other)
    (hfirst : IsLast stands first?) (hsecond : IsLast stands second?) : first? = second? := by
  cases first? with
  | none =>
    cases second? with
    | none => rfl
    | some value =>
      obtain ⟨path, hpath, -⟩ := hsecond
      exact absurd hpath (hfirst path value)
  | some value =>
    obtain ⟨path, hpath, hlast⟩ := hfirst
    cases second? with
    | none => exact absurd hpath (hsecond path value)
    | some other =>
      obtain ⟨place, hplace, hlater⟩ := hsecond
      obtain rfl := (hlast place other hplace).antisymm (hlater path value hpath)
      rw [hfun _ _ _ hpath hplace]

section

variable {stands : Trace → List Nat → α → Prop} {trace : Trace} {traces : List Trace}

theorem among_zero_iff {path : List Nat} {value : α} :
    Among stands (trace :: traces) (0 :: path) value ↔ stands trace path value := by
  constructor
  · rintro ⟨child, hchild, hstands⟩
    obtain rfl := Option.some.inj hchild
    exact hstands
  · intro hstands
    exact ⟨trace, rfl, hstands⟩

theorem among_succ_iff {i : Nat} {path : List Nat} {value : α} :
    Among stands (trace :: traces) ((i + 1) :: path) value ↔
      Among stands traces (i :: path) value :=
  Iff.rfl

/-- What is last in some traces stays so behind one trace more. -/
theorem IsLast.behind {value : α} (h : IsLast (Among stands traces) (some value)) :
    IsLast (Among stands (trace :: traces)) (some value) := by
  obtain ⟨path, hpath, hlast⟩ := h
  cases path with
  | nil => exact absurd hpath id
  | cons i path =>
    refine ⟨(i + 1) :: path, among_succ_iff.mpr hpath, fun other later hother ↦ ?_⟩
    match other, hother with
    | 0 :: other, _ => exact .inr (precedes_of_lt (Nat.succ_pos i) ..)
    | (j + 1) :: other, hother => exact (hlast (j :: other) later hother).succ

/-- What is last in a trace stays so before traces in which nothing stands. -/
theorem IsLast.before {last? : Option α} (htrace : IsLast (stands trace) last?)
    (h : IsLast (Among stands traces) none) : IsLast (Among stands (trace :: traces)) last? := by
  cases last? with
  | none =>
    intro path value hvalue
    match path, hvalue with
    | 0 :: path, hvalue => exact htrace path value (among_zero_iff.mp hvalue)
    | (i + 1) :: path, hvalue => exact h (i :: path) value hvalue
  | some value =>
    obtain ⟨path, hpath, hlast⟩ := htrace
    refine ⟨0 :: path, among_zero_iff.mpr hpath, fun other later hother ↦ ?_⟩
    match other, hother with
    | 0 :: other, hother => exact (hlast other later (among_zero_iff.mp hother)).cons 0
    | (j + 1) :: other, hother => exact absurd hother (h (j :: other) later)

/-- The last of what stands in some traces is found from the last of them on. -/
theorem isLast_among {last? : Trace → Option α} (traces : List Trace)
    (h : ∀ trace ∈ traces, IsLast (stands trace) (last? trace)) :
    IsLast (Among stands traces) (traces.reverse.findSome? last?) := by
  induction traces with
  | nil =>
    rintro (_ | ⟨i, path⟩) value
    · exact id
    · rintro ⟨child, hchild, -⟩
      cases hchild
  | cons trace traces ih =>
    obtain ⟨htrace, htraces⟩ := List.forall_mem_cons.mp h
    have hothers := ih htraces
    rw [List.reverse_cons, List.findSome?_append, List.findSome?_singleton]
    cases hlater : traces.reverse.findSome? last? with
    | some value =>
      rw [hlater] at hothers
      exact hothers.behind
    | none =>
      rw [hlater] at hothers
      exact htrace.before hothers

end

end

/-! ### What a failed rule wanted -/

/-- Whether a failed attempt at a token stands at an address below an entry, with nothing but failed
rules between the two. -/
structure Misses (trace : Trace) (path : List Nat) (miss : String × Option Token) : Prop where
  ne_nil : path ≠ []
  attempt : trace.labelAt? path = some (.attempt miss.1 miss.2 false)
  between : ∀ front back, path = front ++ back → front ≠ [] → back ≠ [] →
    ∃ name, trace.labelAt? front = some (.rule name false)

/-- Whether a failed rule stands at an address directly under an entry. -/
def Fails (trace : Trace) (path : List Nat) (name : String) : Prop :=
  path.length = 1 ∧ trace.labelAt? path = some (.rule name false)

/-- Whether an entry is a failed rule that can say what it wanted. -/
def IsCandidate (node : Trace) : Prop :=
  (∃ name, node.label = .rule name false) ∧
    ((∃ below miss, node.Misses below miss) ∨ ∃ below inner, node.Fails below inner)

/-- What a failed rule wanted: the last token that was missed, or if there is none the last rule
that failed. -/
def Wants (node : Trace) (expected : String) (found : Option Token) : Prop :=
  IsLast node.Misses (some (expected, found)) ∨
    IsLast node.Misses none ∧ found = none ∧ IsLast node.Fails (some expected)

/-- The addresses below an entry where a token was matched. -/
def matchesBelow (node : Trace) : Set (List Nat) :=
  {path | path ≠ [] ∧ ∃ expected found, node.labelAt? path = some (.attempt expected found true)}

/-- What stands at or below an entry: its own failed attempt, or one below a failed rule. -/
def Missed (trace : Trace) (path : List Nat) (miss : String × Option Token) : Prop :=
  path = [] ∧ trace.label = .attempt miss.1 miss.2 false ∨
    (∃ name, trace.label = .rule name false) ∧ trace.Misses path miss

section

variable {trace : Trace} {path : List Nat} {miss : String × Option Token}

/-- A miss below an entry is below one of its children, or that child itself. -/
theorem Misses.exists_child {i : Nat} (h : trace.Misses (i :: path) miss) :
    ∃ child, trace.children[i]? = some child ∧ child.Missed path miss := by
  obtain ⟨child, hchild, hlabel⟩ := labelAt?_cons_eq_some_iff.mp h.attempt
  have hbetween {front back : List Nat} (hpath : path = front ++ back) (hback : back ≠ []) :
      ∃ name, child.labelAt? front = some (.rule name false) := by
    obtain ⟨name, hname⟩ := h.between (i :: front) back (by rw [hpath]; rfl) (by simp) hback
    obtain ⟨other, hother, hrule⟩ := labelAt?_cons_eq_some_iff.mp hname
    obtain rfl := Option.some.inj (hchild.symm.trans hother)
    exact ⟨name, hrule⟩
  refine ⟨child, hchild, ?_⟩
  by_cases hnil : path = []
  · subst hnil
    exact .inl ⟨rfl, Option.some.inj hlabel⟩
  · obtain ⟨name, hname⟩ := hbetween (List.nil_append path).symm hnil
    exact .inr ⟨⟨name, Option.some.inj hname⟩, hnil, hlabel, fun _ _ hpath _ ↦ hbetween hpath⟩

theorem Missed.misses {i : Nat} {child : Trace} (h : child.Missed path miss)
    (hchild : trace.children[i]? = some child) : trace.Misses (i :: path) miss := by
  refine ⟨List.cons_ne_nil _ _, labelAt?_cons_eq_some_iff.mpr ⟨child, hchild, ?_⟩, ?_⟩
  · rcases h with ⟨rfl, hlabel⟩ | ⟨-, hmisses⟩
    · exact congrArg some hlabel
    · exact hmisses.attempt
  · intro front back hpath hfront hback
    obtain ⟨j, front, rfl⟩ := List.exists_cons_of_ne_nil hfront
    obtain ⟨rfl, hrest⟩ := List.cons.inj hpath
    rcases h with ⟨rfl, -⟩ | ⟨⟨name, hname⟩, hmisses⟩
    · exact absurd (List.append_eq_nil_iff.mp hrest.symm).2 hback
    · by_cases hnil : front = []
      · subst hnil
        exact ⟨name, labelAt?_cons_eq_some_iff.mpr ⟨child, hchild, congrArg some hname⟩⟩
      · obtain ⟨inner, hinner⟩ := hmisses.between front back hrest hnil hback
        exact ⟨inner, labelAt?_cons_eq_some_iff.mpr ⟨child, hchild, hinner⟩⟩

/-- The misses of an entry are those found among its children. -/
theorem misses_iff : trace.Misses path miss ↔ Among Missed trace.children path miss := by
  cases path with
  | nil => exact iff_of_false (fun h ↦ h.ne_nil rfl) id
  | cons i path => exact ⟨Misses.exists_child, fun ⟨_, hchild, h⟩ ↦ h.misses hchild⟩

/-- The last miss of several traces is the first that is found from the end. -/
theorem lastMissOf?_eq_findSome? (traces : List Trace) :
    lastMissOf? traces = traces.reverse.findSome? lastMiss? := by
  induction traces with
  | nil => rfl
  | cons trace traces ih =>
    rw [lastMissOf?, ih, List.reverse_cons, List.findSome?_append, List.findSome?_singleton]

/-- If the last miss of each child is known, so is the last miss of the entry. -/
theorem isLast_misses (h : ∀ child ∈ trace.children, IsLast child.Missed child.lastMiss?) :
    IsLast trace.Misses (lastMissOf? trace.children) := by
  rw [IsLast.congr fun _ _ ↦ misses_iff, lastMissOf?_eq_findSome?]
  exact isLast_among trace.children h

mutual

/-- The search for the last miss finds it. -/
theorem isLast_missed : (trace : Trace) → IsLast trace.Missed trace.lastMiss?
  | entry label children => by
    have hbelow : IsLast (entry label children).Misses (lastMissOf? children) :=
      isLast_misses (forall_isLast_missed children)
    have hother (hrule : ∀ name, label ≠ .rule name false)
        (hattempt : ∀ expected found, label ≠ .attempt expected found false) :
        IsLast (entry label children).Missed none := by
      rintro path miss (⟨-, hlabel⟩ | ⟨⟨name, hlabel⟩, -⟩)
      · exact hattempt _ _ hlabel
      · exact hrule name hlabel
    cases label with
    | attempt expected found matched =>
      cases matched with
      | true => exact hother (by simp) (by simp)
      | false =>
        refine ⟨[], .inl ⟨rfl, rfl⟩, ?_⟩
        rintro other later (⟨rfl, -⟩ | ⟨⟨name, hlabel⟩, -⟩)
        · exact .inl rfl
        · cases hlabel
    | rule name succeeded =>
      cases succeeded with
      | true => exact hother (by simp) (by simp)
      | false =>
        refine (IsLast.congr fun path miss ↦ ?_).mpr hbelow
        refine ⟨fun h ↦ ?_, fun h ↦ .inr ⟨⟨name, rfl⟩, h⟩⟩
        rcases h with ⟨-, hlabel⟩ | ⟨-, hmisses⟩
        · cases hlabel
        · exact hmisses

theorem forall_isLast_missed : (traces : List Trace) →
    ∀ trace ∈ traces, IsLast trace.Missed trace.lastMiss?
  | [] => List.forall_mem_nil _
  | trace :: traces =>
    List.forall_mem_cons.mpr ⟨isLast_missed trace, forall_isLast_missed traces⟩

end

/-- A label is a failed rule exactly if it names a rule that did not succeed. -/
theorem isFailedRule_iff {label : Label} :
    label.isFailedRule = true ↔ ∃ name, label = .rule name false := by
  rcases label with ⟨name, _ | _⟩ | _ <;> simp [Label.isFailedRule]

/-- The name of a rule that failed. -/
def failedName? (trace : Trace) : Option String :=
  if trace.label.isFailedRule then trace.ruleName? else none

theorem failedName?_eq_some_iff {name : String} :
    trace.failedName? = some name ↔ trace.label = .rule name false := by
  rw [failedName?, ruleName?]
  rcases trace.label with ⟨other, _ | _⟩ | _ <;> simp [Label.isFailedRule]

/-- The last failed rule right under an entry is the first that is found from the end. -/
theorem lastFailedRule?_eq_findSome? (trace : Trace) :
    trace.lastFailedRule? = trace.children.reverse.findSome? failedName? := by
  rw [lastFailedRule?]
  induction trace.children.reverse with
  | nil => rfl
  | cons child children ih =>
    rw [List.find?_cons, List.findSome?_cons]
    cases hfailed : child.label.isFailedRule with
    | true =>
      obtain ⟨name, hlabel⟩ := isFailedRule_iff.mp hfailed
      have hname : child.ruleName? = some name := by rw [ruleName?, hlabel]
      rw [failedName?_eq_some_iff.mpr hlabel]
      exact hname
    | false =>
      rw [failedName?, hfailed]
      exact ih

/-- Failed rules right under an entry, said by their addresses. -/
theorem fails_iff {name : String} :
    trace.Fails path name ↔
      Among (fun child rest name ↦ rest = [] ∧ child.label = .rule name false) trace.children path
        name := by
  cases path with
  | nil => exact iff_of_false (fun h ↦ absurd h.1 (by simp)) id
  | cons i path =>
    rw [Fails, labelAt?_cons_eq_some_iff, List.length_cons, Nat.add_eq_right,
      List.length_eq_zero_iff]
    constructor
    · rintro ⟨rfl, child, hchild, hlabel⟩
      exact ⟨child, hchild, rfl, Option.some.inj hlabel⟩
    · rintro ⟨child, hchild, rfl, hlabel⟩
      exact ⟨rfl, child, hchild, congrArg some hlabel⟩

/-- The name that the search gives is the one of the last failed rule under the entry. -/
theorem isLast_fails (trace : Trace) : IsLast trace.Fails trace.lastFailedRule? := by
  rw [IsLast.congr fun _ _ ↦ fails_iff, lastFailedRule?_eq_findSome?]
  refine isLast_among trace.children fun child _ ↦ ?_
  cases hname : child.failedName? with
  | none =>
    rintro path name ⟨-, hlabel⟩
    rw [failedName?_eq_some_iff.mpr hlabel] at hname
    cases hname
  | some name =>
    refine ⟨[], ⟨rfl, failedName?_eq_some_iff.mp hname⟩, ?_⟩
    rintro other later ⟨rfl, -⟩
    exact .inl rfl

end

/-- The search for what a failed rule wanted finds what it wanted. -/
theorem wants_of_wanted? {node : Trace} {expected : String} {found : Option Token}
    (h : node.wanted? = some (expected, found)) : node.Wants expected found := by
  have hmisses := isLast_misses (forall_isLast_missed node.children)
  have hfails := isLast_fails node
  rw [wanted?] at h
  cases hmiss : lastMissOf? node.children with
  | some miss =>
    rw [hmiss] at h hmisses
    obtain rfl := Option.some.inj h
    exact .inl hmisses
  | none =>
    rw [hmiss, Option.none_or] at h
    rw [hmiss] at hmisses
    obtain ⟨name, hname, heq⟩ := Option.map_eq_some_iff.mp h
    obtain ⟨rfl, rfl⟩ := Prod.mk.inj heq
    rw [hname] at hfails
    exact .inr ⟨hmisses, rfl, hfails⟩

/-- An address has one miss at most. -/
theorem Misses.functional {node : Trace} {path : List Nat} {miss other : String × Option Token}
    (h : node.Misses path miss) (h' : node.Misses path other) : miss = other := by
  injection Option.some.inj (h.attempt.symm.trans h'.attempt) with hexpected hfound
  exact Prod.ext hexpected hfound

theorem Fails.functional {node : Trace} {path : List Nat} {name other : String}
    (h : node.Fails path name) (h' : node.Fails path other) : name = other := by
  injection Option.some.inj (h.2.symm.trans h'.2)

/-- What is wanted at an entry is decided by the trace. -/
theorem Wants.unique {node : Trace} {expected other : String} {found later : Option Token}
    (h : node.Wants expected found) (h' : node.Wants other later) :
    expected = other ∧ found = later := by
  have hmisses {first? second? : Option (String × Option Token)} :
      IsLast node.Misses first? → IsLast node.Misses second? → first? = second? :=
    IsLast.unique fun _ _ _ ↦ Misses.functional
  have hfails {first? second? : Option String} :
      IsLast node.Fails first? → IsLast node.Fails second? → first? = second? :=
    IsLast.unique fun _ _ _ ↦ Fails.functional
  rcases h with h | ⟨hnone, rfl, h⟩
  · rcases h' with h' | ⟨hnone, -⟩
    · exact Prod.mk.inj (Option.some.inj (hmisses h h'))
    · cases hmisses h hnone
  · rcases h' with h' | ⟨-, rfl, h'⟩
    · cases hmisses hnone h'
    · exact ⟨Option.some.inj (hfails h h'), rfl⟩

/-- Something is wanted at an entry exactly if an attempt is missed below it or a rule right under
it failed. -/
theorem isSome_wanted?_iff {node : Trace} :
    node.wanted?.isSome = true ↔
      (∃ below miss, node.Misses below miss) ∨ ∃ below inner, node.Fails below inner := by
  have hmisses := isLast_misses (forall_isLast_missed node.children)
  rw [wanted?, Option.isSome_or, Bool.or_eq_true, Option.isSome_map, hmisses.isSome_iff,
    (isLast_fails node).isSome_iff]

/-! ### Tokens below a rule -/

mutual

/-- The tokens matched in a trace are counted over its addresses. -/
theorem matchedTokens_eq_countP : (trace : Trace) →
    trace.matchedTokens = trace.nodes.countP (·.2.label.isMatch)
  | entry label children => by
    rw [matchedTokens, nodes, List.countP_cons, matchedTokensOf_eq_countP 0 children, Nat.add_comm]
    rfl

theorem matchedTokensOf_eq_countP (i : Nat) : (traces : List Trace) →
    matchedTokensOf traces = (nodesFrom i traces).countP (·.2.label.isMatch)
  | [] => rfl
  | trace :: traces => by
    rw [matchedTokensOf, nodesFrom, List.countP_append, List.countP_map,
      matchedTokens_eq_countP trace, matchedTokensOf_eq_countP (i + 1) traces]
    rfl

end

theorem isMatch_iff {label : Label} :
    label.isMatch = true ↔ ∃ expected found, label = .attempt expected found true := by
  rcases label with _ | ⟨expected, found, _ | _⟩ <;> simp [Label.isMatch]

/-- The addresses of the matched tokens of an entry, in their order. -/
def matchAddresses (node : Trace) : List (List Nat) :=
  (node.nodes.filter (·.2.label.isMatch)).map (·.1)

/-- A trace has one address for each token that was matched in it. -/
theorem length_matchAddresses (node : Trace) : node.matchAddresses.length = node.matchedTokens := by
  rw [matchAddresses, List.length_map, ← List.countP_eq_length_filter, matchedTokens_eq_countP]

theorem nodup_matchAddresses (node : Trace) : node.matchAddresses.Nodup := by
  refine List.pairwise_map.mpr (((pairwise_nodes node).filter _).imp fun hlt heq ↦ ?_)
  exact hlt.not_upTo (.inl heq.symm)

/-- The addresses of the matches are those where a token was matched. -/
theorem mem_matchAddresses_iff {node : Trace} {path : List Nat} :
    path ∈ node.matchAddresses ↔
      ∃ expected found, node.labelAt? path = some (.attempt expected found true) := by
  rw [matchAddresses, List.mem_map]
  constructor
  · rintro ⟨⟨_, inner⟩, hmem, rfl⟩
    obtain ⟨hinner, hmatch⟩ := List.mem_filter.mp hmem
    obtain ⟨expected, found, hlabel⟩ := isMatch_iff.mp hmatch
    refine ⟨expected, found, ?_⟩
    rw [labelAt?, (mem_nodes_iff node).mp hinner, Option.map_some, hlabel]
  · rintro ⟨expected, found, hlabel⟩
    obtain ⟨inner, hinner, hmatch⟩ := Option.map_eq_some_iff.mp hlabel
    refine ⟨(path, inner), List.mem_filter.mpr ⟨(mem_nodes_iff node).mpr hinner, ?_⟩, rfl⟩
    exact isMatch_iff.mpr ⟨expected, found, hmatch⟩

/-- The matched tokens of a rule are those below it. -/
theorem matchedTokens_eq_ncard {node : Trace} {name : String} {succeeded : Bool}
    (h : node.label = .rule name succeeded) : node.matchedTokens = node.matchesBelow.ncard := by
  have hbelow : node.matchesBelow = node.matchAddresses.toFinset := by
    ext path
    rw [List.coe_toFinset, Set.mem_ofPred_eq, mem_matchAddresses_iff]
    refine and_iff_right_of_imp ?_
    rintro ⟨expected, found, hlabel⟩ rfl
    rw [labelAt?_nil, h] at hlabel
    cases hlabel
  rw [hbelow, Set.ncard_coe_finset, List.toFinset_card_of_nodup node.nodup_matchAddresses,
    length_matchAddresses]

/-! ### Candidates -/

mutual

theorem failedRules_eq_map : (trace : Trace) →
    trace.failedRules = (trace.nodes.filter (·.2.label.isFailedRule)).map (·.2)
  | entry label children => by
    rw [failedRules, nodes, failedRulesOf_eq_map 0 children]
    by_cases hfailed : label.isFailedRule = true
    · rw [if_pos hfailed, List.filter_cons_of_pos (by exact hfailed), List.map_cons]
      rfl
    · rw [if_neg hfailed, List.filter_cons_of_neg (by exact hfailed)]
      rfl

theorem failedRulesOf_eq_map (i : Nat) : (traces : List Trace) →
    failedRulesOf traces = ((nodesFrom i traces).filter (·.2.label.isFailedRule)).map (·.2)
  | [] => rfl
  | trace :: traces => by
    rw [failedRulesOf, nodesFrom, List.filter_append, List.map_append, List.filter_map,
      List.map_map, failedRules_eq_map trace, failedRulesOf_eq_map (i + 1) traces]
    rfl

end

/-- The failed rules that say what they wanted, as near misses with their addresses. -/
def addressedMisses (trace : Trace) : List (List Nat × NearMiss) :=
  (trace.nodes.filter (·.2.label.isFailedRule)).filterMap fun node ↦
    node.2.nearMiss?.map (node.1, ·)

/-- The near miss is the closest of the misses that have addresses. -/
theorem nearestMiss_eq_closest (trace : Trace) :
    trace.nearestMiss = closest (trace.addressedMisses.map (·.2)) := by
  have hsame (node : List Nat × Trace) :
      (node.2.nearMiss?.map (node.1, ·)).map (·.2) = node.2.nearMiss? := by
    rw [Option.map_map]
    exact Option.map_id'
  rw [nearestMiss, failedRules_eq_map, addressedMisses, List.filterMap_map, List.map_filterMap]
  simp only [hsame]
  rfl

/-- The misses of a trace come in the order of their addresses. -/
theorem pairwise_addressedMisses (trace : Trace) :
    trace.addressedMisses.Pairwise fun first second ↦ Precedes first.1 second.1 := by
  refine List.pairwise_filterMap.mpr (((pairwise_nodes trace).filter _).imp ?_)
  intro first second hlt miss hmiss later hlater
  obtain ⟨_, -, rfl⟩ := Option.map_eq_some_iff.mp hmiss
  obtain ⟨_, -, rfl⟩ := Option.map_eq_some_iff.mp hlater
  exact hlt

/-- The miss of a failed rule counts the matches below it and says what is wanted there. -/
theorem nearMiss?_eq_some_iff {node : Trace} {name : String} {miss : NearMiss}
    (h : node.label = .rule name false) :
    node.nearMiss? = some miss ↔
      miss.rule = name ∧ miss.matched = node.matchesBelow.ncard ∧
        node.wanted? = some (miss.expected, miss.found) := by
  obtain ⟨rule, matched, expected, found⟩ := miss
  have hrule : node.ruleName? = some name := by rw [ruleName?, h]
  rw [nearMiss?, hrule, matchedTokens_eq_ncard h]
  cases node.wanted? with
  | none => simp
  | some wanted =>
    obtain ⟨wanted, seen⟩ := wanted
    simp [eq_comm]

/-- What a near miss at an address says. -/
theorem mem_addressedMisses_iff {trace : Trace} {path : List Nat} {miss : NearMiss} :
    (path, miss) ∈ trace.addressedMisses ↔
      ∃ node, trace.at? path = some node ∧ node.label = .rule miss.rule false ∧
        miss.matched = node.matchesBelow.ncard ∧
        node.wanted? = some (miss.expected, miss.found) := by
  rw [addressedMisses, List.mem_filterMap]
  constructor
  · rintro ⟨⟨_, node⟩, hmem, hmiss⟩
    obtain ⟨hnode, hfailed⟩ := List.mem_filter.mp hmem
    obtain ⟨name, hlabel⟩ := isFailedRule_iff.mp hfailed
    obtain ⟨_, hsome, heq⟩ := Option.map_eq_some_iff.mp hmiss
    obtain ⟨rfl, rfl⟩ := Prod.mk.inj heq
    obtain ⟨rfl, hsays⟩ := (nearMiss?_eq_some_iff hlabel).mp hsome
    exact ⟨node, (mem_nodes_iff trace).mp hnode, hlabel, hsays⟩
  · rintro ⟨node, hnode, hlabel, hsays⟩
    refine ⟨(path, node), List.mem_filter.mpr ⟨(mem_nodes_iff trace).mpr hnode, ?_⟩, ?_⟩
    · exact isFailedRule_iff.mpr ⟨miss.rule, hlabel⟩
    · rw [(nearMiss?_eq_some_iff hlabel).mpr ⟨rfl, hsays⟩]
      rfl

/-- An entry is a candidate if it leaves a near miss at its address. -/
theorem isCandidate_iff {trace node : Trace} {path : List Nat} (h : trace.at? path = some node) :
    node.IsCandidate ↔ ∃ miss, (path, miss) ∈ trace.addressedMisses := by
  rw [IsCandidate, ← isSome_wanted?_iff]
  constructor
  · rintro ⟨⟨name, hlabel⟩, hsome⟩
    obtain ⟨⟨expected, found⟩, hwanted⟩ := Option.isSome_iff_exists.mp hsome
    exact ⟨⟨name, node.matchesBelow.ncard, expected, found⟩,
      mem_addressedMisses_iff.mpr ⟨node, h, hlabel, rfl, hwanted⟩⟩
  · rintro ⟨miss, hmem⟩
    obtain ⟨other, hother, hlabel, -, hwanted⟩ := mem_addressedMisses_iff.mp hmem
    obtain rfl := Option.some.inj (h.symm.trans hother)
    exact ⟨⟨miss.rule, hlabel⟩, Option.isSome_of_eq_some hwanted⟩

/-- The closest of near misses in the order of their addresses. -/
theorem exists_address_of_closest {misses : List (List Nat × NearMiss)} {miss : NearMiss}
    (hsorted : misses.Pairwise fun first second ↦ Precedes first.1 second.1)
    (h : closest (misses.map (·.2)) = some miss) :
    ∃ path, (path, miss) ∈ misses ∧ ∀ other rival, (other, rival) ∈ misses →
      rival.matched < miss.matched ∨ rival.matched = miss.matched ∧ UpTo other path := by
  obtain ⟨before, after, hsplit, hbefore, hafter⟩ := exists_split_of_closest h
  obtain ⟨first, second, rfl, rfl, hsecond⟩ := List.map_eq_append_iff.mp hsplit
  obtain ⟨⟨path, _⟩, others, rfl, rfl, rfl⟩ := List.map_eq_cons_iff.mp hsecond
  refine ⟨path, List.mem_append_right _ List.mem_cons_self, fun other rival hmem ↦ ?_⟩
  rcases List.mem_append.mp hmem with hfirst | hrest
  · have hle := hbefore rival (List.mem_map_of_mem hfirst)
    have hlt := (List.pairwise_append.mp hsorted).2.2 _ hfirst _ List.mem_cons_self
    exact (Nat.lt_or_eq_of_le hle).imp_right fun heq ↦ ⟨heq, .inr hlt⟩
  · rcases List.mem_cons.mp hrest with heq | hlater
    · obtain ⟨rfl, rfl⟩ := Prod.mk.inj heq
      exact .inr ⟨rfl, .inl rfl⟩
    · exact .inl (hafter rival (List.mem_map_of_mem hlater))

/-- Whether a near miss says how close the last of the closest candidates came. -/
def IsNearest (trace : Trace) (miss : NearMiss) : Prop :=
  ∃ path node, trace.at? path = some node ∧ node.IsCandidate ∧
    node.label = .rule miss.rule false ∧ miss.matched = node.matchesBelow.ncard ∧
    node.Wants miss.expected miss.found ∧
    ∀ other rival, trace.at? other = some rival → rival.IsCandidate →
      rival.matchesBelow.ncard < miss.matched ∨
        rival.matchesBelow.ncard = miss.matched ∧ UpTo other path

/-- The near miss that is found is the nearest one. -/
theorem isNearest_of_nearestMiss {trace : Trace} {miss : NearMiss}
    (h : trace.nearestMiss = some miss) : trace.IsNearest miss := by
  rw [nearestMiss_eq_closest] at h
  obtain ⟨path, hmem, hlast⟩ := exists_address_of_closest trace.pairwise_addressedMisses h
  obtain ⟨node, hnode, hlabel, hmatched, hwanted⟩ := mem_addressedMisses_iff.mp hmem
  refine ⟨path, node, hnode, (isCandidate_iff hnode).mpr ⟨miss, hmem⟩, hlabel, hmatched,
    wants_of_wanted? hwanted, fun other rival hrival hcandidate ↦ ?_⟩
  obtain ⟨found, hfound⟩ := (isCandidate_iff hrival).mp hcandidate
  obtain ⟨_, hat, -, hcount, -⟩ := mem_addressedMisses_iff.mp hfound
  obtain rfl := Option.some.inj (hrival.symm.trans hat)
  rw [← hcount]
  exact hlast other found hfound

/-- One near miss at most is that of the last of the closest candidates. -/
theorem IsNearest.unique {trace : Trace} {miss other : NearMiss} (h : trace.IsNearest miss)
    (h' : trace.IsNearest other) : miss = other := by
  obtain ⟨path, node, hnode, hcandidate, hlabel, hmatched, hwants, hlast⟩ := h
  obtain ⟨place, rival, hrival, hrivals, hname, hcount, hwanted, hlater⟩ := h'
  have hforth := hlast place rival hrival hrivals
  have hback := hlater path node hnode hcandidate
  rw [← hcount] at hforth
  rw [← hmatched] at hback
  obtain ⟨heq, hupTo⟩ := hforth.resolve_left (by omega)
  obtain ⟨-, hbefore⟩ := hback.resolve_left (by omega)
  obtain rfl := hupTo.antisymm hbefore
  obtain rfl := Option.some.inj (hnode.symm.trans hrival)
  obtain ⟨hexpected, hfound⟩ := hwants.unique hwanted
  injection hlabel.symm.trans hname with hrule
  cases miss
  cases other
  rw [NearMiss.mk.injEq]
  exact ⟨hrule, heq.symm, hexpected, hfound⟩

/-- There is no near miss exactly if no entry is a candidate. -/
theorem nearestMiss_eq_none_iff {trace : Trace} :
    trace.nearestMiss = none ↔ ∀ path node, trace.at? path = some node → ¬ node.IsCandidate := by
  rw [nearestMiss_eq_closest, closest_eq_none_iff, List.map_eq_nil_iff,
    List.eq_nil_iff_forall_not_mem]
  constructor
  · intro hempty path node hnode hcandidate
    obtain ⟨miss, hmem⟩ := (isCandidate_iff hnode).mp hcandidate
    exact hempty (path, miss) hmem
  · rintro hnever ⟨path, miss⟩ hmem
    obtain ⟨node, hnode, -⟩ := mem_addressedMisses_iff.mp hmem
    exact hnever path node hnode ((isCandidate_iff hnode).mpr ⟨miss, hmem⟩)

/-- There is a near miss if there is a candidate, and it is that of the last candidate with most
tokens matched below it. -/
theorem nearestMiss_candidate (trace : Trace) :
    (trace.nearestMiss = none ↔
      ∀ path node, trace.at? path = some node → ¬ node.IsCandidate) ∧
    ∀ miss, trace.nearestMiss = some miss ↔ trace.IsNearest miss := by
  refine ⟨nearestMiss_eq_none_iff, fun miss ↦ ⟨isNearest_of_nearestMiss, fun hnearest ↦ ?_⟩⟩
  cases hfound : trace.nearestMiss with
  | none =>
    obtain ⟨path, node, hnode, hcandidate, -⟩ := hnearest
    exact absurd hcandidate (nearestMiss_eq_none_iff.mp hfound path node hnode)
  | some found => rw [(isNearest_of_nearestMiss hfound).unique hnearest]

end OrderFile.Trace
