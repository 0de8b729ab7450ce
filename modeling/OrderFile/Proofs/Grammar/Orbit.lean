import OrderFile.Proofs.Grammar.Missed

/-!
Orders that fail at the number of an orbit. The number is taken as the integer that it is and then
refused for its value, so that no token was missed: of all that an order can fail at, this is the
one thing that leaves no trace in the farthest miss (`quiet_header_iff`).
-/

set_option autoImplicit false

namespace OrderFile.Grammar

open Pattern

/-- The kinds of the tokens before the place in an order, for the orders that have one. -/
def beforePlace? : Keyword → Option (List Token.Kind)
  | .move | .probe | .setup => some [.text, .integer]
  | .news => some [.text]
  | _ => none

/-- The kinds of the tokens of a place up to the number of its orbit. -/
def beforeOrbit : List Token.Kind :=
  [.parenOpen, .integer, .comma, .integer, .comma, .integer, .comma]

/-- Whether an order gets as far as the number of an orbit, and that number is out of range. -/
def OrbitOutOfRange (k : Keyword) (ts : List Token) : Prop :=
  ∃ kinds front orbit rest, beforePlace? k = some kinds ∧ ts = front ++ orbit :: rest ∧
    front.map (·.kind) = kinds ++ beforeOrbit ∧ orbit.kind = .integer ∧
    ∀ n, orbit.integer? = some n → ¬ (1 ≤ n ∧ n ≤ maxOrbit)

/-! ### Sequences that fail quietly -/

/-- A sequence fails quietly after a token exactly if the token comes and the rest fails quietly. -/
theorem quiet_token_cons_iff {shape : Shape} {others : List Pattern} {ts : List Token} :
    (sequence (token shape :: others)).quiet ts = true ↔
      ∃ t rest, ts = t :: rest ∧ shape.accepts t = true ∧ (sequence others).quiet rest = true := by
  have hquiet : (sequence (token shape :: others)).quiet ts =
      (frontToken? shape.accepts ts).any fun read ↦ (sequence others).quiet read.2 := rfl
  rw [hquiet, Option.any_eq_true]
  constructor
  · rintro ⟨⟨trees, rest⟩, hread, h⟩
    obtain ⟨t, ht, -, rfl⟩ := frontToken?_eq_some hread
    exact ⟨t, rest, rfl, ht, h⟩
  · rintro ⟨t, rest, rfl, ht, h⟩
    exact ⟨([.leaf t], rest), if_pos ht, h⟩

/-- Tokens of some kinds, and a quiet failure after them. -/
theorem quiet_kinds_iff {kinds : List Token.Kind} {others : List Pattern} {ts : List Token} :
    (sequence (kinds.map kind ++ others)).quiet ts = true ↔
      ∃ front rest, ts = front ++ rest ∧ front.map (·.kind) = kinds ∧
        (sequence others).quiet rest = true := by
  induction kinds generalizing ts with
  | nil =>
    constructor
    · intro h
      exact ⟨[], ts, rfl, rfl, h⟩
    · rintro ⟨front, rest, rfl, hfront, h⟩
      obtain rfl := List.map_eq_nil_iff.mp hfront
      exact h
  | cons k kinds ih =>
    rw [List.map_cons, List.cons_append, kind, quiet_token_cons_iff]
    constructor
    · rintro ⟨t, rest, rfl, ht, h⟩
      obtain ⟨front, after, rfl, hfront, h⟩ := ih.mp h
      rw [accepts_kind, beq_iff_eq] at ht
      exact ⟨t :: front, after, rfl, by rw [List.map_cons, ht, hfront], h⟩
    · rintro ⟨front, rest, rfl, hfront, h⟩
      obtain ⟨t, others, rfl, rfl, hothers⟩ := List.map_eq_cons_iff.mp hfront
      exact ⟨t, others ++ rest, rfl, by rw [accepts_kind, BEq.rfl],
        ih.mpr ⟨others, rest, rfl, hothers, h⟩⟩

/-- Only the first pattern fails quietly if the others never do. -/
theorem quiet_cons_of_loud {first : Pattern} {others : List Pattern}
    (h : (sequence others).loud = true) (ts : List Token) :
    (sequence (first :: others)).quiet ts = first.quiet ts := by
  rw [Pattern.sequence, quiet]
  cases first.front? ts with
  | none => rw [Option.any_none, Bool.or_false]
  | some read => rw [Option.any_some, quiet_of_loud h, Bool.or_false]

/-! ### Places -/

/-- Whether the number of an orbit comes next that is out of range. -/
theorem quiet_orbit_iff {ts : List Token} :
    (optional (seq (kind .comma) (integerIn 1 maxOrbit))).quiet ts = true ↔
      ∃ t orbit rest, ts = t :: orbit :: rest ∧ t.kind = .comma ∧ orbit.kind = .integer ∧
        ∀ n, orbit.integer? = some n → ¬ (1 ≤ n ∧ n ≤ maxOrbit) := by
  have hrange (orbit : Token) (horbit : orbit.kind = .integer) :
      (integerIn 1 maxOrbit).admits orbit = false ↔
        ∀ n, orbit.integer? = some n → ¬ (1 ≤ n ∧ n ≤ maxOrbit) := by
    rw [admits, horbit, BEq.rfl, Bool.true_and, Option.any_eq_false]
    simp
  have hquiet : (optional (seq (kind .comma) (integerIn 1 maxOrbit))).quiet ts =
      (ts.head?.any (Shape.accepts ⟨.comma, none⟩ ·) &&
        (frontToken? (Shape.accepts ⟨.comma, none⟩) ts).any fun read ↦
          (integerIn 1 maxOrbit).quiet read.2) := rfl
  rw [hquiet, Bool.and_eq_true]
  constructor
  · rintro ⟨-, hafter⟩
    obtain ⟨⟨trees, rest⟩, hread, hnumber⟩ := (Option.any_eq_true _ _).mp hafter
    obtain ⟨t, ht, -, rfl⟩ := frontToken?_eq_some hread
    obtain ⟨orbit, horbit, hrefused⟩ := (Option.any_eq_true _ _).mp hnumber
    obtain ⟨after, rfl⟩ := List.head?_eq_some_iff.mp horbit
    rw [Bool.and_eq_true, beq_iff_eq, Bool.not_eq_true'] at hrefused
    rw [accepts_kind, beq_iff_eq] at ht
    exact ⟨t, orbit, after, rfl, ht, hrefused.1, (hrange orbit hrefused.1).mp hrefused.2⟩
  · rintro ⟨t, orbit, rest, rfl, ht, horbit, hrefused⟩
    have haccepts : Shape.accepts ⟨.comma, none⟩ t = true := by
      rw [accepts_kind, ht, BEq.rfl]
    refine ⟨haccepts, ?_⟩
    rw [frontToken?, if_pos haccepts, Option.any_some, quiet, List.head?_cons, Option.any_some,
      (hrange orbit horbit).mpr hrefused, horbit]
    rfl

/-- A place fails quietly exactly if it is written out up to an orbit that is out of range. -/
theorem coordinate_quiet_iff {ts : List Token} :
    coordinate.quiet ts = true ↔
      ∃ front orbit rest, ts = front ++ orbit :: rest ∧ front.map (·.kind) = beforeOrbit ∧
        orbit.kind = .integer ∧ ∀ n, orbit.integer? = some n → ¬ (1 ≤ n ∧ n ≤ maxOrbit) := by
  have hplace : coordinate.quiet ts = (sequence
      (([.parenOpen, .integer, .comma, .integer, .comma, .integer].map kind) ++
        [optional (seq (kind .comma) (integerIn 1 maxOrbit)), kind .parenClose])).quiet ts := rfl
  rw [hplace, quiet_kinds_iff]
  constructor
  · rintro ⟨front, rest, rfl, hfront, hquiet⟩
    rw [quiet_cons_of_loud rfl, quiet_orbit_iff] at hquiet
    obtain ⟨t, orbit, after, rfl, ht, horbit⟩ := hquiet
    refine ⟨front ++ [t], orbit, after, (List.append_assoc front [t] (orbit :: after)).symm, ?_,
      horbit⟩
    rw [List.map_append, hfront, List.map_singleton, ht]
    rfl
  · rintro ⟨front, orbit, rest, rfl, hfront, horbit⟩
    have hsplit : front.map (·.kind) =
        [.parenOpen, .integer, .comma, .integer, .comma, .integer] ++ [.comma] := hfront
    obtain ⟨first, last, rfl, hfirst, hlast⟩ := List.map_eq_append_iff.mp hsplit
    obtain ⟨t, rfl, ht⟩ := List.map_eq_singleton_iff.mp hlast
    refine ⟨first, t :: orbit :: rest, List.append_assoc first [t] (orbit :: rest), hfirst, ?_⟩
    rw [quiet_cons_of_loud rfl, quiet_orbit_iff]
    exact ⟨t, orbit, rest, rfl, ht, horbit⟩

/-- A place that may be left out, or a number in its stead. -/
theorem optional_place_quiet (ts : List Token) :
    (optional (choice (kind .integer) coordinate)).quiet ts = coordinate.quiet ts := by
  rw [quiet, quiet]
  cases hplace : coordinate.quiet ts with
  | false =>
    have hkind : (kind .integer).quiet ts = false := rfl
    rw [hkind, ite_self, Bool.and_false]
  | true =>
    obtain ⟨front, orbit, rest, rfl, hfront, -⟩ := coordinate_quiet_iff.mp hplace
    obtain ⟨t, others, rfl, ht, -⟩ := List.map_eq_cons_iff.mp hfront
    have hinteger : (kind .integer).starts t = false := by
      rw [kind, starts, accepts_kind, ht]
      rfl
    have hparen : coordinate.starts t = true := by
      change Shape.accepts ⟨.parenOpen, none⟩ t = true
      rw [accepts_kind, ht, BEq.rfl]
    rw [List.cons_append, List.head?_cons, Option.any_some, Option.any_some, hinteger, starts,
      hparen, Bool.or_true, Bool.true_and, if_neg Bool.false_ne_true]

/-! ### Orders -/

/-- In an order that has a place, only the place can fail quietly. -/
theorem quiet_place_iff {kinds : List Token.Kind} {first : Pattern} {others : List Pattern}
    {ts : List Token} (hfirst : ∀ rest, first.quiet rest = coordinate.quiet rest)
    (hothers : (sequence others).loud = true) :
    (sequence (kinds.map kind ++ first :: others)).quiet ts = true ↔
      ∃ front orbit rest, ts = front ++ orbit :: rest ∧
        front.map (·.kind) = kinds ++ beforeOrbit ∧ orbit.kind = .integer ∧
        ∀ n, orbit.integer? = some n → ¬ (1 ≤ n ∧ n ≤ maxOrbit) := by
  rw [quiet_kinds_iff]
  constructor
  · rintro ⟨front, _, rfl, hfront, hquiet⟩
    rw [quiet_cons_of_loud hothers, hfirst, coordinate_quiet_iff] at hquiet
    obtain ⟨place, orbit, rest, rfl, hplace, horbit⟩ := hquiet
    refine ⟨front ++ place, orbit, rest, (List.append_assoc ..).symm, ?_, horbit⟩
    rw [List.map_append, hfront, hplace]
  · rintro ⟨_, orbit, rest, rfl, hfront, horbit⟩
    obtain ⟨front, place, rfl, hkinds, hplace⟩ := List.map_eq_append_iff.mp hfront
    refine ⟨front, place ++ orbit :: rest, List.append_assoc .., hkinds, ?_⟩
    rw [quiet_cons_of_loud hothers, hfirst, coordinate_quiet_iff]
    exact ⟨place, orbit, rest, rfl, hplace, horbit⟩


/-- The word of an order is as good as any plain word. -/
theorem quiet_word_cons {k : Keyword} {others : List Pattern} {ts : List Token}
    (hk : ts.head?.bind Keyword.ofToken? = some k) :
    (sequence (word k.word :: others)).quiet ts = (sequence (kind .text :: others)).quiet ts := by
  obtain ⟨t, ht, hkeyword⟩ := Option.bind_eq_some_iff.mp hk
  obtain ⟨rest, rfl⟩ := List.head?_eq_some_iff.mp ht
  have hspells := Keyword.spells_of_ofToken? hkeyword
  rw [Bool.eq_iff_iff, word, kind, quiet_token_cons_iff, quiet_token_cons_iff]
  refine exists_congr fun s ↦ exists_congr fun after ↦ and_congr_right fun heq ↦ ?_
  obtain ⟨rfl, -⟩ := List.cons.inj heq
  have hword : (Shape.keyword k.word).accepts t = true := hspells
  rw [hword, accepts_kind, Token.kind_of_spells hspells, BEq.rfl]

/-- The first line of an order fails without a miss exactly at an orbit that is out of range. -/
theorem quiet_header_iff {k : Keyword} {ts : List Token}
    (hk : ts.head?.bind Keyword.ofToken? = some k) :
    (sequence (word k.word :: header k)).quiet ts = true ↔ OrbitOutOfRange k ts := by
  -- Four orders have a place; in the others nothing fails quietly.
  have hplace {kinds : List Token.Kind} {first : Pattern} {others : List Pattern}
      (hkinds : beforePlace? k = some kinds)
      (hheader : kind .text :: header k = kinds.map kind ++ first :: others)
      (hfirst : ∀ rest, first.quiet rest = coordinate.quiet rest)
      (hothers : (sequence others).loud = true) :
      (sequence (word k.word :: header k)).quiet ts = true ↔ OrbitOutOfRange k ts := by
    rw [quiet_word_cons hk, hheader, quiet_place_iff hfirst hothers]
    constructor
    · rintro ⟨front, orbit, rest, h⟩
      exact ⟨kinds, front, orbit, rest, hkinds, h⟩
    · rintro ⟨_, front, orbit, rest, hsame, h⟩
      obtain rfl := Option.some.inj (hkinds.symm.trans hsame)
      exact ⟨front, orbit, rest, h⟩
  have hother (hkinds : beforePlace? k = none)
      (hloud : (sequence (word k.word :: header k)).loud = true) :
      (sequence (word k.word :: header k)).quiet ts = true ↔ OrbitOutOfRange k ts := by
    rw [quiet_of_loud hloud]
    refine iff_of_false Bool.false_ne_true ?_
    rintro ⟨kinds, _, _, _, hsome, -⟩
    rw [hkinds] at hsome
    cases hsome
  cases k
  case move => exact hplace rfl rfl (fun _ ↦ rfl) rfl
  case news => exact hplace rfl rfl (fun _ ↦ rfl) rfl
  case probe => exact hplace rfl rfl optional_place_quiet rfl
  case setup => exact hplace rfl rfl (fun _ ↦ rfl) rfl
  all_goals exact hother rfl rfl

end OrderFile.Grammar
