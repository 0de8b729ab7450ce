import OrderFile.Proofs.Grammar.FirstLine
import OrderFile.Proofs.Grammar.Noted
import OrderFile.Proofs.Parse.Missed

/-!
Which token a rule that fails has missed. A pattern that is followed and fails has missed a token in
one of its rules, unless it fails at a number out of range, which is no miss: `follow_stumbles`. An
order misses a token of its first line, or a setup order one of a later line.
-/

set_option autoImplicit false

namespace OrderFile.Grammar

open OrderFile.Tree (tokensOf)
open Parse (Noted Miss farther farthest_attempt farthest_acceptKind farthest_within
  farther_farther)

namespace Pattern

/-! ### Failures without a miss -/

/-- Whether a pattern fails at some tokens without a token that was not the expected one: at a
number out of range, or at a choice between no words. -/
def quiet : Pattern → List Token → Bool
  | oneWord words, _ => words.isEmpty
  | integerIn low high, ts =>
    ts.head?.any fun t ↦ t.kind == .integer && !(integerIn low high).admits t
  | seq first second, ts =>
    first.quiet ts || (first.front? ts).any fun read ↦ second.quiet read.2
  | optional body, ts => ts.head?.any (body.starts ·) && body.quiet ts
  | choice first second, ts =>
    if ts.head?.any (first.starts ·) then first.quiet ts else second.quiet ts
  | rule _ body, ts => body.quiet ts
  | _, _ => false

/-- Such a pattern does fail. -/
theorem front?_of_quiet {pattern : Pattern} {ts : List Token} (h : pattern.quiet ts = true) :
    pattern.front? ts = none := by
  induction pattern generalizing ts with
  | empty | token | anyOf | repeated => cases h
  | oneWord words =>
    obtain rfl := List.isEmpty_iff.mp h
    cases ts <;> rfl
  | integerIn low high =>
    obtain ⟨t, ht, hrange⟩ := (Option.any_eq_true _ _).mp h
    obtain ⟨rest, rfl⟩ := List.head?_eq_some_iff.mp ht
    obtain ⟨-, hrange⟩ := (Bool.and_eq_true _ _).mp hrange
    rw [front?, frontToken?, (Bool.not_eq_true' _).mp hrange]
    rfl
  | seq first second ihfirst ihsecond =>
    rw [front?]
    rcases (Bool.or_eq_true _ _).mp h with hfirst | hsecond
    · rw [ihfirst hfirst]
      rfl
    · obtain ⟨⟨trees, rest⟩, hread, hquiet⟩ := (Option.any_eq_true _ _).mp hsecond
      rw [hread, andThen, Option.bind_some]
      dsimp only at hquiet ⊢
      rw [ihsecond hquiet, Option.map_none]
  | optional body ih =>
    obtain ⟨hstarts, hquiet⟩ := (Bool.and_eq_true _ _).mp h
    rw [front?, if_pos hstarts, ih hquiet]
  | choice first second ihfirst ihsecond =>
    rw [quiet] at h
    rw [front?]
    split at h
    · next hstarts => rw [if_pos hstarts, ihfirst h]
    · next hstarts => rw [if_neg hstarts, ihsecond h]
  | rule name body ih => rw [front?, ih h, Option.map_none]

/-- Whether nothing in a pattern fails quietly, whatever the tokens. -/
def loud : Pattern → Bool
  | oneWord words => !words.isEmpty
  | integerIn _ _ => false
  | seq first second | choice first second => first.loud && second.loud
  | optional body | repeated body _ | rule _ body => body.loud
  | _ => true

/-- A pattern without bounds on numbers never fails quietly. -/
theorem quiet_of_loud {pattern : Pattern} (h : pattern.loud = true) (ts : List Token) :
    pattern.quiet ts = false := by
  induction pattern generalizing ts with
  | empty | token | anyOf | repeated => rfl
  | oneWord words => exact (Bool.not_eq_true' _).mp h
  | integerIn => cases h
  | seq first second ihfirst ihsecond =>
    obtain ⟨hfirst, hsecond⟩ := (Bool.and_eq_true _ _).mp h
    rw [quiet, ihfirst hfirst, Bool.false_or]
    cases first.front? ts with
    | none => rfl
    | some read => exact ihsecond hsecond read.2
  | optional body ih => rw [quiet, ih h, Bool.and_false]
  | choice first second ihfirst ihsecond =>
    obtain ⟨hfirst, hsecond⟩ := (Bool.and_eq_true _ _).mp h
    rw [quiet, ihfirst hfirst, ihsecond hsecond, ite_self]
  | rule name body ih => exact ih h ts

/-! ### What a part of a parse misses -/

/-- What a part of a parse does to the farthest miss. If it succeeds there is none; if it fails, and
not quietly, it has missed a token from where it was on, in a rule inside those that were open, and
in the line if it stays in it. -/
inductive Stumbles (quiet inLine : Prop) (p : Parse) : Bool × Parse → Prop
  | taken {later : Parse} (h : later.farthest = p.farthest) : Stumbles quiet inLine p (true, later)
  | refused {later : Parse} (hquiet : quiet) (h : later.farthest = p.farthest) :
      Stumbles quiet inLine p (false, later)
  | missed {later : Parse} (miss : Miss) (hquiet : ¬ quiet)
      (h : later.farthest = farther p.farthest miss) (hrules : p.rules <:+ miss.rules)
      (hindex : p.cursor ≤ miss.index)
      (hline : inLine → miss.index ≤ p.cursor + lineLength p.rest) :
      Stumbles quiet inLine p (false, later)

theorem stumbles_miss {quiet inLine : Prop} (hquiet : ¬ quiet) (expected : String) (p : Parse) :
    Stumbles quiet inLine p (false, p.miss expected) :=
  .missed ⟨p.cursor, expected, p.rules⟩ hquiet rfl (List.suffix_refl _) (Nat.le_refl _)
    fun _ ↦ Nat.le_add_right _ _

/-- A single token that does not come is missed. -/
theorem stumbles_attempt {quiet inLine : Prop} (hquiet : ¬ quiet) (expected : String)
    (test : Token → Bool) (p : Parse) :
    Stumbles quiet inLine p (p.attempt expected test) := by
  have hfarthest := farthest_attempt expected test p
  generalize p.attempt expected test = result at hfarthest
  obtain ⟨success, later⟩ := result
  cases success with
  | true => exact .taken hfarthest
  | false =>
    exact .missed _ hquiet hfarthest (List.suffix_refl _) (Nat.le_refl _)
      fun _ ↦ Nat.le_add_right _ _

/-- What is missed after some trees were taken is missed from before them on. -/
theorem Stumbles.after {quiet before inLine : Prop} {p middle : Parse} {result : Bool × Parse}
    {trees : List Tree} (h : Stumbles quiet inLine middle result)
    (hquiet : quiet ↔ before) (hfarthest : middle.farthest = p.farthest)
    (hbare : middle.bare = p.bare.took trees)
    (hline : inLine →
      lineLength p.rest = (tokensOf trees).length + lineLength middle.rest) :
    Stumbles before inLine p result := by
  have hcursor := Parse.cursor_of_bare_took hbare
  cases h with
  | taken hlater => exact .taken (hlater.trans hfarthest)
  | refused hrefused hlater => exact .refused (hquiet.mp hrefused) (hlater.trans hfarthest)
  | missed miss hother hlater hrules hindex hinLine =>
    rw [hfarthest] at hlater
    rw [Parse.rules_of_bare_took hbare] at hrules
    refine .missed miss (mt hquiet.mpr hother) hlater hrules (by omega) fun h ↦ ?_
    have hbound := hinLine h
    have hlength := hline h
    omega

/-- What is said of a stumble may be said of less. -/
theorem Stumbles.mono {quiet before inLine more : Prop} {p : Parse} {result : Bool × Parse}
    (h : Stumbles quiet inLine p result) (hquiet : quiet ↔ before) (hline : more → inLine) :
    Stumbles before more p result := by
  cases h with
  | taken hlater => exact .taken hlater
  | refused hrefused hlater => exact .refused (hquiet.mp hrefused) hlater
  | missed miss hother hlater hrules hindex hinLine =>
    exact .missed miss (mt hquiet.mpr hother) hlater hrules hindex fun h ↦ hinLine (hline h)

/-- What is missed in a rule is missed where the rule stands. -/
theorem Stumbles.of_enter {quiet inLine : Prop} {name : String} {p : Parse}
    {result : Bool × Parse} (h : Stumbles quiet inLine (p.enter name) result) :
    Stumbles quiet inLine p result := by
  cases h with
  | taken hlater => exact .taken hlater
  | refused hrefused hlater => exact .refused hrefused hlater
  | missed miss hother hlater hrules hindex hinLine =>
    exact .missed miss hother hlater ((List.suffix_cons name p.rules).trans hrules) hindex hinLine

/-- A rule misses what its body misses. -/
theorem Stumbles.within {quiet inLine : Prop} {name : String} {body : Parse → Bool × Parse}
    {p q : Parse} {entries : List Trace} (h : Stumbles quiet inLine q (body (p.enter name)))
    (hopen : p.frames ≠ []) (hnoted : Noted entries (p.enter name) (body (p.enter name)).2) :
    Stumbles quiet inLine q (p.within name body) := by
  have hfst := Parse.within_fst hopen hnoted
  have hfarthest := farthest_within name body p
  generalize p.within name body = result at hfst hfarthest ⊢
  obtain ⟨success, later⟩ := result
  generalize body (p.enter name) = inner at h hfst hfarthest
  cases h with
  | taken hlater =>
    obtain rfl : success = true := hfst
    exact .taken (hfarthest.trans hlater)
  | refused hrefused hlater =>
    obtain rfl : success = false := hfst
    exact .refused hrefused (hfarthest.trans hlater)
  | missed miss hother hlater hrules hindex hinLine =>
    obtain rfl : success = false := hfst
    exact .missed miss hother (hfarthest.trans hlater) hrules hindex hinLine

/-- A number in a range is missed if there is no number, and refused if it is out of the range. -/
theorem integerIn_stumbles (low high : Int64) (p : Parse) :
    Stumbles ((integerIn low high).quiet p.rest = true) ((integerIn low high).staysInLine = true) p
      ((integerIn low high).follow p) := by
  have hfarthest := farthest_acceptKind .integer p
  have hrest := @took_of_acceptKind .integer p
  have hwhole := acceptKind_agreesWhole .integer p
  rw [follow]
  generalize p.acceptKind .integer = result at hfarthest hrest hwhole ⊢
  obtain ⟨success, later⟩ := result
  cases success with
  | false =>
    refine .missed _ ?_ hfarthest (List.suffix_refl _) (Nat.le_refl _)
      fun _ ↦ Nat.le_add_right _ _
    intro hquiet
    obtain ⟨t, ht, hkind⟩ := (Option.any_eq_true _ _).mp hquiet
    obtain ⟨rest, hts⟩ := List.head?_eq_some_iff.mp ht
    have hnone := (hwhole.of_failure rfl).1
    rw [hts, frontToken?, if_pos ((Bool.and_eq_true _ _).mp hkind).1] at hnone
    cases hnone
  | true =>
    obtain ⟨t, ht, hts, -⟩ := hrest rfl
    have hnext : p.next? = some t := by
      rw [Parse.next?_eq, hts]
      rfl
    have hadmits : (integerIn low high).admits t =
        t.integer?.any fun n ↦ low ≤ n && n ≤ high := by
      rw [admits, ht, BEq.rfl, Bool.true_and]
    rw [hnext, hts, Option.bind_some, ← hadmits]
    cases hrange : (integerIn low high).admits t with
    | true => exact .taken hfarthest
    | false =>
      refine .refused ?_ hfarthest
      rw [quiet, List.head?_cons, Option.any_some, ht, hrange]
      rfl

/-- A pattern that is followed and fails has missed a token, unless it fails quietly. -/
theorem follow_stumbles {pattern : Pattern} (hstraight : pattern.straight = true) {p : Parse}
    (hopen : p.frames ≠ []) :
    Stumbles (pattern.quiet p.rest = true) (pattern.staysInLine = true) p (pattern.follow p) := by
  -- By induction on the pattern. Whether a pattern fails quietly is said of the tokens left, so
  -- each case has to say where its part of the pattern stands.
  induction pattern generalizing p with
  | empty => exact .taken rfl
  | token shape => exact stumbles_attempt Bool.false_ne_true ..
  | anyOf kinds =>
    rw [follow, Parse.acceptAnyOf]
    split
    · exact stumbles_attempt Bool.false_ne_true ..
    · exact stumbles_miss Bool.false_ne_true _ p
  | oneWord words =>
    cases words with
    | nil => exact .refused rfl rfl
    | cons w others =>
      unfold follow
      split
      · exact stumbles_attempt Bool.false_ne_true ..
      · exact stumbles_attempt Bool.false_ne_true ..
      · next hnil => exact absurd hnil (List.cons_ne_nil _ _)
  | integerIn low high => exact integerIn_stumbles low high p
  | seq first second ihfirst ihsecond =>
    obtain ⟨hfirst, hsecond⟩ := (Bool.and_eq_true _ _).mp hstraight
    have hstumbles := ihfirst hfirst hopen
    have hread := @front?_of_follow first hfirst p hopen
    have hagrees := (follow_agrees_and (repeatsRules_of_straight hfirst) hopen).1
    rw [follow]
    generalize first.follow p = result at hstumbles hread hagrees
    obtain ⟨success, middle⟩ := result
    cases success with
    | true =>
      obtain ⟨trees, hfront, hbare⟩ := hread rfl
      -- The first part was followed to its end, so only the second one can fail quietly.
      have hquiet : second.quiet middle.rest = true ↔ (seq first second).quiet p.rest = true := by
        have hfirst : first.quiet p.rest = false := by
          refine Bool.eq_false_iff.mpr fun h ↦ ?_
          rw [front?_of_quiet h] at hfront
          cases hfront
        rw [quiet, hfirst, hfront, Bool.false_or, Option.any_some]
      cases hstumbles with
      | taken hfarthest =>
        exact ((ihsecond hsecond (frames_ne_nil_of_took hopen hbare)).mono Iff.rfl
          fun h ↦ (staysInLine_seq h).2).after hquiet hfarthest hbare
            fun h ↦ lineLength_of_front? (staysInLine_seq h).1 hfront
    | false =>
      refine hstumbles.mono ?_ fun h ↦ (staysInLine_seq h).1
      rw [quiet, hagrees.of_failure rfl, Option.any_none, Bool.or_false]
  | optional body ih =>
    rw [follow, isNext, Parse.next?_eq]
    by_cases hstarts : p.rest.head?.any (body.starts ·) = true
    · rw [if_pos hstarts]
      exact (ih hstraight hopen).mono (by rw [quiet, hstarts, Bool.true_and]) id
    · rw [if_neg hstarts]
      exact .taken rfl
  | choice first second ihfirst ihsecond =>
    obtain ⟨hfirst, hsecond⟩ := (Bool.and_eq_true _ _).mp hstraight
    rw [follow, isNext, Parse.next?_eq]
    by_cases hstarts : p.rest.head?.any (first.starts ·) = true
    · rw [if_pos hstarts]
      exact (ihfirst hfirst hopen).mono (by rw [quiet, if_pos hstarts])
        fun h ↦ (staysInLine_seq h).1
    · rw [if_neg hstarts]
      exact (ihsecond hsecond hopen).mono (by rw [quiet, if_neg hstarts])
        fun h ↦ (staysInLine_seq h).2
  | repeated body stop => cases hstraight
  | rule name body ih =>
    have hbody := @ih hstraight (p.enter name) (List.cons_ne_nil _ _)
    obtain ⟨entries, hnoted, -⟩ := @follow_reported body (p.enter name) (List.cons_ne_nil _ _)
    exact hbody.of_enter.within hopen hnoted

end Pattern

open Pattern

/-! ### Orders -/

/-- What a repetition of items misses: nothing, or a token of the item at which it ends. -/
theorem details_stumble (n : Nat) {p : Parse} (hopen : p.frames ≠ []) :
    ∃ trees, (repeatUntil "end" transferDetail.follow n p).bare = p.bare.took trees ∧
      ((repeatUntil "end" transferDetail.follow n p).farthest = p.farthest ∨
        ∃ miss, (repeatUntil "end" transferDetail.follow n p).farthest =
            farther p.farthest miss ∧
          p.rules <:+ miss.rules ∧
          (repeatUntil "end" transferDetail.follow n p).cursor ≤ miss.index ∧
          ¬ (repeatUntil "end" transferDetail.follow n p).next?.any (·.spells "end") = true) := by
  induction n generalizing p with
  | zero => exact ⟨[], (Parse.took_nil _).symm, .inl rfl⟩
  | succ n ih =>
    rw [repeatUntil]
    by_cases hstop : p.next?.any (·.spells "end") = true
    · rw [if_pos hstop]
      exact ⟨[], (Parse.took_nil _).symm, .inl rfl⟩
    rw [if_neg hstop]
    have hstraight : transferDetail.straight = true := rfl
    have hread := front?_of_follow hstraight hopen
    have hback := (follow_agrees_and (repeatsRules_of_straight hstraight) hopen).2 rfl
    have hstumbles := follow_stumbles hstraight hopen
    rw [quiet_of_loud rfl] at hstumbles
    generalize transferDetail.follow p = result at hread hback hstumbles
    obtain ⟨success, later⟩ := result
    cases hstumbles with
    | taken hfarthest =>
      obtain ⟨trees, -, hbare⟩ := hread rfl
      obtain ⟨others, hothers, hmissed⟩ := ih (frames_ne_nil_of_took hopen hbare)
      refine ⟨trees ++ others, ?_, ?_⟩
      · rw [hothers, hbare, Parse.took_took]
      · rw [Parse.rules_of_bare_took hbare, hfarthest] at hmissed
        exact hmissed
    | refused hquiet => cases hquiet
    | missed miss _ hfarthest hrules hindex =>
      have hbare := (hback.of_failure rfl).2
      refine ⟨[], hbare.trans (Parse.took_nil _).symm, .inr ⟨miss, hfarthest, hrules, ?_, ?_⟩⟩
      · have hcursor : later.bare.cursor = p.bare.cursor := by rw [hbare]
        exact Nat.le_trans (Nat.le_of_eq hcursor) hindex
      · rwa [Parse.next?_eq, rest_of_bare_eq hbare, ← Parse.next?_eq]

/-- What an order misses after its first line. The end of a setup order is looked for where an item
has failed, and that item got no less far. -/
theorem laterLines_stumble (k : Keyword) {p : Parse} (hopen : p.frames ≠ []) :
    Stumbles False False p ((sequence (laterLines k)).follow p) := by
  by_cases hk : k = .setup
  · subst hk
    obtain ⟨trees, hbare, hmissed⟩ := details_stumble (p.remaining + 1) hopen
    change Stumbles False False p ((sequence [word "end", kind .eol]).follow
      (repeatUntil "end" transferDetail.follow (p.remaining + 1) p))
    generalize repeatUntil "end" transferDetail.follow (p.remaining + 1) p = q at hbare hmissed ⊢
    have hending := @follow_stumbles (sequence [word "end", kind .eol]) rfl q
      (frames_ne_nil_of_took hopen hbare)
    rw [quiet_of_loud rfl] at hending
    rcases hmissed with hfarthest | ⟨miss, hfarthest, hrules, hindex, hend⟩
    · exact (hending.mono (by simp) False.elim).after Iff.rfl hfarthest hbare False.elim
    · have hfailure : (q.acceptWord "end").1 = false := by
        refine Bool.eq_false_iff.mpr fun h ↦ hend ?_
        obtain ⟨t, ht, hrest⟩ := rest_of_attempt h
        rw [Parse.next?_eq, hrest]
        exact ht
      have hword := farthest_attempt (Shape.keyword "end").display (Shape.keyword "end").accepts q
      rw [← Parse.accept, ← Parse.acceptWord, hfailure, hfarthest] at hword
      have hfollow : (sequence [word "end", kind .eol]).follow q =
          (false, (q.acceptWord "end").2) := onSuccess_of_failure hfailure
      rw [hfollow]
      refine .missed miss id (hword.trans (farther_farther hindex)) hrules ?_ False.elim
      have hcursor := Parse.cursor_of_bare_took hbare
      omega
  · rw [laterLines_of_ne hk]
    exact .taken rfl

/-- What is missed in the rule of a keyword: a token of its first line, unless it is the rule of a
setup order. -/
theorem commandBody_stumbles (k : Keyword) {p : Parse} (hopen : p.frames ≠ []) :
    Stumbles ((sequence (word k.word :: header k)).quiet p.rest = true) (k ≠ .setup) p
      ((sequence (word k.word :: operands k)).follow p) := by
  obtain ⟨hstraight, hline⟩ := header_inLine k
  have hstumbles := follow_stumbles hstraight hopen
  have hread := front?_of_follow hstraight hopen
  rw [follow_command_body]
  generalize (sequence (word k.word :: header k)).follow p = result at hstumbles hread ⊢
  obtain ⟨success, middle⟩ := result
  cases success with
  | false => exact hstumbles.mono Iff.rfl fun _ ↦ hline
  | true =>
    obtain ⟨trees, hfront, hbare⟩ := hread rfl
    have hopened := frames_ne_nil_of_took hopen hbare
    have hloud : ¬ (sequence (word k.word :: header k)).quiet p.rest = true := by
      intro h
      rw [front?_of_quiet h] at hfront
      cases hfront
    cases hstumbles with
    | taken hfarthest =>
      suffices h : Stumbles False (k ≠ .setup) middle
          (onSuccess (sequence (laterLines k)).follow (middle.acceptKind .eol)) by
        exact h.after (iff_of_false id hloud) hfarthest hbare
          fun _ ↦ lineLength_of_front? hline hfront
      have hend : Stumbles False (k ≠ .setup) middle (middle.acceptKind .eol) :=
        stumbles_attempt id ..
      by_cases hk : k = .setup
      · have htook := @took_of_acceptKind .eol middle
        generalize middle.acceptKind .eol = result at hend htook ⊢
        obtain ⟨success, later⟩ := result
        cases success with
        | false => exact hend
        | true =>
          obtain ⟨e, -, -, hbare⟩ := htook rfl
          cases hend with
          | taken hlater =>
            have hrest := laterLines_stumble k (frames_ne_nil_of_took hopened hbare)
            exact (hrest.mono Iff.rfl fun h ↦ absurd hk h).after Iff.rfl hlater hbare
              fun h ↦ absurd hk h
      · rw [laterLines_of_ne hk]
        generalize middle.acceptKind .eol = result at hend ⊢
        obtain ⟨success, later⟩ := result
        cases success <;> exact hend

/-- An order whose keyword comes next misses what the rule of the keyword misses, inside of it. -/
theorem order_stumbles {k : Keyword} {p : Parse} (hopen : p.frames ≠ [])
    (hk : p.next?.bind Keyword.ofToken? = some k) :
    Stumbles ((sequence (word k.word :: header k)).quiet p.rest = true) (k ≠ .setup)
      ((p.enter "order").enter k.word) (order p) := by
  have hopened : (p.enter "order").frames ≠ [] := List.cons_ne_nil _ _
  have hbody := @commandBody_stumbles k ((p.enter "order").enter k.word) (List.cons_ne_nil _ _)
  obtain ⟨inner, hinner, -⟩ := @follow_reported (sequence (word k.word :: operands k))
    ((p.enter "order").enter k.word) (List.cons_ne_nil _ _)
  obtain ⟨entries, hentries, -⟩ := @follow_reported (command k) (p.enter "order") hopened
  rw [order_of_keyword hk]
  exact (hbody.within hopened hinner : Stumbles _ _ _ ((command k).follow (p.enter "order"))).within
    hopen hentries

/-! ### Lines -/

/-- What a line is rejected for whose tokens come first and that starts at an index, inside rules
that are open: for what its order has missed, or else for not being empty. It is for the latter also
if its order has a number out of range. -/
inductive Blame (ts : List Token) (start : Nat) (rules : List String) : Miss → Prop
  | lineEnd (h : ∀ k, ts.head?.bind Keyword.ofToken? = some k →
      (sequence (word k.word :: header k)).quiet ts = true) :
      Blame ts start rules ⟨start, Shape.display ⟨.eol, none⟩, rules⟩
  | inOrder {k : Keyword} {miss : Miss} (hk : ts.head?.bind Keyword.ofToken? = some k)
      (hquiet : ¬ (sequence (word k.word :: header k)).quiet ts = true)
      (hrules : k.word :: "order" :: rules <:+ miss.rules) (hindex : start ≤ miss.index)
      (hline : k ≠ .setup → miss.index ≤ start + lineLength ts) : Blame ts start rules miss

/-- The blamed miss is not before the line that it is blamed for. -/
theorem Blame.start_le {ts : List Token} {start : Nat} {rules : List String} {miss : Miss}
    (h : Blame ts start rules miss) : start ≤ miss.index := by
  cases h with
  | lineEnd => exact Nat.le_refl _
  | inOrder _ _ _ hindex => exact hindex

/-- What an order does to the farthest miss: nothing if it succeeds. If it fails, then either it
fails without a miss or it is to blame. -/
theorem order_blamed {p : Parse} (hopen : p.frames ≠ []) :
    ((order p).1 = true → (order p).2.farthest = p.farthest) ∧
      ((order p).1 = false →
        (order p).2.farthest = p.farthest ∧
            Blame p.rest p.cursor p.rules ⟨p.cursor, Shape.display ⟨.eol, none⟩, p.rules⟩ ∨
          ∃ miss, (order p).2.farthest = farther p.farthest miss ∧
            Blame p.rest p.cursor p.rules miss ∧ p.next?.bind Keyword.ofToken? ≠ none) := by
  cases hk : p.next?.bind Keyword.ofToken? with
  | none =>
    have hfarthest : (order p).2.farthest = p.farthest := by
      rw [order_of_none hk, farthest_within]
      rfl
    refine ⟨fun _ ↦ hfarthest, fun _ ↦ .inl ⟨hfarthest, .lineEnd fun k h ↦ ?_⟩⟩
    rw [← Parse.next?_eq, hk] at h
    cases h
  | some k =>
    have hstumbles := order_stumbles hopen hk
    rw [Parse.next?_eq] at hk
    generalize order p = result at hstumbles
    cases hstumbles with
    | taken hfarthest => exact ⟨fun _ ↦ hfarthest, (absurd · Bool.false_ne_true.symm)⟩
    | refused hquiet hfarthest =>
      refine ⟨(absurd · Bool.false_ne_true), fun _ ↦ .inl ⟨hfarthest, .lineEnd fun other h ↦ ?_⟩⟩
      obtain rfl := Option.some.inj (hk.symm.trans h)
      exact hquiet
    | missed miss hquiet hfarthest hrules hindex hline =>
      exact ⟨(absurd · Bool.false_ne_true),
        fun _ ↦ .inr ⟨miss, hfarthest, .inOrder hk hquiet hrules hindex hline,
          Option.some_ne_none k⟩⟩

/-- A line that is taken leaves the farthest miss alone, and one at which the parse stops is to
blame. -/
theorem line_blamed {p : Parse} (hopen : p.frames ≠ []) :
    ((line true p).1 = true → (line true p).2.farthest = p.farthest) ∧
      ((line true p).1 = false →
        ∃ miss, (line true p).2.farthest = farther p.farthest miss ∧
          Blame p.rest p.cursor p.rules miss) := by
  obtain ⟨htaken, hfailed⟩ := order_blamed hopen
  have hback := (order_agreesWhole hopen).of_failure
  rw [line]
  generalize order p = result at htaken hfailed hback
  obtain ⟨success, q⟩ := result
  cases success with
  | true => exact ⟨htaken, (absurd · Bool.false_ne_true.symm)⟩
  | false =>
    obtain ⟨-, hbare⟩ := hback rfl
    have hplace : q.cursor = p.cursor ∧ q.rules = p.rules := by
      have htook := hbare.trans (Parse.took_nil _).symm
      exact ⟨Parse.cursor_of_bare_took htook, Parse.rules_of_bare_took htook⟩
    have hend := farthest_acceptKind .eol q
    have hnone := @ofToken?_of_acceptKind q
    rw [hplace.1, hplace.2] at hend
    rw [Parse.next?_eq, rest_of_bare_eq hbare, ← Parse.next?_eq] at hnone
    dsimp only
    generalize q.acceptKind .eol = result at hend hnone ⊢
    obtain ⟨success, r⟩ := result
    cases success with
    | true =>
      refine ⟨fun _ ↦ ?_, (absurd · Bool.false_ne_true.symm)⟩
      rcases hfailed rfl with ⟨hfarthest, -⟩ | ⟨_, -, -, hkeyword⟩
      · exact hend.trans hfarthest
      · exact absurd (hnone rfl) hkeyword
    | false =>
      refine ⟨(absurd · Bool.false_ne_true), fun _ ↦ ?_⟩
      -- The line end is missed at the start of the line, so a miss within the order counts before
      -- it.
      rcases hfailed rfl with ⟨hfarthest, hblame⟩ | ⟨miss, hfarthest, hblame, -⟩
      · rw [hfarthest] at hend
        exact ⟨_, hend, hblame⟩
      · rw [hfarthest] at hend
        exact ⟨miss, hend.trans (farther_farther hblame.start_le), hblame⟩

end OrderFile.Grammar
