import OrderFile.Proofs.Grammar.FirstLine
import OrderFile.Proofs.Grammar.Noted

/-!
How many entries a parse leaves in its trace. Whatever a line comes to, it notes at most five
entries for each token that it takes, apart from a setup order that is never ended: that one goes
over the items after its first line, which are gone over again as lines of their own. An item can be
gone over twice but no more often, since only the keyword of a setup order starts such an order; so
each item at the front of the tokens left is held to be paid for, by the setup order before it
(`budget`).
-/

set_option autoImplicit false

namespace OrderFile

/-! ### Entries of traces -/

namespace Trace

theorem nodeCountOf_append (first second : List Trace) :
    nodeCountOf (first ++ second) = nodeCountOf first + nodeCountOf second := by
  induction first with
  | nil => rw [List.nil_append, nodeCountOf, Nat.zero_add]
  | cons trace first ih =>
    rw [List.cons_append, nodeCountOf, nodeCountOf, ih, Nat.add_assoc]

theorem nodeCountOf_singleton (label : Label) (children : List Trace) :
    nodeCountOf [entry label children] = 1 + nodeCountOf children := by
  rw [nodeCountOf, nodeCountOf, nodeCount]
  rfl

end Trace

namespace Grammar

open OrderFile.Tree (tokensOf)
open Parse (Noted noted_nil noted_attempt noted_miss noted_within)
open Trace (nodeCountOf nodeCountOf_append nodeCountOf_singleton)

/-- A token that is accepted or missed is one entry. -/
theorem acceptKind_cost (k : Token.Kind) (p : Parse) :
    ∃ entries, Noted entries p (p.acceptKind k).2 ∧ nodeCountOf entries = 1 :=
  ⟨_, noted_attempt _ _ p, by rw [nodeCountOf_singleton, nodeCountOf]⟩

namespace Pattern

/-! ### Patterns -/

/-- How many rules are tried at most inside a pattern that repeats nothing. -/
def ruleCount : Pattern → Nat
  | seq first second => first.ruleCount + second.ruleCount
  | choice first second => max first.ruleCount second.ruleCount
  | optional body | repeated body _ => body.ruleCount
  | rule _ body => body.ruleCount + 1
  | _ => 0

/-- How many tokens and rules are tried at most inside a pattern that repeats nothing. -/
def size : Pattern → Nat
  | empty => 0
  | token _ | anyOf _ | oneWord _ | integerIn _ _ => 1
  | seq first second => first.size + second.size
  | choice first second => max first.size second.size
  | optional body | repeated body _ => body.size
  | rule _ body => body.size + 1

/-- What a pattern notes when it is followed. A token that is taken and a rule that is tried leave
an entry each, and what a pattern fails at leaves one more. -/
structure Cost (pattern : Pattern) (p : Parse) (result : Bool × Parse) (entries : List Trace) :
    Prop where
  noted : Noted entries p result.2
  size : nodeCountOf entries ≤ pattern.size
  taken : result.1 = true →
    nodeCountOf entries + result.2.rest.length ≤ pattern.ruleCount + p.rest.length
  failed : result.1 = false → pattern.staysInLine = true →
    nodeCountOf entries ≤ pattern.ruleCount + lineLength p.rest + 1

/-- An attempt leaves one entry, and takes one token if it succeeds. -/
theorem cost_attempt (pattern : Pattern) (hsize : 1 ≤ pattern.size) (expected : String)
    (test : Token → Bool) (p : Parse) :
    ∃ entries, Cost pattern p (p.attempt expected test) entries := by
  refine ⟨_, noted_attempt expected test p, ?_, fun h ↦ ?_, fun _ _ ↦ ?_⟩
  · rw [nodeCountOf_singleton, nodeCountOf]
    omega
  · obtain ⟨t, -, hrest⟩ := rest_of_attempt h
    rw [nodeCountOf_singleton, nodeCountOf, hrest, List.length_cons]
    omega
  · rw [nodeCountOf_singleton, nodeCountOf]
    omega

/-- A miss is within what a pattern may note that tries anything. -/
theorem cost_miss (pattern : Pattern) (hsize : 1 ≤ pattern.size) (expected : String) (p : Parse) :
    ∃ entries, Cost pattern p (false, p.miss expected) entries := by
  refine ⟨_, noted_miss expected p, ?_, (absurd · Bool.false_ne_true), fun _ _ ↦ ?_⟩
  · rw [nodeCountOf_singleton, nodeCountOf]
    omega
  · rw [nodeCountOf_singleton, nodeCountOf]
    omega

theorem cost_nothing (pattern : Pattern) (success : Bool) (p : Parse) :
    Cost pattern p (success, p) [] where
  noted := noted_nil p
  size := Nat.zero_le _
  taken _ := by
    rw [nodeCountOf, Nat.zero_add]
    exact Nat.le_add_left _ _
  failed _ _ := Nat.zero_le _

/-- What a part of a pattern notes, the pattern may note. -/
theorem Cost.mono {pattern part : Pattern} {p : Parse} {result : Bool × Parse}
    {entries : List Trace} (h : Cost part p result entries) (hsize : part.size ≤ pattern.size)
    (hrules : part.ruleCount ≤ pattern.ruleCount)
    (hline : pattern.staysInLine = true → part.staysInLine = true) :
    Cost pattern p result entries where
  noted := h.noted
  size := Nat.le_trans h.size hsize
  taken hsuccess := Nat.le_trans (h.taken hsuccess) (Nat.add_le_add_right hrules _)
  failed hfailure hpattern := by
    have hfailed := h.failed hfailure (hline hpattern)
    omega

/-- A pattern without repetitions notes no more than its size, whatever is followed. -/
theorem follow_cost {pattern : Pattern} (hstraight : pattern.straight = true) {p : Parse}
    (hopen : p.frames ≠ []) : ∃ entries, Cost pattern p (pattern.follow p) entries := by
  induction pattern generalizing p with
  | empty => exact ⟨[], cost_nothing _ true p⟩
  | token shape => exact cost_attempt (token shape) (Nat.le_refl 1) ..
  | anyOf kinds =>
    rw [follow, Parse.acceptAnyOf]
    split
    · exact cost_attempt (anyOf kinds) (Nat.le_refl 1) ..
    · exact cost_miss (anyOf kinds) (Nat.le_refl 1) _ p
  | oneWord words =>
    unfold follow
    split
    · exact cost_attempt (oneWord _) (Nat.le_refl 1) ..
    · exact cost_attempt (oneWord _) (Nat.le_refl 1) ..
    · exact ⟨[], cost_nothing _ false p⟩
  | integerIn low high =>
    -- A number out of range is taken and then refused; its entry is the same.
    obtain ⟨entries, hcost⟩ := cost_attempt (integerIn low high) (Nat.le_refl 1)
      (Shape.display ⟨.integer, none⟩) (Shape.accepts ⟨.integer, none⟩) p
    have hsize := hcost.size
    refine ⟨entries, hcost.noted, hsize, fun hsuccess ↦ ?_, fun _ _ ↦ ?_⟩
    · exact hcost.taken ((Bool.and_eq_true _ _).mp hsuccess).1
    · rw [Pattern.size] at hsize
      omega
  | seq first second ihfirst ihsecond =>
    obtain ⟨hfirst, hsecond⟩ := (Bool.and_eq_true _ _).mp hstraight
    obtain ⟨entries, hcost⟩ := ihfirst hfirst hopen
    have hread := @front?_of_follow first hfirst p hopen
    rw [follow]
    generalize first.follow p = result at hcost hread
    obtain ⟨success, middle⟩ := result
    cases success with
    | false =>
      refine ⟨entries, hcost.mono ?_ ?_ fun h ↦ (staysInLine_seq h).1⟩
      · exact Nat.le_add_right _ _
      · exact Nat.le_add_right _ _
    | true =>
      obtain ⟨trees, hfront, -⟩ := hread rfl
      obtain ⟨others, hothers⟩ := ihsecond hsecond (hcost.noted.frames_ne_nil hopen)
      have htaken := hcost.taken rfl
      dsimp only at htaken hfront
      refine ⟨entries ++ others, hcost.noted.append hothers.noted, ?_, fun h ↦ ?_, fun h hline ↦ ?_⟩
      · rw [nodeCountOf_append]
        exact Nat.add_le_add hcost.size hothers.size
      · have hafter := hothers.taken h
        dsimp only at hafter ⊢
        rw [nodeCountOf_append, ruleCount]
        omega
      · obtain ⟨hline₁, hline₂⟩ := staysInLine_seq hline
        have hafter := hothers.failed h hline₂
        dsimp only at hafter
        have hlength := congrArg List.length (front?_append hfront)
        have hlineLength := lineLength_of_front? hline₁ hfront
        rw [List.length_append] at hlength
        rw [nodeCountOf_append, ruleCount]
        omega
  | optional body ih =>
    rw [follow]
    split
    · obtain ⟨entries, hcost⟩ := ih hstraight hopen
      exact ⟨entries, hcost.mono (Nat.le_refl _) (Nat.le_refl _) id⟩
    · exact ⟨[], cost_nothing _ true p⟩
  | choice first second ihfirst ihsecond =>
    obtain ⟨hfirst, hsecond⟩ := (Bool.and_eq_true _ _).mp hstraight
    rw [follow]
    split
    · obtain ⟨entries, hcost⟩ := ihfirst hfirst hopen
      exact ⟨entries, hcost.mono (Nat.le_max_left _ _) (Nat.le_max_left _ _)
        fun h ↦ (staysInLine_seq h).1⟩
    · obtain ⟨entries, hcost⟩ := ihsecond hsecond hopen
      exact ⟨entries, hcost.mono (Nat.le_max_right _ _) (Nat.le_max_right _ _)
        fun h ↦ (staysInLine_seq h).2⟩
  | repeated body stop => cases hstraight
  | rule name body ih =>
    obtain ⟨entries, hcost⟩ := @ih hstraight (p.enter name) (List.cons_ne_nil _ _)
    have hfst : ((rule name body).follow p).1 = (body.follow (p.enter name)).1 :=
      Parse.within_fst hopen hcost.noted
    refine ⟨_, noted_within hcost.noted, ?_, fun h ↦ ?_, fun h hline ↦ ?_⟩
    · have hsize := hcost.size
      rw [nodeCountOf_singleton, Pattern.size]
      omega
    · have htaken := hcost.taken (hfst.symm.trans h)
      have hrest : ((rule name body).follow p).2.rest = _ :=
        Parse.rest_within hopen hcost.noted h
      rw [Parse.rest_enter] at htaken
      rw [nodeCountOf_singleton, ruleCount, hrest]
      omega
    · have hfailed := hcost.failed (hfst.symm.trans h) hline
      rw [Parse.rest_enter] at hfailed
      rw [nodeCountOf_singleton, ruleCount]
      omega

end Pattern

open Pattern

/-! ### Items of setup orders -/

/-- How many items of a setup order stand at the front of some tokens, one to a line. -/
def detailCount : List Token → Nat
  | i :: m :: e :: ts =>
    if i.kind = .integer ∧ cargoKinds.contains m.kind = true ∧ e.kind = .eol then detailCount ts + 1
    else 0
  | _ => 0

/-- An item at the front is one more than the items after it. -/
theorem detailCount_cons {i m e : Token} (hi : i.kind = .integer)
    (hm : cargoKinds.contains m.kind = true) (he : e.kind = .eol) (ts : List Token) :
    detailCount (i :: m :: e :: ts) = detailCount ts + 1 :=
  if_pos ⟨hi, hm, he⟩

/-- If items are counted, one stands at the front. -/
theorem detailCount_pos {ts : List Token} (h : 0 < detailCount ts) :
    ∃ i m e rest, ts = i :: m :: e :: rest ∧ i.kind = .integer ∧
      cargoKinds.contains m.kind = true ∧ e.kind = .eol := by
  unfold detailCount at h
  split at h
  · next i m e rest =>
    split at h
    · next hkinds => exact ⟨i, m, e, rest, rfl, hkinds⟩
    · omega
  · omega

/-- Each item takes three tokens. -/
theorem three_mul_detailCount_le (ts : List Token) : 3 * detailCount ts ≤ ts.length := by
  by_cases hpos : 0 < detailCount ts
  · obtain ⟨i, m, e, rest, rfl, hi, hm, he⟩ := detailCount_pos hpos
    have hrest := three_mul_detailCount_le rest
    rw [detailCount_cons hi hm he]
    simp only [List.length_cons]
    omega
  · omega
termination_by ts.length

theorem transferDetail_straight : transferDetail.straight = true := rfl

/-- What is read as an item is the first of the items that are counted. -/
theorem detailCount_of_front? {ts rest : List Token} {trees : List Tree}
    (h : transferDetail.front? ts = some (trees, rest)) :
    detailCount ts = detailCount rest + 1 ∧ ts.length = rest.length + 3 := by
  obtain ⟨_, hdetail, rfl⟩ := fits_of_front? h
  simp only [cargo, fits_kind_cons_iff, fits_rule_anyOf_cons_iff, fits_sequence_nil_iff] at hdetail
  obtain ⟨i, _, rfl, hi, m, _, rfl, hm, e, _, rfl, he, rfl⟩ := hdetail
  obtain rfl : ts = i :: m :: e :: rest := front?_append h
  exact ⟨detailCount_cons hi hm he rest, rfl⟩

/-- What a repetition of items notes: five entries for each item, and five at most for what comes
after them. -/
theorem details_cost (n : Nat) {p : Parse} (hopen : p.frames ≠ []) :
    ∃ entries, Noted entries p (repeatUntil "end" transferDetail.follow n p) ∧
      nodeCountOf entries + 5 * (repeatUntil "end" transferDetail.follow n p).rest.length ≤
        5 * p.rest.length + 5 ∧
      nodeCountOf entries ≤ 5 * detailCount p.rest + 5 := by
  induction n generalizing p with
  | zero => exact ⟨[], noted_nil p, by rw [nodeCountOf, repeatUntil]; omega, Nat.zero_le _⟩
  | succ n ih =>
    rw [repeatUntil]
    split
    · exact ⟨[], noted_nil p, by rw [nodeCountOf]; omega, Nat.zero_le _⟩
    obtain ⟨entries, hcost⟩ := follow_cost transferDetail_straight hopen
    have hread := front?_of_follow transferDetail_straight hopen
    have hback := (follow_agrees_and (repeatsRules_of_straight transferDetail_straight) hopen).2 rfl
    have hsize : nodeCountOf entries ≤ 5 := hcost.size
    generalize transferDetail.follow p = result at hcost hread hback
    obtain ⟨success, later⟩ := result
    cases success with
    | false =>
      refine ⟨entries, hcost.noted, ?_, by omega⟩
      rw [rest_of_bare_eq (hback.of_failure rfl).2]
      omega
    | true =>
      obtain ⟨trees, hfront, -⟩ := hread rfl
      obtain ⟨hcount, hlength⟩ := detailCount_of_front? hfront
      obtain ⟨others, hothers, hlater, hitems⟩ := ih (hcost.noted.frames_ne_nil hopen)
      dsimp only at hcount hlength hlater hitems ⊢
      refine ⟨entries ++ others, hcost.noted.append hothers, ?_, ?_⟩
      · rw [nodeCountOf_append]
        omega
      · rw [nodeCountOf_append]
        omega

/-! ### Orders -/

/-- What an order notes after its first line. -/
theorem laterLines_cost (k : Keyword) {p : Parse} (hopen : p.frames ≠ []) :
    ∃ entries, Noted entries p ((sequence (laterLines k)).follow p).2 ∧
      (((sequence (laterLines k)).follow p).1 = true →
        nodeCountOf entries + 5 * ((sequence (laterLines k)).follow p).2.rest.length ≤
          5 * p.rest.length) ∧
      (((sequence (laterLines k)).follow p).1 = false → k = .setup) ∧
      nodeCountOf entries ≤ 5 * detailCount p.rest + 7 := by
  by_cases hk : k = .setup
  · subst hk
    obtain ⟨items, hitems, hlater, hcount⟩ := details_cost (p.remaining + 1) hopen
    obtain ⟨m, hm⟩ : ∃ m, repeatUntil "end" transferDetail.follow (p.remaining + 1) p = m :=
      ⟨_, rfl⟩
    have hfollow : (sequence (laterLines .setup)).follow p =
        (sequence [word "end", kind .eol]).follow m := by
      rw [← hm]
      rfl
    rw [hm] at hitems hlater
    have hopened := hitems.frames_ne_nil hopen
    obtain ⟨ending, hending⟩ := @follow_cost (sequence [word "end", kind .eol]) rfl m hopened
    have hsize : nodeCountOf ending ≤ 2 := hending.size
    rw [hfollow]
    refine ⟨items ++ ending, hitems.append hending.noted, fun h ↦ ?_, fun _ ↦ rfl, ?_⟩
    · -- The end takes two tokens.
      obtain ⟨trees, hfront, -⟩ :=
        @front?_of_follow (sequence [word "end", kind .eol]) rfl m hopened h
      have hfits := fits_of_front? hfront
      simp only [fits_word_cons_iff, fits_kind_cons_iff, fits_sequence_nil_iff] at hfits
      obtain ⟨w, _, rfl, -, e, _, rfl, -, rfl⟩ := hfits
      have hlength := congrArg List.length (front?_append hfront)
      simp only [Tree.tokensOf_cons, Tree.tokens_leaf, Tree.tokensOf_nil, List.append_nil,
        List.cons_append, List.nil_append, List.length_cons] at hlength
      rw [nodeCountOf_append]
      omega
    · rw [nodeCountOf_append]
      omega
  · rw [laterLines_of_ne hk]
    refine ⟨[], noted_nil p, fun _ ↦ ?_, fun h ↦ absurd h Bool.false_ne_true.symm, Nat.zero_le _⟩
    rw [nodeCountOf, Nat.zero_add]
    exact Nat.le_refl _

theorem header_ruleCount (k : Keyword) :
    (sequence (word k.word :: header k)).ruleCount ≤ 1 := by
  cases k <;> decide

/-- The first line of a setup order has more than three tokens. -/
theorem three_le_of_setup_header {trees : List Tree}
    (h : (sequence (word Keyword.setup.word :: header .setup)).Fits trees) :
    3 ≤ (tokensOf trees).length := by
  have hheader : header .setup =
      [kind .integer, coordinate, oneWord ["ship", "colony"], word "transfer"] := rfl
  rw [hheader, fits_word_cons_iff] at h
  obtain ⟨w, _, rfl, -, hback⟩ := h
  obtain ⟨i, _, rfl, -, hback⟩ := fits_kind_cons_iff.mp hback
  obtain ⟨front, _, -, hwords, rfl⟩ := hback
  obtain ⟨s, _, rfl, -, -⟩ := fits_oneWord_cons_iff.mp hwords
  simp only [Tree.tokensOf_cons, Tree.tokensOf_append, Tree.tokens_leaf, List.length_append,
    List.length_cons, List.length_nil]
  omega

/-- How many entries an order notes at most that fails. It fails in its first line, or it is a setup
order that fails after that line and the items there. -/
def FailureCost (ts : List Token) (count : Nat) : Prop :=
  count ≤ lineLength ts + 4 ∨
    ∃ front e rest, ts = front ++ e :: rest ∧ (∀ t ∈ front, t.kind ≠ .eol ∧ t.kind ≠ .eof) ∧
      e.kind = .eol ∧ 3 ≤ front.length ∧ count ≤ front.length + 5 * detailCount rest + 11

/-- What a part of an order notes, where the rules around that part in the order count as well. -/
def OrderCost (around : Nat) (p : Parse) (result : Bool × Parse) : Prop :=
  ∃ entries, Noted entries p result.2 ∧
    (result.1 = true →
      nodeCountOf entries + around + 5 * result.2.rest.length ≤ 5 * p.rest.length) ∧
    (result.1 = false → FailureCost p.rest (nodeCountOf entries + around))

/-- The rule of an order pays for its own entry. -/
theorem within_cost {around : Nat} {name : String} {body : Parse → Bool × Parse} {p : Parse}
    (hopen : p.frames ≠ []) (h : OrderCost (around + 1) (p.enter name) (body (p.enter name))) :
    OrderCost around p (p.within name body) := by
  obtain ⟨entries, hnoted, htaken, hfailed⟩ := h
  have hfst := Parse.within_fst hopen hnoted
  refine ⟨_, noted_within hnoted, fun hsuccess ↦ ?_, fun hfailure ↦ ?_⟩
  · have hbound := htaken (hfst.symm.trans hsuccess)
    rw [Parse.rest_enter] at hbound
    rw [nodeCountOf_singleton, Parse.rest_within hopen hnoted hsuccess]
    omega
  · have hbound := hfailed (hfst.symm.trans hfailure)
    rw [nodeCountOf_singleton, Nat.add_comm 1, Nat.add_assoc, Nat.add_comm 1]
    exact hbound

/-- What is noted inside the rule of a keyword. -/
theorem commandBody_cost (k : Keyword) {p : Parse} (hopen : p.frames ≠ []) :
    OrderCost 2 p ((sequence (word k.word :: operands k)).follow p) := by
  obtain ⟨hstraight, hline⟩ := header_inLine k
  have hrules := header_ruleCount k
  obtain ⟨first, hfirst⟩ := follow_cost hstraight hopen
  have hread := front?_of_follow hstraight hopen
  rw [follow_command_body]
  generalize (sequence (word k.word :: header k)).follow p = result at hfirst hread ⊢
  obtain ⟨success, middle⟩ := result
  cases success with
  | false =>
    have hfailed := hfirst.failed rfl hline
    refine ⟨first, hfirst.noted, (absurd · Bool.false_ne_true), fun _ ↦ .inl ?_⟩
    omega
  | true =>
    -- The first line is taken. Its length is known from the tokens that were read, and what may be
    -- noted after it is paid for by the items there.
    obtain ⟨trees, hfront, -⟩ := hread rfl
    have hfits := fits_of_front? hfront
    have happend := front?_append hfront
    have hlineLength := lineLength_of_front? hline hfront
    have hlength := congrArg List.length happend
    have htaken := hfirst.taken rfl
    dsimp only at happend hlineLength htaken hlength
    rw [List.length_append] at hlength
    obtain ⟨ending, hend, hone⟩ := acceptKind_cost .eol middle
    have hrest := @took_of_acceptKind .eol middle
    change OrderCost 2 p (onSuccess (sequence (laterLines k)).follow (middle.acceptKind .eol))
    generalize middle.acceptKind .eol = result at hend hrest ⊢
    obtain ⟨success, later⟩ := result
    have hboth := hfirst.noted.append hend
    have hcount : nodeCountOf (first ++ ending) = nodeCountOf first + 1 := by
      rw [nodeCountOf_append, hone]
    cases success with
    | false =>
      refine ⟨_, hboth, (absurd · Bool.false_ne_true), fun _ ↦ .inl ?_⟩
      rw [hcount]
      omega
    | true =>
      obtain ⟨e, he, hmiddle, -⟩ := hrest rfl
      dsimp only at hmiddle
      rw [hmiddle] at happend hlength
      rw [List.length_cons] at hlength
      obtain ⟨last, hlast, hsuccess, hfailure, hitems⟩ :=
        laterLines_cost k (hboth.frames_ne_nil hopen)
      refine ⟨_, hboth.append hlast, fun h ↦ ?_, fun h ↦ .inr ?_⟩
      · have hbound := hsuccess h
        rw [nodeCountOf_append, hcount]
        dsimp only [onSuccess] at hbound ⊢
        rw [hmiddle, List.length_cons] at htaken
        omega
      · obtain rfl := hfailure h
        refine ⟨tokensOf trees, e, later.rest, happend, inLine_of_fits hline hfits, he,
          three_le_of_setup_header hfits, ?_⟩
        rw [nodeCountOf_append, hcount]
        rw [hmiddle, List.length_cons] at htaken
        dsimp only at hitems
        omega

/-- An order notes no more than its tokens pay for, with the items after it if it fails. -/
theorem order_cost {k : Keyword} {p : Parse} (hopen : p.frames ≠ [])
    (hk : p.next?.bind Keyword.ofToken? = some k) : OrderCost 0 p (order p) := by
  rw [order_of_keyword hk]
  exact within_cost hopen
    (within_cost (List.cons_ne_nil _ _) (commandBody_cost k (List.cons_ne_nil _ _)))

/-- Where no keyword comes next, an order notes nothing but itself. -/
theorem order_none_noted {p : Parse} (hopen : p.frames ≠ [])
    (hk : p.next?.bind Keyword.ofToken? = none) :
    (order p).1 = false ∧ Noted [.entry (.rule "order" false) []] p (order p).2 := by
  rw [order_of_none hk]
  exact ⟨Parse.within_fst hopen (noted_nil _), noted_within (noted_nil _)⟩

/-! ### Unknown lines -/

/-- Skipping to the end of a line notes an entry for each token, and one for the end. -/
theorem skipLine_cost (n : Nat) (p : Parse) :
    ∃ entries, Noted entries p (skipLine n p).2 ∧
      nodeCountOf entries + (skipLine n p).1.toNat ≤ lineLength p.rest + 1 := by
  induction n generalizing p with
  | zero => exact ⟨[], noted_nil p, Nat.zero_le _⟩
  | succ n ih =>
    rw [skipLine]
    by_cases hend : p.sees [.eol, .eof] = true
    · rw [if_pos hend]
      exact ⟨[], noted_nil p, by rw [nodeCountOf]; exact Nat.le_add_left _ _⟩
    rw [if_neg hend]
    have hadvance := noted_attempt "ANY" (fun _ ↦ true) p
    have hrest := @rest_of_attempt "ANY" (fun _ ↦ true) p
    rw [← Parse.advance] at hadvance hrest
    generalize p.advance = result at hadvance hrest
    obtain ⟨success, later⟩ := result
    cases success with
    | false =>
      refine ⟨_, hadvance, ?_⟩
      rw [nodeCountOf_singleton, nodeCountOf]
      exact Nat.le_add_left _ _
    | true =>
      obtain ⟨t, -, hts⟩ := hrest rfl
      obtain ⟨others, hothers, hcount⟩ := ih later
      refine ⟨_, hadvance.append hothers, ?_⟩
      have hline : t.kind ≠ .eol ∧ t.kind ≠ .eof := by
        rw [Parse.sees, Parse.next?_eq, hts] at hend
        simpa using hend
      rw [nodeCountOf_append, nodeCountOf_singleton, nodeCountOf, hts, lineLength_cons hline]
      dsimp only at hcount ⊢
      omega

/-- A line that is kept as unknown notes its tokens, its end and itself; so does one that does not
end. -/
theorem unknown_cost (p : Parse) :
    ∃ entries, Noted entries p (unknown p).2 ∧ nodeCountOf entries ≤ lineLength p.rest + 2 := by
  obtain ⟨skipped, hskipped, hcount⟩ :=
    skipLine_cost ((p.enter "unknown").remaining + 1) (p.enter "unknown")
  suffices h : ∃ entries,
      Noted entries (p.enter "unknown")
        (onSuccess (·.acceptKind .eol)
          (skipLine ((p.enter "unknown").remaining + 1) (p.enter "unknown"))).2 ∧
        nodeCountOf entries ≤ lineLength p.rest + 1 by
    obtain ⟨entries, hentries, hcount⟩ := h
    refine ⟨_, noted_within hentries, ?_⟩
    rw [nodeCountOf_singleton]
    omega
  rw [Parse.rest_enter] at hcount
  generalize skipLine ((p.enter "unknown").remaining + 1) (p.enter "unknown") = result at *
  obtain ⟨success, later⟩ := result
  cases success with
  | false => exact ⟨skipped, hskipped, hcount⟩
  | true =>
    obtain ⟨ending, hend, hone⟩ := acceptKind_cost .eol later
    refine ⟨skipped ++ ending, hskipped.append hend, ?_⟩
    rw [nodeCountOf_append, hone]
    exact hcount

/-! ### Lines -/

/-- How many entries the lines of some tokens may note: five for each token, but those of the items
at the front are paid for as far as a setup order has gone over them. -/
def budget (ts : List Token) : Nat :=
  5 * (ts.length - detailCount ts)

/-- Whether the tokens left pay for what an order noted that failed, together with the line end that
is tried then, and also with the unknown line that is kept then. -/
def Affordable (ts : List Token) (count : Nat) : Prop :=
  count + 1 ≤ budget ts + 4 ∧
    (unknownFront? ts = none → count + lineLength ts + 3 ≤ budget ts + 4) ∧
    ∀ trees rest, unknownFront? ts = some (trees, rest) →
      count + lineLength ts + 3 + budget rest ≤ budget ts

/-- No item starts with a keyword. -/
theorem not_detail_of_keyword {ts : List Token} {k : Keyword}
    (h : ts.head?.bind Keyword.ofToken? = some k) : detailCount ts = 0 ∧ 0 < lineLength ts := by
  obtain ⟨t, ht, hk⟩ := Option.bind_eq_some_iff.mp h
  obtain ⟨rest, rfl⟩ := List.head?_eq_some_iff.mp ht
  have hkind := Token.kind_of_spells (Keyword.spells_of_ofToken? hk)
  constructor
  · refine Nat.eq_zero_of_not_pos fun hpos ↦ ?_
    obtain ⟨i, m, e, others, heq, hi, -, -⟩ := detailCount_pos hpos
    obtain ⟨rfl, -⟩ := List.cons.inj heq
    rw [hi] at hkind
    cases hkind
  · rw [lineLength_cons (by rw [hkind]; decide)]
    exact Nat.succ_pos _

/-- A failed order with a keyword. -/
theorem affordable_of_failureCost {ts : List Token} {k : Keyword} {count : Nat}
    (hk : ts.head?.bind Keyword.ofToken? = some k) (h : FailureCost ts count) :
    Affordable ts count := by
  obtain ⟨hdetails, hpos⟩ := not_detail_of_keyword hk
  have hle := lineLength_le ts
  unfold Affordable budget
  rw [hdetails, Nat.sub_zero]
  rcases h with hline | ⟨front, e, rest, rfl, hfront, he, hthree, hcount⟩
  · refine ⟨by omega, fun _ ↦ by omega, fun trees rest hunknown ↦ ?_⟩
    have hlength := length_of_unknownFront? hunknown
    omega
  · obtain ⟨trees, hunknown⟩ := unknownFront?_of_append hfront he rest
    have hlineLength : lineLength (front ++ e :: rest) = front.length := by
      rw [lineLength_append hfront, lineLength_of_end (by simp [he])]
      rfl
    have hitems := three_mul_detailCount_le rest
    rw [List.length_append, List.length_cons]
    refine ⟨by omega, fun hnone ↦ ?_, fun trees' rest' hsome ↦ ?_⟩
    · rw [hunknown] at hnone
      cases hnone
    · rw [hunknown] at hsome
      obtain ⟨-, rfl⟩ := Prod.mk.inj (Option.some.inj hsome)
      omega

/-- No order. If an item comes next, it is a line of three tokens. -/
theorem affordable_one (ts : List Token) : Affordable ts 1 := by
  have hle := lineLength_le ts
  have hitems := three_mul_detailCount_le ts
  unfold Affordable budget
  by_cases hpos : 0 < detailCount ts
  · obtain ⟨i, m, e, rest, rfl, hi, hm, he⟩ := detailCount_pos hpos
    have hcount := detailCount_cons hi hm he rest
    have hfront : ∀ t ∈ [i, m], t.kind ≠ .eol ∧ t.kind ≠ .eof := by
      have hcargo : ∀ k ∈ cargoKinds, k ≠ .eol ∧ k ≠ .eof := by decide
      have hkind := hcargo m.kind (List.contains_iff_mem.mp hm)
      exact List.forall_mem_cons.mpr ⟨by rw [hi]; decide, List.forall_mem_singleton.mpr hkind⟩
    obtain ⟨trees, hunknown⟩ := unknownFront?_of_append hfront he rest
    have hlineLength : lineLength (i :: m :: e :: rest) = 2 := by
      have happend := lineLength_append hfront (e :: rest)
      rwa [lineLength_of_end (by simp [he])] at happend
    simp only [List.length_cons] at hitems ⊢
    refine ⟨by omega, fun hnone ↦ ?_, fun trees' rest' hsome ↦ ?_⟩
    · rw [List.cons_append, List.cons_append, List.nil_append, hnone] at hunknown
      cases hunknown
    · have hrest := hsome.symm.trans hunknown
      obtain ⟨-, rfl⟩ := Prod.mk.inj (Option.some.inj hrest)
      omega
  · refine ⟨by omega, fun _ ↦ by omega, fun trees rest hunknown ↦ ?_⟩
    have hlength := length_of_unknownFront? hunknown
    omega

/-- An order is paid for out of the budget of the tokens left, and one that fails leaves enough for
its line. -/
theorem order_budget {p : Parse} (hopen : p.frames ≠ []) :
    ∃ entries, Noted entries p (order p).2 ∧
      ((order p).1 = true → nodeCountOf entries + budget (order p).2.rest ≤ budget p.rest) ∧
      ((order p).1 = false →
        Affordable p.rest (nodeCountOf entries) ∧ (order p).2.rest = p.rest) := by
  have hback := fun h ↦ rest_of_bare_eq ((order_agreesWhole hopen).of_failure h).2
  cases hk : p.next?.bind Keyword.ofToken? with
  | none =>
    obtain ⟨hfailure, hnoted⟩ := order_none_noted hopen hk
    refine ⟨_, hnoted, fun h ↦ ?_, fun h ↦ ⟨affordable_one p.rest, hback h⟩⟩
    exact absurd (hfailure.symm.trans h) Bool.false_ne_true
  | some k =>
    obtain ⟨entries, hnoted, htaken, hfailed⟩ := order_cost hopen hk
    rw [Parse.next?_eq] at hk
    refine ⟨entries, hnoted, fun h ↦ ?_, fun h ↦ ?_⟩
    · have hbound := htaken h
      rw [budget, budget, (not_detail_of_keyword hk).1]
      omega
    · exact ⟨affordable_of_failureCost hk (hfailed h), hback h⟩

/-- A line that is taken is paid for by its tokens, and so is one at which the parse ends, up to
four entries. -/
theorem line_cost (stop : Bool) {p : Parse} (hopen : p.frames ≠ []) :
    ∃ entries, Noted entries p (line stop p).2 ∧
      ((line stop p).1 = true → nodeCountOf entries + budget (line stop p).2.rest ≤ budget p.rest) ∧
      ((line stop p).1 = false → nodeCountOf entries ≤ budget p.rest + 4) := by
  obtain ⟨entries, hnoted, htaken, hfailed⟩ := order_budget hopen
  rw [line]
  generalize order p = result at hnoted htaken hfailed
  obtain ⟨success, q⟩ := result
  cases success with
  | true => exact ⟨entries, hnoted, htaken, (absurd · Bool.false_ne_true.symm)⟩
  | false =>
    obtain ⟨⟨hstopped, hunended, hkept⟩, hback⟩ := hfailed rfl
    obtain ⟨ending, hend, hone⟩ := acceptKind_cost .eol q
    have hrest := @took_of_acceptKind .eol q
    have hwhole := acceptKind_agreesWhole .eol q
    dsimp only at hback ⊢
    rw [hback] at hrest
    generalize q.acceptKind .eol = result at hend hrest hwhole ⊢
    obtain ⟨success, r⟩ := result
    have hboth : Noted (entries ++ ending) p r := hnoted.append hend
    have hcount : nodeCountOf (entries ++ ending) = nodeCountOf entries + 1 := by
      rw [nodeCountOf_append, hone]
    cases success with
    | true =>
      obtain ⟨e, he, hts, -⟩ := hrest rfl
      -- The order failed at the end of an empty line, which is kept as an unknown line of no
      -- tokens.
      obtain ⟨trees, hunknown⟩ := unknownFront?_of_append (List.forall_mem_nil _) he r.rest
      rw [List.nil_append, ← hts] at hunknown
      have hbound := hkept trees r.rest hunknown
      refine ⟨_, hboth, fun _ ↦ ?_, (absurd · Bool.false_ne_true.symm)⟩
      rw [hcount]
      dsimp only
      omega
    | false =>
      -- Neither the order nor the line end took anything, so the unknown line starts where they
      -- did.
      have hagain : r.rest = p.rest := (rest_of_bare_eq (hwhole.of_failure rfl).2).trans hback
      cases stop with
      | true =>
        refine ⟨_, hboth, (absurd · Bool.false_ne_true), fun _ ↦ ?_⟩
        rw [hcount]
        exact hstopped
      | false =>
        obtain ⟨others, hothers, hunknown⟩ := unknown_cost r
        have hagrees := unknown_agreesWhole (hboth.frames_ne_nil hopen)
        rw [hagain] at hunknown
        dsimp only
        rw [if_neg Bool.false_ne_true]
        refine ⟨_, hboth.append hothers, fun h ↦ ?_, fun h ↦ ?_⟩
        · obtain ⟨trees, hread, -⟩ := hagrees.agrees.of_success (fun _ _ ↦ unknownFront?_append) h
          have hbound := hkept _ _ (hagain ▸ hread)
          rw [nodeCountOf_append, hcount]
          omega
        · have hbound := hunended (hagain ▸ (hagrees.of_failure h).1)
          rw [nodeCountOf_append, hcount]
          omega

/-- Lines are paid for out of the budget of their tokens, up to where they stop. -/
theorem lines_cost (stop : Bool) (n : Nat) {p : Parse} (hopen : p.frames ≠ []) :
    ∃ entries, Noted entries p (lines stop n p).2 ∧
      nodeCountOf entries ≤ budget p.rest + 4 ∧
      ((lines stop n p).1 = true → nodeCountOf entries ≤ budget p.rest) := by
  induction n generalizing p with
  | zero => exact ⟨[], noted_nil p, Nat.zero_le _, fun _ ↦ Nat.zero_le _⟩
  | succ n ih =>
    rw [lines]
    by_cases heof : p.sees [.eof] = true
    · rw [if_pos heof]
      exact ⟨[], noted_nil p, Nat.zero_le _, fun _ ↦ Nat.zero_le _⟩
    rw [if_neg heof]
    obtain ⟨entries, hnoted, htaken, hfailed⟩ := line_cost stop hopen
    generalize line stop p = result at hnoted htaken hfailed
    obtain ⟨success, later⟩ := result
    cases success with
    | false => exact ⟨entries, hnoted, hfailed rfl, (absurd · Bool.false_ne_true)⟩
    | true =>
      have hline := htaken rfl
      obtain ⟨others, hothers, hcount, hsuccess⟩ := ih (hnoted.frames_ne_nil hopen)
      dsimp only at hline hcount hsuccess ⊢
      refine ⟨entries ++ others, hnoted.append hothers, ?_, fun h ↦ ?_⟩
      · rw [nodeCountOf_append]
        omega
      · have hbound := hsuccess h
        rw [nodeCountOf_append]
        omega

end Grammar

end OrderFile
