import OrderFile.Proofs.Grammar.Cost
import OrderFile.Token.Prepared
import OrderFile.Token.Scan

/-!
A parse of any tokens ends, with a trace that is linear in their number. The loops over lines, over
the tokens of an unknown line and over the items of a setup order are given a bound, which they
never reach: `Loops` tells what they do without one.
-/

set_option autoImplicit false

namespace OrderFile.Grammar

open Parse (Noted)
open Pattern
open Trace (nodeCountOf nodeCountOf_append)

/-! ### Loops without a bound -/

/-- What a loop comes to that runs a body as long as a test holds and fails where the body does. -/
inductive Loops (goesOn : Parse → Bool) (body : Parse → Bool × Parse) :
    Parse → Bool × Parse → Prop
  | stop {p : Parse} (h : goesOn p = false) : Loops goesOn body p (true, p)
  | fail {p later : Parse} (h : goesOn p = true) (hbody : body p = (false, later)) :
      Loops goesOn body p (false, later)
  | step {p middle : Parse} {result : Bool × Parse} (h : goesOn p = true)
      (hbody : body p = (true, middle)) (hothers : Loops goesOn body middle result) :
      Loops goesOn body p result

/-- A loop that takes a token each time stays below any bound beyond the number of tokens left. -/
theorem loops_of_bounded {goesOn : Parse → Bool} {body : Parse → Bool × Parse}
    {run : Nat → Parse → Bool × Parse} {Inv : Parse → Prop}
    (hrun : ∀ n p, run (n + 1) p = if goesOn p then onSuccess (run n) (body p) else (true, p))
    (hbody : ∀ p later, Inv p → body p = (true, later) →
      Inv later ∧ later.rest.length < p.rest.length)
    (n : Nat) (p : Parse) (hp : Inv p) (hbound : p.rest.length < n) :
    Loops goesOn body p (run n p) := by
  induction n generalizing p with
  | zero => omega
  | succ n ih =>
    rw [hrun]
    by_cases hgoes : goesOn p = true
    · rw [if_pos hgoes]
      cases hresult : body p with
      | mk success later =>
        cases success with
        | false => exact .fail hgoes hresult
        | true =>
          obtain ⟨hlater, hshorter⟩ := hbody p later hp hresult
          exact .step hgoes hresult (ih later hlater (by omega))
    · rw [if_neg hgoes]
      exact .stop (Bool.eq_false_iff.mpr hgoes)

/-- All lines are read as by a loop without a bound. -/
theorem lines_loops (stop : Bool) {p : Parse} (hopen : p.frames ≠ []) :
    Loops (!·.sees [.eof]) (line stop) p (lines stop (p.remaining + 1) p) := by
  refine @loops_of_bounded _ _ (lines stop) (·.frames ≠ []) ?_ ?_ _ p hopen
    (by rw [Parse.remaining_eq]; omega)
  · intro n q
    rw [lines]
    cases q.sees [.eof] <;> rfl
  · intro q later hq hline
    have hagrees := (line_agreesWhole stop hq).agrees
    rw [hline] at hagrees
    obtain ⟨trees, hread, hbare⟩ := hagrees.of_success (fun _ _ ↦ lineFront?_append) rfl
    exact ⟨frames_ne_nil_of_took hq hbare, lineFront?_length_lt hread⟩

/-- An unknown line is skipped as by a loop without a bound. -/
theorem skipLine_loops (p : Parse) :
    Loops (!·.sees [.eol, .eof]) Parse.advance p (skipLine (p.remaining + 1) p) := by
  refine @loops_of_bounded _ _ skipLine (fun _ ↦ True) ?_ ?_ _ p trivial
    (by rw [Parse.remaining_eq]; omega)
  · intro n q
    rw [skipLine]
    cases q.sees [.eol, .eof] <;> rfl
  · intro q later _ hadvance
    obtain ⟨t, -, hrest⟩ := @rest_of_attempt "ANY" (fun _ ↦ true) q (congrArg Prod.fst hadvance)
    rw [← Parse.advance, hadvance] at hrest
    exact ⟨trivial, by rw [hrest]; exact Nat.lt_succ_self _⟩

/-- A repetition of items ends at an item that fails or at the word that stops it. -/
theorem repeatUntil_loops (n : Nat) {p : Parse} (hopen : p.frames ≠ [])
    (hbound : p.rest.length < n) :
    ∃ success, Loops (!·.next?.any (·.spells "end")) transferDetail.follow p
      (success, repeatUntil "end" transferDetail.follow n p) := by
  induction n generalizing p with
  | zero => omega
  | succ n ih =>
    rw [repeatUntil]
    by_cases hstop : p.next?.any (·.spells "end") = true
    · rw [if_pos hstop]
      exact ⟨true, .stop (by rw [hstop]; rfl)⟩
    rw [if_neg hstop]
    have hgoes : (!p.next?.any (·.spells "end")) = true := by
      rw [Bool.eq_false_iff.mpr hstop]
      rfl
    have hread := front?_of_follow transferDetail_straight hopen
    cases hresult : transferDetail.follow p with
    | mk success later =>
      rw [hresult] at hread
      cases success with
      | false => exact ⟨false, .fail hgoes hresult⟩
      | true =>
        obtain ⟨trees, hfront, hbare⟩ : ∃ trees,
            transferDetail.front? p.rest = some (trees, later.rest) ∧
              later.bare = p.bare.took trees := hread rfl
        have hlength := (detailCount_of_front? hfront).2
        obtain ⟨success, hothers⟩ := ih (frames_ne_nil_of_took hopen hbare) (by omega)
        exact ⟨success, .step hgoes hresult hothers⟩

/-! ### Whole files -/

/-- The trace of a root is its entry over all that was noted in it. -/
theorem trace_within_root {name : String} {body : Parse → Bool × Parse} {p : Parse}
    {entries : List Trace} (hroot : p.frames = [])
    (h : Noted entries (p.enter name) (body (p.enter name)).2) :
    ∃ success, (p.within name body).2.trace = some (.entry (.rule name success) entries) := by
  obtain ⟨children, hframes⟩ := h _ [] (by rw [Parse.enter, hroot])
  rw [Parse.within_eq, Parse.close, hframes]
  simp only [Parse.closeRoot]
  split
  · split
    · exact ⟨true, by simp⟩
    · exact ⟨false, by simp⟩
  · exact ⟨false, by simp⟩

/-- The body of the rule of files notes at most five entries for each token, and four more. -/
theorem fileBody_cost (stop : Bool) {p : Parse} (hopen : p.frames ≠ []) :
    ∃ entries,
      Noted entries p (onSuccess (·.acceptKind .eof) (lines stop (p.remaining + 1) p)).2 ∧
        nodeCountOf entries ≤ 5 * p.rest.length + 4 := by
  obtain ⟨entries, hnoted, hcount, hsuccess⟩ := lines_cost stop (p.remaining + 1) hopen
  have hbudget : budget p.rest ≤ 5 * p.rest.length := Nat.mul_le_mul_left 5 (Nat.sub_le _ _)
  generalize lines stop (p.remaining + 1) p = result at hnoted hsuccess ⊢
  obtain ⟨success, later⟩ := result
  cases success with
  | false => exact ⟨entries, hnoted, by omega⟩
  | true =>
    obtain ⟨ending, hend, hone⟩ := acceptKind_cost .eof later
    have hbound := hsuccess rfl
    refine ⟨entries ++ ending, hnoted.append hend, ?_⟩
    rw [nodeCountOf_append, hone]
    omega

/-- Whatever the tokens, a parse leaves a trace of at most five entries for each of them and five
more, in either mode. It comes to what its loops come to that go over lines, over the tokens of a
line that is kept as unknown and over the items of a setup order, however often they are run. -/
theorem orders_linear (stop : Bool) (ts : List Token) :
    (∃ trace, (orders stop (Parse.start ts)).2.trace = some trace ∧
        trace.nodeCount ≤ 5 * ts.length + 5) ∧
      ∀ p : Parse, p.frames ≠ [] →
        Loops (!·.sees [.eof]) (line stop) p (lines stop (p.remaining + 1) p) ∧
          Loops (!·.sees [.eol, .eof]) Parse.advance p (skipLine (p.remaining + 1) p) ∧
          ∃ success, Loops (!·.next?.any (·.spells "end")) transferDetail.follow p
            (success, repeatUntil "end" transferDetail.follow (p.remaining + 1) p) := by
  constructor
  · obtain ⟨entries, hnoted, hcount⟩ :=
      @fileBody_cost stop ((Parse.start ts).enter "orders") (List.cons_ne_nil _ _)
    rw [Parse.rest_enter, rest_start] at hcount
    obtain ⟨success, htrace⟩ : ∃ success, (orders stop (Parse.start ts)).2.trace =
        some (.entry (.rule "orders" success) entries) :=
      @trace_within_root "orders" _ (Parse.start ts) entries rfl hnoted
    refine ⟨_, htrace, ?_⟩
    rw [Trace.nodeCount]
    omega
  · intro p hopen
    refine ⟨lines_loops stop hopen, skipLine_loops p, repeatUntil_loops _ hopen ?_⟩
    rw [Parse.remaining_eq]
    exact Nat.lt_succ_self _

/-- Two setup orders that are not ended. -/
def openSetups : List Token :=
  let block := "setup 1 (1,2,3) ship transfer\n5 food\n6 food\n"
  Token.prepare (Token.scan (block ++ block).toList)

/-- Each item is gone over twice, and the trace still has fewer entries than the bound allows. -/
theorem orders_linear_openSetups :
    ((Parse.start openSetups).enter "orders").frames ≠ [] ∧
      (∃ trace, (orders false (Parse.start openSetups)).2.trace = some trace ∧
        trace.nodeCount ≤ 5 * openSetups.length + 5) ∧
      Loops (!·.sees [.eof]) (line false) ((Parse.start openSetups).enter "orders")
        (lines false (openSetups.length + 1) ((Parse.start openSetups).enter "orders")) := by
  have hopen : ((Parse.start openSetups).enter "orders").frames ≠ [] := List.cons_ne_nil _ _
  obtain ⟨htrace, hloops⟩ := orders_linear false openSetups
  have hlines := (hloops _ hopen).1
  rw [Parse.remaining_eq, Parse.rest_enter, rest_start] at hlines
  exact ⟨hopen, htrace, hlines⟩

end OrderFile.Grammar
