import OrderFile.Proofs.Grammar.Missed
import OrderFile.Proofs.Reading.Stopped

/-!
What a rejection is for. A parse that stops at a line has missed nothing in the lines before it, so
that its farthest miss is one at that line (`lines_blamed`), and the rejection is explained by it
(`exists_blame`).
-/

set_option autoImplicit false

namespace OrderFile

open OrderFile.Tree (leaf node tokensOf)

namespace Grammar

open Pattern
open Parse (Miss)

/-- A parse that stops among lines has taken the lines before the first one that the other mode
finds unknown, and that one is to blame. -/
theorem lines_blamed {n : Nat} {p : Parse} (hopen : p.frames ≠ []) (hfuel : p.rest.length < n)
    (hfarthest : p.farthest = none) {parts : List Tree} {rest : List Token}
    (hlines : linesFront? false p.rest = some (parts, rest))
    (hfailure : (lines true n p).1 = false) :
    ∃ before line after here miss, parts = before ++ line :: after ∧
      (∀ part ∈ before, part.isRule "unknown" = false) ∧ line.isRule "unknown" = true ∧
      p.rest = tokensOf before ++ here ∧ line.tokens <+: here ∧
      (lines true n p).2.farthest = some miss ∧
      Blame here (p.cursor + (tokensOf before).length) p.rules miss := by
  induction n generalizing p parts with
  | zero => omega
  | succ n ih =>
    rw [lines, sees_singleton] at hfailure ⊢
    by_cases heof : p.rest.head?.any (·.kind == .eof) = true
    · rw [if_pos heof] at hfailure
      cases hfailure
    rw [if_neg heof] at hfailure ⊢
    rw [linesFront?_of_not_eof heof] at hlines
    obtain ⟨first, middle, others, hline, hothers, rfl⟩ := andThen_eq_some hlines
    obtain ⟨part, -, rfl, -⟩ := part_of_lineFront? hline
    have happend := lineFront?_append hline
    have hagrees := line_agreesWhole true hopen
    obtain ⟨htaken, hstopped⟩ := line_blamed hopen
    generalize line true p = result at hfailure hagrees htaken hstopped ⊢
    obtain ⟨success, later⟩ := result
    cases success with
    -- The parse stops at this line: it is unknown to the other mode, and its miss is the first one.
    | false =>
      obtain ⟨miss, hmiss, hblame⟩ := hstopped rfl
      rw [hfarthest] at hmiss
      have hunknown := isRule_unknown_of_lineFront? (hagrees.of_failure rfl).1 hline
      rw [Tree.tokensOf_cons, Tree.tokensOf_nil, List.append_nil] at happend
      exact ⟨[], part, others, p.rest, miss, rfl, List.forall_mem_nil _, hunknown, rfl,
        ⟨middle, happend.symm⟩, hmiss, hblame⟩
    -- The line is taken in both modes alike, and leaves no miss, so the rest can be taken by
    -- induction.
    | true =>
      obtain ⟨trees, hread, hbare⟩ := hagrees.agrees.of_success (fun _ _ ↦ lineFront?_append) rfl
      obtain ⟨hsame, hknown⟩ := lineFront?_true_iff.mp hread
      obtain ⟨rfl, hrest⟩ := Prod.mk.inj (Option.some.inj (hsame.symm.trans hline))
      have hshorter := lineFront?_length_lt hline
      obtain ⟨before, line, after, here, miss, rfl, hbefore, hline, hhere, hprefix, hmiss,
          hblame⟩ :=
        ih (frames_ne_nil_of_took hopen hbare) (by rw [hrest]; omega)
          ((htaken rfl).trans hfarthest) (hrest ▸ hothers) hfailure
      rw [Parse.cursor_of_bare_took hbare, Parse.rules_of_bare_took hbare] at hblame
      refine ⟨part :: before, line, after, here, miss, rfl,
        List.forall_mem_cons.mpr ⟨hknown part List.mem_cons_self, hbefore⟩, hline, ?_, hprefix,
        hmiss, ?_⟩
      · rw [happend, ← hrest, hhere, ← List.append_assoc, ← Tree.tokensOf_append]
        rfl
      · rw [Nat.add_assoc, ← List.length_append, ← Tree.tokensOf_append] at hblame
        exact hblame

/-- The fault of a file at which the parse stops. -/
theorem fault_orders_of_stop {ts : List Token} {parts : List Tree} {rest : List Token}
    (hlines : linesFront? false ts = some (parts, rest)) (hstop : linesFront? true ts = none) :
    ∃ before line after here miss, parts = before ++ line :: after ∧
      (∀ part ∈ before, part.isRule "unknown" = false) ∧ line.isRule "unknown" = true ∧
      ts = tokensOf before ++ here ∧ line.tokens <+: here ∧
      Blame here (tokensOf before).length ["orders"] miss ∧
      (orders true (Parse.start ts)).2.fault = some (miss.fault ts) := by
  obtain ⟨p, hp⟩ : ∃ p, (Parse.start ts).enter "orders" = p := ⟨_, rfl⟩
  have hrest : p.rest = ts := by
    rw [← hp, Parse.rest_enter, rest_start]
  have hopen : p.frames ≠ [] := by
    rw [← hp]
    exact List.cons_ne_nil _ _
  have hfuel : p.rest.length < p.remaining + 1 := by
    rw [Parse.remaining_eq]
    omega
  have hagrees := lines_agrees true _ p hopen hfuel
  rw [hrest, hstop] at hagrees
  obtain ⟨frame, hframe⟩ := frames_of_agrees (fileBody_agrees true ts)
  obtain ⟨before, line, after, here, miss, hparts, hbefore, hline, hhere, hprefix, hmiss, hblame⟩ :=
    lines_blamed hopen hfuel (by rw [← hp]; rfl) (hrest ▸ hlines) hagrees.1
  have hbody : onSuccess (·.acceptKind .eof) (lines true (p.remaining + 1) p) =
      (false, (lines true (p.remaining + 1) p).2) := onSuccess_of_failure hagrees.1
  have htokens : (lines true (p.remaining + 1) p).2.tokens.toList = ts := by
    rw [hagrees.2.tokens_eq, ← hp]
    rfl
  have hstart : p.cursor = 0 ∧ p.rules = ["orders"] := by
    rw [← hp]
    exact ⟨rfl, rfl⟩
  rw [hstart.1, hstart.2, Nat.zero_add] at hblame
  rw [hp, hbody] at hframe
  refine ⟨before, line, after, here, miss, hparts, hbefore, hline, hrest ▸ hhere, hprefix, hblame,
    ?_⟩
  have hfault := @Parse.fault_within_root "orders"
    (fun q ↦ onSuccess (·.acceptKind .eof) (lines true (q.remaining + 1) q)) (Parse.start ts) frame
    miss
  rw [hp, hbody, htokens] at hfault
  exact hfault hframe rfl hmiss

end Grammar

/-! ### Rejections -/

/-- A text that is rejected is read in the other mode, and what is to blame is the first line that
is unknown there. There is a trace whether it was asked for or not. -/
theorem exists_blame {text : List Char} {emitTrace : Bool} {rejection : Rejection}
    (h : readText text ⟨true, emitTrace⟩ = .error rejection) :
    ∃ reading before line after here miss,
      readText text ⟨false, emitTrace⟩ = .ok reading ∧
      reading.tree = node "orders" (before ++ line :: after) ∧
      (∀ part ∈ before, part.isRule "unknown" = false) ∧ line.isRule "unknown" = true ∧
      Token.prepare (Token.scan text) = tokensOf before ++ here ∧ line.tokens <+: here ∧
      Grammar.Blame here (tokensOf before).length ["orders"] miss ∧
      rejection.fault = miss.fault (Token.prepare (Token.scan text)) ∧
      rejection.trace.isSome = true := by
  obtain ⟨reading, parts, f, hreading, htree, hlines, hstop⟩ := lines_of_rejection h
  obtain ⟨before, line, after, here, miss, rfl, hbefore, hline, hhere, hprefix, hblame, hfault⟩ :=
    Grammar.fault_orders_of_stop hlines hstop
  obtain ⟨-, rfl⟩ := readTokens_eq_error_iff.mp h
  refine ⟨reading, before, line, after ++ [leaf f], here, miss, hreading, ?_, hbefore, hline, hhere,
    hprefix, hblame, ?_, Grammar.isSome_trace_orders true _⟩
  · rw [htree, List.append_assoc, List.cons_append]
  · change ((Grammar.orders true _).2.fault).getD _ = _
    rw [hfault, Option.getD_some]

end OrderFile
