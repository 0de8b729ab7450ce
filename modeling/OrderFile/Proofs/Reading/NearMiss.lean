import OrderFile.Proofs.Reading.Stopped
import OrderFile.Proofs.Trace.NearMiss

/-!
Which rule is named as the one that came closest when a file is rejected. The root rule counts the
tokens of all the lines before the one that is rejected, so that it outdoes the rule of that line
unless the line is the first of the file (`readText_nearestMiss`).
-/

set_option autoImplicit false

namespace OrderFile

open OrderFile.Tree (leaf node tokensOf)

namespace Grammar

open Trace (Outdone closest matchedTokensOf missesOf)

/-! ### What lines leave -/

/-- A line that is taken leaves no failed rule that matched all of its tokens. -/
theorem LineNoted.outdone {entries : List Trace} (h : LineNoted entries) : Outdone entries := by
  cases h with
  | order horder =>
    cases horder with
    | @command _ _ expected found others _ =>
      have hcommand := Trace.outdone_of_match expected found others
      exact Trace.outdone_entry rfl (Trace.outdone_entry rfl hcommand)
  | blank hblank =>
    cases hblank with
    | none =>
      intro miss hmiss
      cases hmiss

/-- A line that is taken has matched a token. -/
theorem LineNoted.matchedTokens_pos {entries : List Trace} (h : LineNoted entries) :
    0 < matchedTokensOf entries := by
  cases h with
  | order horder =>
    cases horder with
    | command =>
      rw [Trace.matchedTokensOf_rule, Trace.matchedTokensOf_rule, Trace.matchedTokensOf_match_cons]
      omega
  | blank hblank =>
    cases hblank with
    | none => exact Nat.zero_lt_one

/-- A line at which a parse stops leaves no near misses if it starts with no keyword. -/
theorem StopNoted.missesOf_none {entries : List Trace} (h : StopNoted none entries) :
    missesOf entries = [] := by
  cases h with
  | intro horder =>
    cases horder with
    | none => rfl

/-- The rule of the keyword that the line starts with matched all that was matched in the line, and
no near miss after it did. -/
theorem StopNoted.missesOf_some {k : Keyword} {entries : List Trace}
    (h : StopNoted (some k) entries) :
    ∃ before expected found after,
      missesOf entries = before ++ ⟨k.word, matchedTokensOf entries, expected, found⟩ :: after ∧
        ∀ miss ∈ after, miss.matched < matchedTokensOf entries := by
  cases h with
  | intro horder =>
    cases horder with
    | @command _ _ expected found others hfailure =>
      have houtdone := Trace.outdone_of_match expected found others
      obtain ⟨failed, hmem, hfailed⟩ := hfailure rfl
      obtain ⟨wanted, seen, hcommand⟩ :=
        Trace.exists_nearMiss? k.word ⟨failed, List.mem_cons_of_mem _ hmem, hfailed⟩
      rw [← List.singleton_append, Trace.missesOf_append, Trace.matchedTokensOf_append,
        Trace.missesOf_failedRule, Trace.missesOf_failedRule, hcommand, Trace.matchedTokensOf_rule,
        Trace.matchedTokensOf_rule, Trace.missesOf_entry rfl]
      exact ⟨_, wanted, seen, _, List.append_nil _, houtdone⟩

/-- The rule that comes closest where a parse stops: the rule of the line if no line was taken before
and the line starts with a keyword, and the root rule otherwise. -/
def closestRule (before : List Tree) (line : Tree) : String :=
  if before.isEmpty then (line.tokens.head?.bind Keyword.ofToken?).elim "orders" Keyword.word
  else "orders"

/-- What the lines before a stop leave, and what the line at the stop leaves. -/
theorem Stops.parted {line : Tree} {before parts : List Tree} {entries : List Trace}
    (h : Stops line before parts entries) :
    ∃ first last, entries = first ++ last ∧ Outdone first ∧
      StopNoted (line.tokens.head?.bind Keyword.ofToken?) last ∧
      (before = [] → first = []) ∧ (before ≠ [] → 0 < matchedTokensOf first) := by
  induction h with
  | @here _ entries _ h =>
    exact ⟨[], entries, rfl, List.forall_mem_nil _, h, fun _ ↦ rfl, fun hne ↦ absurd rfl hne⟩
  | @later _ _ _ entries _ _ h _ ih =>
    obtain ⟨first, last, rfl, houtdone, hlast, -, -⟩ := ih
    refine ⟨entries ++ first, last, (List.append_assoc ..).symm, h.outdone.append houtdone, hlast,
      fun hnil ↦ absurd hnil (List.cons_ne_nil _ _), fun _ ↦ ?_⟩
    rw [Trace.matchedTokensOf_append]
    exact Nat.add_pos_left h.matchedTokens_pos _

/-- A line at which the parse stops leaves an entry that did not succeed. -/
theorem StopNoted.exists_failure {k? : Option Keyword} {entries : List Trace}
    (h : StopNoted k? entries) : ∃ entry ∈ entries, entry.succeeded = false := by
  cases h with
  | intro => exact ⟨_, List.mem_cons_of_mem _ (List.mem_singleton_self _), rfl⟩

/-- The rule that comes closest where a parse stops counts all the tokens that were matched. -/
theorem Stops.nearestMiss {line : Tree} {before parts : List Tree} {entries : List Trace}
    (h : Stops line before parts entries) :
    ∃ expected found,
      (Trace.entry (.rule "orders" false) entries).nearestMiss =
        some ⟨closestRule before line, matchedTokensOf entries, expected, found⟩ := by
  obtain ⟨first, last, rfl, houtdone, hlast, hempty, hpos⟩ := h.parted
  obtain ⟨failed, hmem, hfailed⟩ := hlast.exists_failure
  obtain ⟨expected, found, hroot⟩ :=
    Trace.exists_nearMiss? "orders" ⟨failed, List.mem_append_right first hmem, hfailed⟩
  rw [Trace.nearestMiss_eq, Trace.missesOf_failedRule, hroot, Option.toList_some, closestRule]
  cases before with
  | nil =>
    -- Here the root matched no more than the rule of the line, and of the two the later one counts.
    obtain rfl := hempty rfl
    cases hk : line.tokens.head?.bind Keyword.ofToken? with
    | none =>
      rw [hk] at hlast
      rw [List.nil_append, hlast.missesOf_none]
      exact ⟨expected, found, rfl⟩
    | some k =>
      rw [hk] at hlast
      obtain ⟨earlier, wanted, seen, later, hmisses, hlater⟩ := hlast.missesOf_some
      have hle : ∀ miss ∈ missesOf last, miss.matched ≤ matchedTokensOf last :=
        fun _ ↦ Trace.matched_le_of_mem_missesOf
      rw [hmisses] at hle
      refine ⟨wanted, seen, ?_⟩
      rw [List.nil_append, hmisses, ← List.append_assoc]
      refine Trace.closest_append_cons (List.forall_mem_append.mpr ⟨?_, ?_⟩) hlater
      · exact List.forall_mem_singleton.mpr (Nat.le_refl _)
      · exact (List.forall_mem_append.mp hle).1
  | cons part before =>
    -- The root matched the tokens of the lines before as well, so that nothing under it gets as far.
    rw [List.singleton_append]
    refine ⟨expected, found, @Trace.closest_append_cons [] _ _ (List.forall_mem_nil _) ?_⟩
    intro miss hmiss
    have hmatched := hpos (List.cons_ne_nil _ _)
    rw [Trace.missesOf_append] at hmiss
    dsimp only
    rw [Trace.matchedTokensOf_append]
    rcases List.mem_append.mp hmiss with hfirst | hmiss
    · exact Nat.lt_add_right _ (houtdone miss hfirst)
    · have hle := Trace.matched_le_of_mem_missesOf hmiss
      omega

end Grammar

/-! ### Rejections -/

/-- When a text is rejected, the closest rule counts all the tokens that the whole parse matched. It
is the rule of the keyword that the rejected line starts with only if that line is the first of the
file. After a line that was taken, or if there is no such keyword, it is the root rule. -/
theorem readText_nearestMiss {text : List Char} {emitTrace : Bool} {rejection : Rejection}
    (h : readText text ⟨true, emitTrace⟩ = .error rejection) :
    ∃ reading before line after trace miss,
      readText text ⟨false, emitTrace⟩ = .ok reading ∧
      reading.tree = node "orders" (before ++ line :: after) ∧
      (∀ part ∈ before, part.isRule "unknown" = false) ∧ line.isRule "unknown" = true ∧
      rejection.trace = some trace ∧ trace.nearestMiss = some miss ∧
      miss.matched = trace.matchedTokens ∧ miss.rule = Grammar.closestRule before line := by
  obtain ⟨reading, line, before, parts, f, entries, hreading, htree, hstops, htrace⟩ :=
    exists_stop h
  obtain ⟨after, rfl, hbefore, hline⟩ := hstops.split
  obtain ⟨expected, found, hmiss⟩ := hstops.nearestMiss
  refine ⟨reading, before, line, after ++ [leaf f], _, _, hreading, ?_, hbefore, hline, htrace,
    hmiss, ?_, rfl⟩
  · rw [htree, List.append_assoc, List.cons_append]
  · rw [Trace.matchedTokens]
    exact (Nat.zero_add _).symm

/-- A survey order and a bombard order that wants a percentage. -/
def brokenBombard : List Char :=
  "survey 1\nbombard 5 7 x\n".toList

/-- The bombard order matched three tokens, and the root rule is named with all six. -/
theorem readText_nearestMiss_brokenBombard :
    ∃ rejection trace miss, readText brokenBombard ⟨true, false⟩ = .error rejection ∧
      rejection.trace = some trace ∧ trace.nearestMiss = some miss ∧ miss.rule = "orders" ∧
      miss.matched = 6 := by
  have hcomputed : (match readText brokenBombard ⟨true, false⟩ with
      | .ok _ => none
      | .error rejection => rejection.trace.map Trace.matchedTokens) = some 6 := by
    decide +kernel
  have hknown : (readText brokenBombard ⟨false, false⟩).toOption.map
      (·.tree.children.map (·.isRule "unknown")) = some [false, true, false] := by
    decide +kernel
  cases hread : readText brokenBombard ⟨true, false⟩ with
  | ok reading =>
    rw [hread] at hcomputed
    cases hcomputed
  | error rejection =>
    obtain ⟨reading, before, line, after, trace, miss, hreading, htree, -, hline, htrace, hmiss,
      hmatched, hrule⟩ := readText_nearestMiss hread
    have hsix : trace.matchedTokens = 6 := by
      rw [hread] at hcomputed
      dsimp only at hcomputed
      rw [htrace] at hcomputed
      exact Option.some.inj hcomputed
    have hbefore : before.isEmpty = false := by
      rw [hreading] at hknown
      have hchildren : reading.tree.children.map (·.isRule "unknown") = [false, true, false] :=
        Option.some.inj hknown
      rw [htree] at hchildren
      cases before with
      | nil =>
        have hfirst : line.isRule "unknown" = false := (List.cons.inj hchildren).1
        rw [hline] at hfirst
        cases hfirst
      | cons => rfl
    refine ⟨rejection, trace, miss, rfl, htrace, hmiss, ?_, hmatched.trans hsix⟩
    rw [hrule, Grammar.closestRule, hbefore]
    rfl

end OrderFile
