import OrderFile.Proofs.Grammar.Noted
import OrderFile.Proofs.Reading.Modes
import OrderFile.Proofs.Reading.Recovery

/-!
Where reading stops. A file is rejected at the first line that is no order, which is the first
unknown line of the other reading, and the trace of the rejection holds what the lines before it
left and then what that line left (`exists_stop`).
-/

set_option autoImplicit false

namespace OrderFile

open OrderFile.Tree (leaf node tokensOf)

namespace Grammar

open Pattern
open Parse (Noted)

/-- A line that is taken in the one mode only is unknown. -/
theorem isRule_unknown_of_lineFront? {ts rest : List Token} {part : Tree}
    (htrue : lineFront? true ts = none) (hfalse : lineFront? false ts = some ([part], rest)) :
    part.isRule "unknown" = true := by
  by_contra hknown
  have hpart : ∀ tree ∈ [part], tree.isRule "unknown" = false := by
    intro tree htree
    obtain rfl := List.mem_singleton.mp htree
    exact Bool.eq_false_iff.mpr hknown
  rw [lineFront?_true_iff.mpr ⟨hfalse, hpart⟩] at htrue
  cases htrue

/-- How a parse that stops goes over lines: it takes the lines before one that is no order and stops
there. What it notes is what each of these lines leaves. -/
inductive Stops (line : Tree) : List Tree → List Tree → List Trace → Prop
  | here {after : List Tree} {entries : List Trace} (hline : line.isRule "unknown" = true)
      (h : StopNoted (line.tokens.head?.bind Keyword.ofToken?) entries) :
      Stops line [] (line :: after) entries
  | later {part : Tree} {before parts : List Tree} {entries others : List Trace}
      (hpart : part.isRule "unknown" = false) (h : LineNoted entries)
      (hothers : Stops line before parts others) :
      Stops line (part :: before) (part :: parts) (entries ++ others)

/-- The line at which reading stops is the first unknown one. -/
theorem Stops.split {line : Tree} {before parts : List Tree} {entries : List Trace}
    (h : Stops line before parts entries) :
    ∃ after, parts = before ++ line :: after ∧ (∀ part ∈ before, part.isRule "unknown" = false) ∧
      line.isRule "unknown" = true := by
  induction h with
  | @here after _ hline _ => exact ⟨after, rfl, List.forall_mem_nil _, hline⟩
  | later hpart _ _ ih =>
    obtain ⟨after, rfl, hbefore, hline⟩ := ih
    exact ⟨after, rfl, List.forall_mem_cons.mpr ⟨hpart, hbefore⟩, hline⟩

/-- A parse that stops among lines does so at the first one that the other mode finds unknown. -/
theorem lines_noted {n : Nat} {p : Parse} (hopen : p.frames ≠ []) (hfuel : p.rest.length < n)
    {parts : List Tree} {rest : List Token} (hlines : linesFront? false p.rest = some (parts, rest))
    (hfailure : (lines true n p).1 = false) :
    ∃ line before entries, Stops line before parts entries ∧
      Noted entries p (lines true n p).2 := by
  induction n generalizing p parts with
  | zero => omega
  | succ n ih =>
    rw [lines, sees_singleton] at hfailure ⊢
    by_cases heof : p.rest.head?.any (·.kind == .eof) = true
    · rw [if_pos heof] at hfailure
      cases hfailure
    rw [if_neg heof] at hfailure ⊢
    rw [linesFront?_of_not_eof heof] at hlines
    obtain ⟨first, middle, others, hline, hothers, rfl⟩ := andThen_eq_some hlines
    obtain ⟨part, -, rfl, -⟩ := part_of_lineFront? hline
    have hwhole := line_agreesWhole true hopen
    obtain ⟨entries, hentries, htaken, hstopped⟩ := line_noted hopen
    generalize line true p = result at hfailure hwhole hentries htaken hstopped ⊢
    obtain ⟨success, later⟩ := result
    -- The mode that stops reads this line or stops at it; what the other mode reads tells its tree.
    cases hread : lineFront? true p.rest with
    | none =>
      rw [hread] at hwhole
      obtain rfl : success = false := hwhole.1
      have hhead : p.next? = part.tokens.head? := by
        have hrest := lineFront?_append hline
        have hne := lineFront?_ne_nil hline
        rw [Tree.tokensOf_cons, Tree.tokensOf_nil, List.append_nil] at hrest hne
        rw [Parse.next?_eq, hrest, List.head?_append_of_ne_nil _ hne]
      rw [hhead] at hstopped
      have hunknown := isRule_unknown_of_lineFront? hread hline
      exact ⟨part, [], entries, .here hunknown (hstopped rfl), hentries⟩
    | some read =>
      obtain ⟨trees, after⟩ := read
      obtain ⟨hsame, hknown⟩ := lineFront?_true_iff.mp hread
      obtain ⟨rfl, rfl⟩ := Prod.mk.inj (Option.some.inj (hsame.symm.trans hline))
      rw [hread] at hwhole
      obtain ⟨hsuccess, hbare⟩ := hwhole
      obtain rfl : success = true := hsuccess
      have hlater := rest_of_took hbare (lineFront?_append hline)
      have hshorter := lineFront?_length_lt hline
      obtain ⟨line, before, noted, hstops, hnoted⟩ :=
        ih (hentries.frames_ne_nil hopen) (by rw [hlater]; omega) (hlater ▸ hothers) hfailure
      exact ⟨line, part :: before, entries ++ noted,
        .later (hknown part List.mem_cons_self) (htaken rfl) hstops, hentries.append hnoted⟩

/-- The trace of a file at which the parse stops. -/
theorem trace_orders_of_stop {ts : List Token} {parts : List Tree} {rest : List Token}
    (hlines : linesFront? false ts = some (parts, rest)) (hstop : linesFront? true ts = none) :
    ∃ line before entries, Stops line before parts entries ∧
      (orders true (Parse.start ts)).2.trace = some (.entry (.rule "orders" false) entries) := by
  have hfuel : ((Parse.start ts).enter "orders").rest.length <
      ((Parse.start ts).enter "orders").remaining + 1 := by
    rw [Parse.remaining_eq]
    omega
  have hrest : ((Parse.start ts).enter "orders").rest = ts := by
    rw [Parse.rest_enter, rest_start]
  have hopen : ((Parse.start ts).enter "orders").frames ≠ [] := List.cons_ne_nil _ _
  have hagrees := lines_agrees true _ _ hopen hfuel
  rw [hrest, hstop] at hagrees
  obtain ⟨hfailure, -⟩ := hagrees
  obtain ⟨line, before, entries, hstops, hnoted⟩ :=
    lines_noted hopen hfuel (hrest ▸ hlines) hfailure
  refine ⟨line, before, entries, hstops, ?_⟩
  rw [orders, Parse.within_eq]
  generalize lines true _ _ = result at hfailure hnoted ⊢
  obtain ⟨success, later⟩ := result
  obtain rfl : success = false := hfailure
  obtain ⟨children, hframes⟩ := hnoted _ [] rfl
  dsimp only at hframes ⊢
  rw [Parse.close, hframes]
  simp [Parse.closeRoot]

end Grammar

/-! ### Rejections -/

/-- A text that is rejected is read in the other mode, line by line. -/
theorem lines_of_rejection {text : List Char} {emitTrace : Bool} {rejection : Rejection}
    (h : readText text ⟨true, emitTrace⟩ = .error rejection) :
    ∃ reading parts f, readText text ⟨false, emitTrace⟩ = .ok reading ∧
      reading.tree = node "orders" (parts ++ [leaf f]) ∧
      Grammar.linesFront? false (Token.prepare (Token.scan text)) = some (parts, [f]) ∧
      Grammar.linesFront? true (Token.prepare (Token.scan text)) = none := by
  obtain ⟨hnone, rfl⟩ := readTokens_eq_error_iff.mp h
  obtain ⟨parts, f, hlines, hf⟩ := Grammar.linesFront?_of_ended (Token.prepare_scan_ended text)
  have htree := Grammar.fileTree?_of_linesFront? hlines hf
  obtain ⟨reading, hreading⟩ :=
    @exists_readTokens_of_fileTree? (Token.scan text) ⟨false, emitTrace⟩ _ htree
  have hread := (readTokens_eq_ok_iff.mp hreading).1
  refine ⟨reading, parts, f, hreading, Option.some.inj (hread.symm.trans htree), hlines, ?_⟩
  rw [Option.eq_none_iff_forall_ne_some]
  rintro ⟨lines, rest⟩ htrue
  have hsame := (Grammar.linesFront?_true_iff.mp htrue).1.symm.trans hlines
  cases hsame
  rw [Grammar.fileTree?_of_linesFront? htrue hf] at hnone
  cases hnone

/-- A text that is rejected is read in the other mode, and the trace of the rejection holds what the
parse left up to the first unknown line. -/
theorem exists_stop {text : List Char} {emitTrace : Bool} {rejection : Rejection}
    (h : readText text ⟨true, emitTrace⟩ = .error rejection) :
    ∃ reading line before parts f entries,
      readText text ⟨false, emitTrace⟩ = .ok reading ∧
      reading.tree = node "orders" (parts ++ [leaf f]) ∧
      Grammar.Stops line before parts entries ∧
      rejection.trace = some (.entry (.rule "orders" false) entries) := by
  obtain ⟨reading, parts, f, hreading, htree, hlines, hstop⟩ := lines_of_rejection h
  obtain ⟨line, before, entries, hstops, hentries⟩ := Grammar.trace_orders_of_stop hlines hstop
  obtain ⟨-, rfl⟩ := readTokens_eq_error_iff.mp h
  exact ⟨reading, line, before, parts, f, entries, hreading, htree, hstops, hentries⟩

end OrderFile
