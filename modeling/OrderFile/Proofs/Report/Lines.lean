import OrderFile.Proofs.Order.OneLine
import OrderFile.Proofs.Parse.OneLine
import OrderFile.Proofs.Reading.NearMiss
import OrderFile.Proofs.Reading.Printed
import OrderFile.Proofs.Reading.Rejected
import OrderFile.Report

/-!
The lines of a report. Whatever a file holds, nothing in it ends a line of the report or adds one:
the text of a report consists of one line for each thing there is to say (`check_lines`).
-/

set_option autoImplicit false

namespace OrderFile

open OrderFile.Tree (tokensOf)

/-! ### Orders and complaints -/

/-- An order that was read is shown on one line. -/
theorem Order.oneLine_display {order : Order} (h : order.WasRead) : OneLine order.display := by
  refine oneLine_append_iff.mpr ⟨oneLine_append_iff.mpr ⟨oneLine_toString_uint32 _, by decide⟩, ?_⟩
  cases hknown : order.command.keyword?.isSome with
  | true =>
    obtain ⟨-, children, hwritten, hsuited⟩ := h.exists_written hknown
    exact Command.oneLine_of_written hwritten hsuited
  | false =>
    cases hcommand : order.command with
    | unknown text => exact Command.oneLine_display nofun
    | _ =>
      rw [hcommand] at hknown
      cases hknown

/-- What is wrong with the values of a file is said on one line each. -/
theorem oneLine_message_of_mem {tokens : List Token} {options : Options} {reading : Reading}
    (h : readTokens tokens options = .ok reading) : ∀ c ∈ reading.errors, OneLine c.message := by
  obtain ⟨parts, orders?, f, -, -, hparts, horders, herrors⟩ := Order.parts_of_reading h
  intro c hc
  rw [herrors, List.mem_flatMap] at hc
  obtain ⟨order, horder, hc⟩ := hc
  rw [horders, List.reduceOption_mem_iff] at horder
  rw [Order.errors_of_parts hparts horder] at hc
  exact Command.oneLine_message_of_mem hc

/-! ### Rejections -/

namespace Grammar

theorem oneLine_ruleNames : ∀ name ∈ ruleNames, OneLine name := by
  decide

/-- What the parse of a text could say is on one line. -/
theorem isOneLine_orders (stop : Bool) (text : List Char) :
    (orders stop (Parse.start (Token.prepare (Token.scan text)))).2.IsOneLine := by
  refine keeps_orders (Parse.keeps_isOneLine oneLine_ruleNames) stop (Parse.isOneLine_start ?_)
  exact fun t ht ↦ oneLine_token (Token.oneLine_of_mem_scanFrom (Token.mem_of_mem_prepare ht))

/-- The root rule is open wherever a line is to blame. -/
theorem Blame.rules_ne_nil {ts : List Token} {start : Nat} {rules : List String}
    {miss : Parse.Miss} (h : Blame ts start rules miss) (hrules : rules ≠ []) :
    miss.rules ≠ [] := by
  cases h with
  | lineEnd => exact hrules
  | inOrder _ _ hsuffix =>
    intro hnil
    rw [hnil] at hsuffix
    exact List.cons_ne_nil _ _ (List.suffix_nil.mp hsuffix)

end Grammar

section

variable {text : List Char} {options : Options} {rejection : Rejection}

/-- Only reading that stops at the first line that is no order rejects a file. -/
theorem stops_of_rejection (h : readText text options = .error rejection) :
    options = ⟨true, options.emitTrace⟩ := by
  obtain ⟨stop, emitTrace⟩ := options
  cases stop with
  | true => rfl
  | false =>
    obtain ⟨reading, hreading⟩ := exists_recovered text emitTrace
    rw [hreading] at h
    cases h

/-- A rejection is told on one line, and so are the rules that were open and the rule that came
closest. -/
theorem isOneLine_of_rejection (h : readText text options = .error rejection) :
    rejection.fault.IsOneLine ∧ ∀ trace ∈ rejection.trace, trace.IsOneLine := by
  have hparse : (parseTokens (Token.scan text) options).IsOneLine :=
    Grammar.isOneLine_orders options.stopOnFirstError text
  obtain ⟨-, rfl⟩ := readTokens_eq_error_iff.mp h
  refine ⟨?_, hparse.trace⟩
  cases hfault : (parseTokens (Token.scan text) options).fault with
  | none =>
    exact Fault.isOneLine_of_message (Fault.oneLine_unexpected (by decide) (by decide) none)
  | some fault => exact hparse.fault fault hfault

/-- A rejection is for a line, inside some rules, and there is a rule that came closest. -/
theorem exists_place_of_rejection (h : readText text options = .error rejection) :
    ∃ line rules miss, rejection.fault.context = some ⟨none, some line, rules⟩ ∧ rules ≠ [] ∧
      rejection.trace.bind Trace.nearestMiss = some miss := by
  rw [stops_of_rejection h] at h
  obtain ⟨_, _, _, _, _, miss, -, -, -, -, -, -, hblame, hfault, -⟩ := exists_blame h
  obtain ⟨_, _, _, _, _, _, -, -, hstops, htrace⟩ := exists_stop h
  obtain ⟨expected, found, hnearest⟩ := hstops.nearestMiss
  obtain ⟨closest, hclosest⟩ :
      ∃ closest, rejection.trace.bind Trace.nearestMiss = some closest := by
    rw [htrace]
    exact ⟨_, hnearest⟩
  exact ⟨_, miss.rules, closest, by rw [hfault]; rfl, hblame.rules_ne_nil (List.cons_ne_nil _ _),
    hclosest⟩

end

namespace Report

/-! ### Lines -/

/-- The lines about a file that was read. -/
def readingLines (source : String) (reading : Reading) : List String :=
  reading.orders.map Order.display ++ reading.errors.map ("error: " ++ ·.message) ++
    (if reading.unknownLines.isEmpty then []
      else
        ["unrecognized lines: " ++ String.intercalate ", " (reading.unknownLines.map toString)]) ++
    [summary source reading]

/-- The lines about a file that was rejected on a line, inside the given rules. -/
def rejectionLines (source message : String) (line : Nat) (rules : List String)
    (miss : Trace.NearMiss) : List String :=
  [source ++ ": " ++ message, "at " ++ source ++ ":" ++ toString line] ++
    rules.map ("  in " ++ ·) ++ ["hint: " ++ miss.display]

section

variable {source : String}

theorem isEmpty_unknownLines (reading : Reading) :
    reading.unknownLines.isEmpty = !reading.orders.any Order.isUnknown := by
  rw [Reading.unknownLines, List.isEmpty_map, Bool.eq_iff_iff, List.isEmpty_iff,
    List.filter_eq_nil_iff, Bool.not_eq_true', List.any_eq_false]

/-- A reading has a line for each order and each complaint, one for the unknown orders if there are
any, and the summary. -/
theorem length_readingLines (source : String) (reading : Reading) :
    (readingLines source reading).length = reading.orders.length + reading.errors.length +
      (if reading.orders.any Order.isUnknown then 1 else 0) + 1 := by
  rw [readingLines, isEmpty_unknownLines, List.length_append, List.length_append,
    List.length_append, List.length_map, List.length_map, List.length_singleton]
  cases reading.orders.any Order.isUnknown <;> rfl

theorem oneLine_summary (hsource : OneLine source) (reading : Reading) :
    OneLine (summary source reading) := by
  unfold summary
  simp only [oneLine_append_iff, hsource, oneLine_toString_nat, and_true]
  decide

/-- Every line about a reading is on one line. -/
theorem oneLine_of_mem_readingLines (hsource : OneLine source) {bytes : List UInt8}
    {options : Options} {reading : Reading} (h : readBytes bytes options = .ok reading) :
    ∀ line ∈ readingLines source reading, OneLine line := by
  have hcolon : OneLine "error: " := by decide
  have hunknown : OneLine ("unrecognized lines: " ++
      String.intercalate ", " (reading.unknownLines.map toString)) := by
    refine oneLine_append_iff.mpr ⟨by decide, oneLine_intercalate (by decide) ?_⟩
    exact List.forall_mem_map.mpr fun line _ ↦ oneLine_toString_uint32 line
  rw [readingLines, List.forall_mem_append, List.forall_mem_append, List.forall_mem_append,
    List.forall_mem_map, List.forall_mem_map, List.forall_mem_singleton]
  refine ⟨⟨⟨fun order horder ↦ ?_, fun c hc ↦ ?_⟩, ?_⟩, oneLine_summary hsource reading⟩
  · exact Order.oneLine_display ⟨bytes, options, reading, h, horder⟩
  · exact oneLine_append_iff.mpr ⟨hcolon, oneLine_message_of_mem h c hc⟩
  · split
    · exact List.forall_mem_nil _
    · exact List.forall_mem_singleton.mpr hunknown

/-- The text about a file that was read consists of its lines. -/
theorem readingText_eq (source : String) (reading : Reading) :
    readingText source false reading = linesText (readingLines source reading) := by
  have hunknown (none : Bool) (line : String) :
      linesText (if none then [] else [line]) = if none then "" else line ++ "\n" := by
    cases none with
    | true => rfl
    | false => exact linesText_singleton line
  rw [readingLines, linesText_append, linesText_append, linesText_append, linesText_map,
    linesText_map, linesText_singleton, hunknown]
  exact String.append_empty

/-- Where a fault is takes a line for the place and one for each rule around it. -/
theorem display_context (source : String) (line : Nat) {rules : List String} (hne : rules ≠ []) :
    Fault.Context.display ⟨some source, some line, rules⟩ =
      linesText (("at " ++ source ++ ":" ++ toString line) :: rules.map ("  in " ++ ·)) := by
  rw [Fault.Context.display, if_neg (by simpa using hne), linesText_cons, linesText_map]
  simp only [String.append_assoc]

/-- The text about a file that was rejected consists of its lines. -/
theorem rejectionText_eq {rejection : Rejection} {line : Nat} {rules : List String}
    {miss : Trace.NearMiss}
    (hcontext : rejection.fault.context = some ⟨some source, some line, rules⟩) (hne : rules ≠ [])
    (hmiss : rejection.trace.bind Trace.nearestMiss = some miss) :
    rejectionText source false rejection =
      linesText (rejectionLines source rejection.fault.message line rules miss) := by
  obtain ⟨trace, htrace, hnearest⟩ := Option.bind_eq_some_iff.mp hmiss
  rw [rejectionText, hcontext, htrace, Option.elim_some, Option.elim_some, hnearest,
    Option.elim_some, display_context source line hne, rejectionLines,
    linesText_append, linesText_singleton, List.cons_append, List.singleton_append,
    linesText_cons (source ++ ": " ++ rejection.fault.message), if_neg Bool.false_ne_true,
    String.append_empty]
  rfl

/-- A rejection has a line for its message, its place and its hint, and one for each rule. -/
theorem length_rejectionLines (source message : String) (line : Nat) (rules : List String)
    (miss : Trace.NearMiss) :
    (rejectionLines source message line rules miss).length = 3 + rules.length := by
  rw [rejectionLines, List.length_append, List.length_append, List.length_map, List.length_cons,
    List.length_singleton, List.length_singleton]
  omega

/-- Every line about a rejection is on one line, if what it names is. -/
theorem oneLine_of_mem_rejectionLines (hsource : OneLine source) {message : String}
    (hmessage : OneLine message) (line : Nat) {rules : List String}
    (hrules : ∀ rule ∈ rules, OneLine rule) {miss : Trace.NearMiss} (hmiss : OneLine miss.display) :
    ∀ text ∈ rejectionLines source message line rules miss, OneLine text := by
  have hcolon : OneLine ": " := by decide
  have hat : OneLine "at " := by decide
  have hmark : OneLine ":" := by decide
  have hin : OneLine "  in " := by decide
  have hhint : OneLine "hint: " := by decide
  rw [rejectionLines, List.forall_mem_append, List.forall_mem_append, List.forall_mem_map,
    List.forall_mem_cons, List.forall_mem_singleton, List.forall_mem_singleton]
  simp only [oneLine_append_iff, oneLine_toString_nat, hsource, hmessage, hmiss, hcolon, hat,
    hmark, hin, hhint, and_self, true_and, and_true]
  exact hrules

/-! ### Texts -/

variable {bytes : List UInt8} {options : Options}

theorem outcome_check_of_ok {reading : Reading} (h : readBytes bytes options = .ok reading)
    (source : String) : (check source bytes options false).outcome = .ok reading := by
  rw [check, h]
  rfl

/-- A check of a rejected file adds the name of the source to the fault. -/
theorem outcome_check_of_error {own : Rejection} (h : readBytes bytes options = .error own)
    (source : String) : (check source bytes options false).outcome =
      .error { own with fault := own.fault.withSource source } := by
  rw [check, h]
  rfl

theorem context_withSource {fault : Fault} {line : Nat} {rules : List String}
    (h : fault.context = some ⟨none, some line, rules⟩) (source : String) :
    (fault.withSource source).context = some ⟨some source, some line, rules⟩ := by
  rw [Fault.withSource, h]
  rfl

/-- The text about a file that is read consists of the lines about its reading. -/
theorem consistsOf_readingLines (hsource : OneLine source) {reading : Reading}
    (h : readBytes bytes options = .ok reading) :
    ConsistsOf (check source bytes options false).text (readingLines source reading) := by
  refine ⟨?_, oneLine_of_mem_readingLines hsource h⟩
  rw [text, outcome_check_of_ok h source]
  exact readingText_eq source reading

/-- The text about a rejected file consists of the lines about its rejection. -/
theorem consistsOf_rejectionLines (hsource : OneLine source) {own : Rejection}
    (h : readBytes bytes options = .error own) :
    ∃ rejection line rules miss,
      (check source bytes options false).outcome = .error rejection ∧
        rejection.fault.context = some ⟨some source, some line, rules⟩ ∧
        rejection.trace.bind Trace.nearestMiss = some miss ∧
        ConsistsOf (check source bytes options false).text
          (rejectionLines source rejection.fault.message line rules miss) := by
  obtain ⟨⟨hmessage, hrules⟩, htrace⟩ := isOneLine_of_rejection h
  obtain ⟨line, rules, miss, hcontext, hne, hmiss⟩ := exists_place_of_rejection h
  have houtcome := outcome_check_of_error h source
  have hplace := context_withSource hcontext source
  obtain ⟨trace, hown, hnearest⟩ := Option.bind_eq_some_iff.mp hmiss
  have hhint := Trace.oneLine_of_nearestMiss (htrace trace hown) hnearest
  refine ⟨_, line, rules, miss, houtcome, hplace, hmiss, ?_, ?_⟩
  · rw [text, houtcome]
    exact rejectionText_eq hplace hne hmiss
  · exact oneLine_of_mem_rejectionLines hsource hmessage line (hrules _ hcontext) hhint

end

/-- Nothing in a file adds a line to a report without a trace or breaks one. About a file that is
read there is a line for each order and for each thing that is wrong with one, a line for all
unknown lines if there are any and a line with the counts. About a file that is rejected there is
the message, the position, a line for each rule that was open and always a hint. -/
theorem check_lines {source : String} (hsource : '\n' ∉ source.toList) (bytes : List UInt8)
    (options : Options) :
    (check source bytes options false).text.toList.getLast? = some '\n' ∧
      (∀ reading, (check source bytes options false).outcome = .ok reading →
        ConsistsOf (check source bytes options false).text (readingLines source reading) ∧
          (check source bytes options false).text.toList.count '\n' =
            reading.orders.length + reading.errors.length +
              (if reading.orders.any Order.isUnknown then 1 else 0) + 1) ∧
      ∀ rejection, (check source bytes options false).outcome = .error rejection →
        ∃ line rules miss,
          rejection.fault.context = some ⟨some source, some line, rules⟩ ∧
            rejection.trace.bind Trace.nearestMiss = some miss ∧
            ConsistsOf (check source bytes options false).text
              (rejectionLines source rejection.fault.message line rules miss) ∧
            (check source bytes options false).text.toList.count '\n' = 3 + rules.length := by
  cases hread : readBytes bytes options with
  | ok reading =>
    have houtcome := outcome_check_of_ok hread source
    have hlines := consistsOf_readingLines hsource hread
    have hcount := hlines.count_newline.trans (length_readingLines source reading)
    have hend := hlines.getLast?_eq (by simp [readingLines])
    refine ⟨hend, fun other hother ↦ ?_, fun rejection h ↦ ?_⟩
    · obtain rfl := Except.ok.inj (houtcome.symm.trans hother)
      exact ⟨hlines, hcount⟩
    · cases houtcome.symm.trans h
  | error own =>
    obtain ⟨rejection, line, rules, miss, houtcome, hcontext, hmiss, hlines⟩ :=
      consistsOf_rejectionLines hsource hread
    have hcount := hlines.count_newline.trans
      (length_rejectionLines source rejection.fault.message line rules miss)
    have hend := hlines.getLast?_eq (by simp [rejectionLines])
    refine ⟨hend, fun reading h ↦ ?_, fun other hother ↦ ?_⟩
    · cases houtcome.symm.trans h
    · obtain rfl := Except.error.inj (houtcome.symm.trans hother)
      exact ⟨line, rules, miss, hcontext, hmiss, hlines, hcount⟩

/-- A name with a quote that is not closed, a quoted text where a number should be and a number that
is out of range. -/
def forgedFile : List UInt8 :=
  "name 7 \"ship\\\"\nsurvey \"hint: 4\"\nsurvey -3\n".toList.map (UInt8.ofNat ·.toNat)

/-- Three orders, one complaint and one unknown line are six lines, and so is a rejection inside
three rules. -/
theorem check_lines_forgedFile :
    (check "orders.txt" forgedFile ⟨false, false⟩ false).text.toList.count '\n' = 6 ∧
      ∃ rejection, (check "orders.txt" forgedFile ⟨true, false⟩ false).outcome = .error rejection ∧
        rejection.fault.context = some ⟨some "orders.txt", some 2, ["survey", "order", "orders"]⟩ ∧
        (check "orders.txt" forgedFile ⟨true, false⟩ false).text.toList.count '\n' = 6 := by
  have hsource : '\n' ∉ "orders.txt".toList := by decide
  have hread : (readBytes forgedFile ⟨false, false⟩).toOption.map (fun reading ↦
      (reading.orders.length, reading.errors.length, reading.orders.any Order.isUnknown)) =
        some (3, 1, true) := by decide +kernel
  have hrejected : ((readBytes forgedFile ⟨true, false⟩).mapError (·.fault.context)).map
      (fun _ ↦ ()) = .error (some ⟨none, some 2, ["survey", "order", "orders"]⟩) := by
    decide +kernel
  obtain ⟨-, hlines, -⟩ := check_lines hsource forgedFile ⟨false, false⟩
  obtain ⟨-, -, hplace⟩ := check_lines hsource forgedFile ⟨true, false⟩
  constructor
  · cases hreading : readBytes forgedFile ⟨false, false⟩ with
    | error own =>
      rw [hreading] at hread
      cases hread
    | ok reading =>
      rw [hreading] at hread
      obtain ⟨horders, hcounts⟩ := Prod.mk.inj (Option.some.inj hread)
      obtain ⟨herrors, hunknown⟩ := Prod.mk.inj hcounts
      have hcount := (hlines reading (outcome_check_of_ok hreading _)).2
      rw [horders, herrors, hunknown] at hcount
      exact hcount
  · cases hreading : readBytes forgedFile ⟨true, false⟩ with
    | ok reading =>
      rw [hreading] at hrejected
      cases hrejected
    | error own =>
      rw [hreading] at hrejected
      have hcontext : own.fault.context = some ⟨none, some 2, ["survey", "order", "orders"]⟩ :=
        Except.error.inj hrejected
      have houtcome := outcome_check_of_error hreading "orders.txt"
      have hwhole := context_withSource hcontext "orders.txt"
      obtain ⟨line, rules, miss, htold, -, -, hcount⟩ := hplace _ houtcome
      obtain ⟨-, -, rfl⟩ := Fault.Context.mk.inj (Option.some.inj (hwhole.symm.trans htold))
      exact ⟨_, houtcome, hwhole, hcount⟩

end Report

end OrderFile
