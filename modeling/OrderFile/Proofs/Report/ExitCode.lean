import OrderFile.CommandLine
import OrderFile.Proofs.Reading.Modes
import OrderFile.Proofs.Reading.Recovery

/-!
The exit status of a check. A file is clean exactly if all of its lines are orders and nothing is
wrong with them, and whether it is does not depend on how it is read: `check_isClean_iff` says it
of the tokens of the file alone. So two checks of one file never differ in their exit status.
-/

set_option autoImplicit false

namespace OrderFile

/-- A reading is clean if nothing is wrong with its orders and none of them is unknown. -/
theorem Reading.isClean_iff (reading : Reading) :
    reading.isClean = true ↔
      reading.errors = [] ∧ ∀ order ∈ reading.orders, order.isUnknown = false := by
  rw [isClean, Bool.and_eq_true, List.isEmpty_iff, Bool.not_eq_true', List.any_eq_false]
  simp only [Bool.not_eq_true]

namespace Grammar

/-- A file that is read to its end by reading that stops is read in the same way in either mode. -/
theorem fileTree?_of_stopping {ts : List Token} {tree : Tree} (h : fileTree? true ts = some tree)
    (stop : Bool) : fileTree? stop ts = some tree := by
  cases stop with
  | true => exact h
  | false =>
    obtain ⟨parts, f, -, -, -, rfl⟩ := linesFront?_of_fileTree? h
    exact (fileTree?_true_iff.mp h).1

end Grammar

namespace Report

/-- The name of the source is all that a check adds to a reading. -/
theorem check_isClean_iff_reading (source : String) (bytes : List UInt8) (options : Options)
    (showTrace : Bool) :
    (check source bytes options showTrace).isClean = true ↔
      ∃ reading, readBytes bytes options = .ok reading ∧ reading.isClean = true := by
  rw [isClean, check]
  cases readBytes bytes options with
  | error rejection => simp [Except.mapError]
  | ok reading => simp [Except.mapError]

/-- A file is clean exactly if reading that stops at the first line that is no order takes all of
it and finds nothing wrong. Nothing else that a check is given has a part in it. -/
theorem check_isClean_iff (source : String) (bytes : List UInt8) (options : Options)
    (showTrace : Bool) :
    (check source bytes options showTrace).isClean = true ↔
      ∃ tree, Grammar.fileTree? true (Token.prepare (Token.ofBytes bytes)) = some tree ∧
        (Order.allOfTree tree).2 = [] := by
  rw [check_isClean_iff_reading]
  constructor
  · rintro ⟨reading, hread, hclean⟩
    obtain ⟨herrors, hknown⟩ := reading.isClean_iff.mp hclean
    obtain ⟨htree, hall, -⟩ := readTokens_eq_ok_iff.mp hread
    have hstopping :
        Grammar.fileTree? true (Token.prepare (Token.ofBytes bytes)) = some reading.tree := by
      cases hstop : options.stopOnFirstError with
      | true => rwa [hstop] at htree
      | false =>
        rw [hstop] at htree
        exact (Order.fileTree?_true_iff_of_reading hread).mpr ⟨htree, hknown⟩
    exact ⟨reading.tree, hstopping, by rw [hall, herrors]⟩
  · rintro ⟨tree, hstopping, herrors⟩
    have htree := Grammar.fileTree?_of_stopping hstopping options.stopOnFirstError
    obtain ⟨reading, hread⟩ := exists_readTokens_of_fileTree? htree
    obtain ⟨hown, hall, -⟩ := readTokens_eq_ok_iff.mp hread
    obtain rfl : reading.tree = tree := Option.some.inj (hown.symm.trans htree)
    have hknown := ((Order.fileTree?_true_iff_of_reading hread).mp hstopping).2
    refine ⟨reading, hread, reading.isClean_iff.mpr ⟨?_, hknown⟩⟩
    rw [← herrors, hall]

/-- The exit status of a report is zero exactly if the report is clean. -/
theorem exitCode_eq_zero_iff (report : Report) : report.exitCode = 0 ↔ report.isClean = true := by
  rw [exitCode]
  split <;> simp_all

/-- Two checks of one file have the same exit status, whatever the name of the source, the options
and the trace to be shown. -/
theorem check_exitCode_eq (bytes : List UInt8) (source other : String) (options others : Options)
    (showTrace showOther : Bool) :
    (check source bytes options showTrace).exitCode =
      (check other bytes others showOther).exitCode := by
  have hsame : (check source bytes options showTrace).isClean =
      (check other bytes others showOther).isClean := by
    rw [Bool.eq_iff_iff, check_isClean_iff, check_isClean_iff]
  rw [exitCode, exitCode, hsame]

end Report

/-- Recovery, a trace and the format of the report make no difference to the exit status of the
command line, whatever reads its settings. -/
theorem CommandLine.exit_runCheck [Toml.Parser] (files : Files) (environment : Option String)
    (command : CheckCommand) (recover trace : Bool) (format : OutputFormat) :
    (runCheck files environment { command with recover, trace, format }).exit =
      (runCheck files environment command).exit := by
  rw [runCheck, runCheck]
  cases Settings.load files command.config environment with
  | error problem => rfl
  | ok settings =>
    dsimp only
    rw [Report.checkFile, Report.checkFile]
    cases files command.file with
    | error reason => rfl
    | ok bytes =>
      dsimp only
      rw [Report.check_exitCode_eq]

/-- The exit status of a check depends on the bytes of the file alone: it is zero exactly if reading
that stops at the first line that is no order takes all of them and finds nothing wrong. So neither
the name of the source nor the mode nor a trace makes a difference, and the flags of the command
line for them make none, whatever reads its settings. -/
theorem Report.exitCode_check (bytes : List UInt8) :
    (∀ source other options others showTrace showOther,
        (check source bytes options showTrace).exitCode =
          (check other bytes others showOther).exitCode) ∧
      (∀ source options showTrace, (check source bytes options showTrace).exitCode = 0 ↔
        ∃ reading, readBytes bytes .standard = .ok reading ∧ reading.errors = []) ∧
      ∀ [Toml.Parser] files environment command recover trace format,
        (CommandLine.runCheck files environment { command with recover, trace, format }).exit =
          (CommandLine.runCheck files environment command).exit := by
  refine ⟨check_exitCode_eq bytes, fun source options showTrace ↦ ?_, CommandLine.exit_runCheck⟩
  rw [exitCode_eq_zero_iff, check_isClean_iff]
  constructor
  · rintro ⟨tree, htree, herrors⟩
    obtain ⟨reading, hread⟩ := @exists_readTokens_of_fileTree? _ .standard _ htree
    obtain ⟨hown, hall, -⟩ := readTokens_eq_ok_iff.mp hread
    obtain rfl : reading.tree = tree := Option.some.inj (hown.symm.trans htree)
    exact ⟨reading, hread, by rw [← herrors, hall]⟩
  · rintro ⟨reading, hread, herrors⟩
    obtain ⟨htree, hall, -⟩ := readTokens_eq_ok_iff.mp hread
    exact ⟨reading.tree, htree, by rw [hall, herrors]⟩

end OrderFile
