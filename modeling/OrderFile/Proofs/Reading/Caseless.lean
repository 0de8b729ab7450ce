import OrderFile.Proofs.Reading.Reworded
import OrderFile.Proofs.Token.Caseless

/-!
Files that differ in the case of letters. A file and the file in lower case come to the same, with
the free texts of the orders in lower case, so two files that are one file in lower case come to the
same, up to the case of letters in their free texts: `readText_caseless`.
-/

set_option autoImplicit false

namespace OrderFile

/-! ### Free texts -/

/-- Two words in a row are in lower case if each of them is. -/
theorem lowercase_append (first second : String) :
    lowercase (first ++ second) = lowercase first ++ lowercase second := by
  simp [lowercase, String.toList_append, String.ofList_append]

theorem lowercase_intercalate (words : List String) :
    lowercase (String.intercalate " " words) = String.intercalate " " (words.map lowercase) := by
  induction words with
  | nil => rfl
  | cons word words ih =>
    cases words with
    | nil => simp
    | cons other words =>
      rw [String.intercalate_cons_cons, lowercase_append, lowercase_append, ih, List.map_cons,
        List.map_cons, List.map_cons, String.intercalate_cons_cons]
      rfl

/-- Tokens in lower case tell the same, with their texts in lower case. -/
theorem Token.retells_lower : Retells lower lowercase id where
  toRewords := rewords_lower
  line _ := rfl
  number? := number?_mapText lowercase
  material t _ := by
    rw [Command.materialOf, Command.materialOf, lower, material?_mapText]
    exact congrArg (fun name ↦ t.material?.getD ⟨name, none⟩) (lowercase_lowercase t.lexeme)
  text? t _ := text?_mapText lowercase t
  said_empty := rfl

/-- The text of a line that is no order is told in lower case. -/
theorem Order.unknownText_lower (tree : Tree) :
    unknownText (tree.map Token.lower) = lowercase (unknownText tree) := by
  rw [unknownText_map Token.retells_lower, unknownText, lowercase_intercalate, List.map_map,
    List.map_map]
  rfl

/-- A text and the text in lower case come to the same, with the free texts in lower case. -/
theorem readText_lower (text : List Char) (options : Options) :
    SameOutcome (fun order other ↦ other = order.retell lowercase id) (readText text options)
      (readText (text.map Char.toLower) options) := by
  refine readTokens_map Token.retells_lower ?_ options fun _ _ part _ _ ↦
    Order.unknownText_lower part
  rw [Token.scan_toLower, Token.rewords_lower.prepare_map]

/-- Two texts that differ in the case of letters at most fail at one place, or come to orders on the
same lines, with the same values and the same complaints, and with free texts that differ in the case
of letters at most. -/
theorem readText_caseless {first second : List Char}
    (h : first.map Char.toLower = second.map Char.toLower) (options : Options) :
    SameOutcome (Order.SameButTexts fun text other ↦ lowercase text = lowercase other)
      (readText first options) (readText second options) := by
  have hfirst := readText_lower first options
  have hsecond := readText_lower second options
  rw [← h] at hsecond
  refine hfirst.trans (hsecond.symm id) fun horder hother ↦ ?_
  exact Order.sameButTexts_of_retell_eq (horder.symm.trans hother)

/-- Orders with an alias, a quoted text, a group and a level, and a line that is no order. -/
def loudFile : List Char :=
  "BUY 2 SU-3 4 5.5\nName 1 \"Port Arthur\"\nASSEMBLE 9 DP-7 3 Tl-1\nOops\n".toList

/-- The same in other cases. -/
def quietFile : List Char :=
  "buy 2 su-3 4 5.5\nnAME 1 \"port arthur\"\nassemble 9 dp-7 3 tL-1\nOOPS\n".toList

theorem readText_caseless_loudFile :
    (readText loudFile ⟨false, false⟩).toOption.map (·.orders.map (·.isUnknown)) =
        some [false, false, false, true] ∧
      loudFile.map Char.toLower = quietFile.map Char.toLower ∧
      SameOutcome (Order.SameButTexts fun text other ↦ lowercase text = lowercase other)
        (readText loudFile ⟨false, false⟩) (readText quietFile ⟨false, false⟩) := by
  have hsame : loudFile.map Char.toLower = quietFile.map Char.toLower := by decide +kernel
  exact ⟨by decide +kernel, hsame, readText_caseless hsame ⟨false, false⟩⟩

end OrderFile
