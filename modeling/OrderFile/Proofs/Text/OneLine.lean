import OrderFile.Proofs.Decimal.Digits
import OrderFile.Text.Quoted

/-!
Texts without line ends. What is put together from such texts has none either, numbers and quoted
texts have none whatever they say, and a text that consists of such lines has as many line ends as
lines: `ConsistsOf.count_newline`.
-/

set_option autoImplicit false

namespace OrderFile

/-- Whether a text has no line end. -/
def OneLine (text : String) : Prop :=
  '\n' ∉ text.toList

instance (text : String) : Decidable (OneLine text) :=
  inferInstanceAs (Decidable (¬ _))

section

variable {first second separator : String} {words : List String}

/-- A text in two parts is on one line exactly if both parts are. -/
@[simp] theorem oneLine_append_iff :
    OneLine (first ++ second) ↔ OneLine first ∧ OneLine second := by
  rw [OneLine, String.toList_append, List.mem_append, not_or]
  rfl

/-- Texts on one line each, put together with a separator that is on one line, are on one line. -/
theorem oneLine_intercalate (hseparator : OneLine separator) (h : ∀ word ∈ words, OneLine word) :
    OneLine (String.intercalate separator words) := by
  induction words with
  | nil =>
    rw [String.intercalate_nil]
    exact List.not_mem_nil
  | cons word words ih =>
    obtain ⟨hword, hothers⟩ := List.forall_mem_cons.mp h
    cases words with
    | nil => rwa [String.intercalate_singleton]
    | cons other words =>
      rw [String.intercalate_cons_cons, oneLine_append_iff, oneLine_append_iff]
      exact ⟨⟨hword, hseparator⟩, ih hothers⟩

end

/-! ### Numbers -/

theorem digitChar_ne_newline : ∀ d < 16, Nat.digitChar d ≠ '\n' := by
  decide

/-- No base up to sixteen has a newline for a digit. -/
theorem newline_not_mem_toDigits {base : Nat} (hone : 1 < base) (hbase : base ≤ 16) (n : Nat) :
    '\n' ∉ Nat.toDigits base n := by
  induction n using Nat.strongRecOn with
  | ind n ih =>
    have hlast {d : Nat} (hd : d < base) : '\n' ∉ [d.digitChar] := fun hmem ↦
      digitChar_ne_newline d (Nat.lt_of_lt_of_le hd hbase) (List.mem_singleton.mp hmem).symm
    rw [Nat.toDigits_eq_if hone]
    split
    · next hlt => exact hlast hlt
    · next hle =>
      rw [List.mem_append, not_or]
      have hpos : 0 < n := by omega
      exact ⟨ih _ (Nat.div_lt_self hpos hone), hlast (Nat.mod_lt n (by omega))⟩

@[simp] theorem oneLine_toString_nat (n : Nat) : OneLine (toString n) := by
  have hrepr : toString n = n.repr := rfl
  rw [OneLine, hrepr, Nat.toList_repr]
  exact newline_not_mem_toDigits (by decide) (by decide) n

@[simp] theorem oneLine_toString_uint32 (n : UInt32) : OneLine (toString n) :=
  oneLine_toString_nat n.toNat

@[simp] theorem oneLine_toString_int64 (n : Int64) : OneLine (toString n) := by
  rw [OneLine, toList_toString, signOf, List.mem_append, not_or]
  refine ⟨?_, newline_not_mem_toDigits (by decide) (by decide) _⟩
  split <;> decide

/-! ### Quoted texts -/

theorem newline_not_mem_codePoint (c : Char) : '\n' ∉ Quoted.codePoint c := by
  rw [Quoted.codePoint, List.mem_append, List.mem_append, not_or, not_or]
  exact ⟨⟨by decide, newline_not_mem_toDigits (by decide) (Nat.le_refl 16) _⟩, by decide⟩

/-- A line end is written as an escape, and no other character is written with one. -/
theorem newline_not_mem_escape (c : Char) : '\n' ∉ Quoted.escape c := by
  unfold Quoted.escape
  split
  · decide
  split
  · decide
  split
  · decide
  split
  · decide
  next hline =>
  split
  · next hmark => rcases hmark with rfl | rfl <;> decide
  split
  · exact newline_not_mem_codePoint c
  · exact fun hmem ↦ hline (List.mem_singleton.mp hmem).symm

/-- Text in quotes is shown on one line, whatever it holds. -/
@[simp] theorem oneLine_quote (text : String) : OneLine (Quoted.quote text) := by
  rw [OneLine, Quoted.quote, String.toList_ofList, List.cons_append, List.mem_cons,
    List.mem_append, List.mem_flatMap]
  rintro (hfirst | ⟨c, -, hmem⟩ | hlast)
  · cases hfirst
  · exact newline_not_mem_escape c hmem
  · exact absurd hlast (by decide)

/-! ### Lines -/

/-- Some lines as one text. -/
def linesText (lines : List String) : String :=
  String.join (lines.map (· ++ "\n"))

theorem linesText_nil : linesText [] = "" :=
  rfl

theorem linesText_cons (line : String) (lines : List String) :
    linesText (line :: lines) = line ++ "\n" ++ linesText lines := by
  rw [linesText, List.map_cons, String.join_cons, linesText]

theorem linesText_singleton (line : String) : linesText [line] = line ++ "\n" := by
  rw [linesText_cons, linesText_nil, String.append_empty]

/-- Lines after lines are the text of the first ones and then of the others. -/
theorem linesText_append (lines others : List String) :
    linesText (lines ++ others) = linesText lines ++ linesText others := by
  rw [linesText, List.map_append, String.join_append, linesText, linesText]

/-- Lines made of items one by one. -/
theorem linesText_map {α : Type} (line : α → String) (items : List α) :
    linesText (items.map line) = String.join (items.map fun item ↦ line item ++ "\n") := by
  rw [linesText, List.map_map]
  rfl

/-- Whether a text consists of lines, each of which is one line and ends with a line end. -/
structure ConsistsOf (text : String) (lines : List String) : Prop where
  text_eq : text = linesText lines
  oneLine : ∀ line ∈ lines, OneLine line

section

variable {text : String} {lines : List String}

/-- There are no other line ends in a text of lines than theirs. -/
theorem ConsistsOf.count_newline (h : ConsistsOf text lines) :
    text.toList.count '\n' = lines.length := by
  obtain ⟨rfl, hlines⟩ := h
  induction lines with
  | nil => rfl
  | cons line lines ih =>
    obtain ⟨hline, hothers⟩ := List.forall_mem_cons.mp hlines
    have hnewline : ("\n" : String).toList.count '\n' = 1 := rfl
    rw [linesText_cons, String.toList_append, String.toList_append, List.count_append,
      List.count_append, List.count_eq_zero.mpr hline, hnewline, ih hothers, List.length_cons,
      Nat.zero_add, Nat.add_comm]

/-- A text of lines ends with the end of the last one. -/
theorem ConsistsOf.getLast?_eq (h : ConsistsOf text lines) (hne : lines ≠ []) :
    text.toList.getLast? = some '\n' := by
  have hnewline : ("\n" : String).toList = ['\n'] := rfl
  rw [h.text_eq, ← List.dropLast_concat_getLast hne, linesText_append, linesText_singleton,
    String.toList_append, String.toList_append, hnewline, ← List.append_assoc,
    List.getLast?_concat]

end

end OrderFile
