import OrderFile.Proofs.Token.Ended

/-!
Texts line by line. A token never reaches over the end of a line, and what it is does not depend on
the lines around it, so the tokens of a text are those of its lines, each with the number of its
line: `scanFrom_line` and `scanFrom_last`.
-/

set_option autoImplicit false

namespace OrderFile.Token

/-- What holds of a line with nothing after it, and of a line before what it holds of, holds of
every text. -/
@[elab_as_elim]
theorem induction_lines {motive : List Char → Prop}
    (last : ∀ text, '\n' ∉ text → motive text)
    (line : ∀ front back, '\n' ∉ front → motive back → motive (front ++ '\n' :: back))
    (text : List Char) : motive text := by
  by_cases hline : '\n' ∈ text
  · obtain ⟨front, back, htext, hfront⟩ := List.eq_append_cons_of_mem hline
    have hshorter : back.length < text.length := by
      rw [htext, List.length_append, List.length_cons]
      omega
    rw [htext]
    exact line front back hfront (induction_lines last line back)
  · exact last text hline
termination_by text.length

theorem count_newline_line {front : List Char} (h : '\n' ∉ front) (back : List Char) :
    (front ++ '\n' :: back).count '\n' = back.count '\n' + 1 := by
  rw [List.count_append, List.count_cons_self, List.count_eq_zero.mpr h, Nat.zero_add]

/-! ### Cuts within a line -/

/-- The same cut of a text that goes on. -/
def Cut.before (after : List Char) (k : Cut) : Cut :=
  { k with rest := k.rest ++ after }

section

variable {p : Char → Bool} {back : List Char}

/-- Characters of a class without the newline are taken from one line. -/
theorem takeWhile_line (hp : p '\n' = false) (text : List Char) :
    (text ++ '\n' :: back).takeWhile p = text.takeWhile p := by
  induction text with
  | nil => simp [hp]
  | cons c text ih => simp only [List.cons_append, List.takeWhile_cons, ih]

theorem dropWhile_line (hp : p '\n' = false) (text : List Char) :
    (text ++ '\n' :: back).dropWhile p = text.dropWhile p ++ '\n' :: back := by
  induction text with
  | nil => simp [hp]
  | cons c text ih =>
    simp only [List.cons_append, List.dropWhile_cons, ih]
    split <;> rfl

/-- A run of such characters stays on its line. -/
theorem cutWhile_line {kind : Kind} (hp : p '\n' = false) (text : List Char) :
    cutWhile kind p (text ++ '\n' :: back) = (cutWhile kind p text).before ('\n' :: back) := by
  rw [cutWhile, takeWhile_line hp, dropWhile_line hp]
  rfl

theorem cutWord_line (text : List Char) :
    cutWord (text ++ '\n' :: back) = (cutWord text).before ('\n' :: back) := by
  have hword : isWordChar '\n' = false := rfl
  rw [cutWord, cutWord, takeWhile_line hword, dropWhile_line hword]
  generalize Vocabulary.classify (String.ofList (text.takeWhile isWordChar)) = found
  obtain ⟨kind, payload⟩ := found
  rfl

/-- A quoted text stays on its line, closed or not. -/
theorem quotedParts_line {text : List Char} (h : '\n' ∉ text) :
    quotedParts (text ++ '\n' :: back) =
      { quotedParts text with rest := (quotedParts text).rest ++ '\n' :: back } := by
  fun_induction quotedParts text with
  | case1 => simp [quotedParts]
  | case2 text ih =>
    rw [List.cons_append, List.cons_append, quotedParts, ih (by simp_all)]
    rfl
  | case3 text =>
    simp [quotedParts]
  | case4 text => simp at h
  | case5 c text hescape hclose hline ih =>
    have hescape' : ∀ after, c = '\\' → text ++ '\n' :: back = '"' :: after → False := by
      intro after hc htext
      cases text with
      | nil => cases htext
      | cons d text => exact hescape text hc (by rw [(List.cons.inj htext).1])
    rw [List.cons_append, quotedParts, if_neg hclose, if_neg hline, ih (by simp_all)]
    · rfl
    · exact hescape'

theorem cutQuoted_line {text : List Char} (h : '\n' ∉ text) :
    cutQuoted (text ++ '\n' :: back) = (cutQuoted text).before ('\n' :: back) := by
  rw [cutQuoted, quotedParts_line h]
  rfl

theorem signParts_line (text : List Char) :
    signParts (text ++ '\n' :: back) =
      ((signParts text).1, (signParts text).2 ++ '\n' :: back) := by
  fun_cases signParts text with
  | case1 => rfl
  | case2 => rfl
  | case3 text hplus hminus =>
    refine signParts.eq_3 _ ?_ ?_
    · intro after htext
      cases text with
      | nil => cases htext
      | cons c text => exact hplus text (by rw [(List.cons.inj htext).1])
    · intro after htext
      cases text with
      | nil => cases htext
      | cons c text => exact hminus text (by rw [(List.cons.inj htext).1])

theorem fractionParts?_line (text : List Char) :
    fractionParts? (text ++ '\n' :: back) =
      (fractionParts? text).map fun (digits, rest) ↦ (digits, rest ++ '\n' :: back) := by
  have hdigit : Char.isDigit '\n' = false := rfl
  fun_cases fractionParts? text with
  | case1 d text hd =>
    rw [List.cons_append, List.cons_append, fractionParts?, if_pos hd, takeWhile_line hdigit,
      dropWhile_line hdigit]
    rfl
  | case2 d text hd =>
    rw [List.cons_append, List.cons_append, fractionParts?, if_neg hd]
    rfl
  | case3 text hother =>
    cases text with
    | nil => rfl
    | cons c text =>
      by_cases hc : c = '.'
      · subst hc
        cases text with
        | nil => rfl
        | cons d text => exact absurd rfl (hother d text)
      · exact fractionParts?.eq_2 _ fun d after h ↦ hc (List.cons.inj h).1

/-- A newline is a delimiter, so a number may end its line. -/
theorem filter_isDelimiter_line (found : Option Cut) :
    ((found.map (Cut.before ('\n' :: back))).filter fun cut ↦ cut.rest.head?.all isDelimiter) =
      (found.filter fun cut ↦ cut.rest.head?.all isDelimiter).map (Cut.before ('\n' :: back)) := by
  cases found with
  | none => rfl
  | some k =>
    have hhead : (k.before ('\n' :: back)).rest.head?.all isDelimiter =
        k.rest.head?.all isDelimiter := by
      rw [Cut.before]
      cases k.rest <;> rfl
    rw [Option.map_some, Option.filter_some, Option.filter_some, hhead]
    split <;> rfl

/-- A number stays on its line. -/
theorem cutNumber?_line (text : List Char) :
    cutNumber? (text ++ '\n' :: back) = (cutNumber? text).map (Cut.before ('\n' :: back)) := by
  have hdigit : Char.isDigit '\n' = false := rfl
  unfold cutNumber?
  rw [signParts_line]
  generalize signParts text = parts
  obtain ⟨sign, unsigned⟩ := parts
  dsimp only
  rw [takeWhile_line hdigit, dropWhile_line hdigit, fractionParts?_line,
    ← filter_isDelimiter_line]
  generalize unsigned.dropWhile Char.isDigit = after
  generalize unsigned.takeWhile Char.isDigit = whole
  congr 1
  cases fractionParts? after with
  | some found => rfl
  | none =>
    cases after with
    | nil => cases integerValue? sign whole <;> rfl
    | cons c after =>
      by_cases hc : c = '%'
      · subst hc
        cases integerValue? sign whole <;> rfl
      · have hother (ts rest : List Char) : c :: ts ≠ '%' :: rest :=
          fun h ↦ hc (List.cons.inj h).1
        rw [Option.map_none, List.cons_append]
        dsimp only
        split
        · exact absurd ‹_› (hother _ _)
        split
        · exact absurd ‹_› (hother _ _)
        cases integerValue? sign whole <;> rfl

theorem startsNumber_line (c : Char) (text : List Char) :
    startsNumber c (text ++ '\n' :: back) = startsNumber c text := by
  cases text with
  | nil =>
    have hdigit : Char.isDigit '\n' = false := rfl
    simp [startsNumber, hdigit]
  | cons => rfl

/-- A cut within a line does not depend on what comes after the line. -/
theorem cut_line {c : Char} {text : List Char} (h : '\n' ∉ c :: text) :
    cut c (text ++ '\n' :: back) = (cut c text).before ('\n' :: back) := by
  have hnumber : (cutNumber? (c :: text ++ '\n' :: back)).getD
      (cutWord (c :: text ++ '\n' :: back)) =
        ((cutNumber? (c :: text)).getD (cutWord (c :: text))).before ('\n' :: back) := by
    rw [cutNumber?_line, cutWord_line]
    cases cutNumber? (c :: text) with
    | none => rw [Option.map_none, Option.getD_none, Option.getD_none]
    | some k => rw [Option.map_some, Option.getD_some, Option.getD_some]
  have hspace : isSpace '\n' = false := rfl
  unfold cut
  rw [← List.cons_append, cutWhile_line (by rfl), cutQuoted_line (List.not_mem_of_not_mem_cons h),
    cutWhile_line hspace, startsNumber_line, hnumber, cutWord_line]
  simp only [apply_ite (Cut.before ('\n' :: back))]
  rfl

/-! ### The tokens of a line -/

/-- What is left of a line holds no newline. -/
theorem not_mem_cut_rest {c : Char} {text : List Char} (h : '\n' ∉ c :: text) :
    '\n' ∉ (cut c text).rest := by
  intro hmem
  refine h ?_
  rw [← cut_append c text]
  exact List.mem_append_right _ hmem

/-- The tokens of a line of a text, without its end. -/
def lineTokens (line : UInt32) (text : List Char) : List Token :=
  match text with
  | [] => []
  | c :: text =>
    ⟨line, (cut c text).kind, String.ofList (cut c text).lexeme, (cut c text).payload⟩ ::
      lineTokens line (cut c text).rest
termination_by text.length
decreasing_by exact cut_rest_length_lt c text

/-- The tokens of a line stand on that line, and none of them ends it. -/
theorem lineTokens_spec {line : UInt32} {text : List Char} (h : '\n' ∉ text) :
    ∀ t ∈ lineTokens line text, t.line = line ∧ t.kind ≠ .eol ∧ t.kind ≠ .eof := by
  fun_induction lineTokens line text with
  | case1 => simp
  | case2 c text ih =>
    refine List.forall_mem_cons.mpr ⟨⟨rfl, cut_not_end ?_ text⟩, ih (not_mem_cut_rest h)⟩
    exact (List.ne_of_not_mem_cons h).symm

/-- A line that ends, and the lines after it. -/
theorem scanFrom_line {line : UInt32} {closed : Bool} {front : List Char} (h : '\n' ∉ front)
    (back : List Char) :
    scanFrom line closed (front ++ '\n' :: back) =
      lineTokens line front ++ ⟨line, .eol, "\n", .none⟩ :: scanFrom (line + 1) true back := by
  fun_induction lineTokens line front generalizing closed with
  | case1 =>
    rw [List.nil_append, List.nil_append, scanFrom]
    rfl
  | case2 c text ih =>
    have hkind := (cut_not_end (List.ne_of_not_mem_cons h).symm text).1
    rw [List.cons_append, scanFrom, cut_line h, Cut.before]
    dsimp only
    rw [if_neg hkind, beq_false_of_ne hkind, ih (not_mem_cut_rest h), List.cons_append]

/-- The line at the end of a text. -/
theorem scanFrom_last {line : UInt32} {closed : Bool} {text : List Char} (h : '\n' ∉ text) :
    scanFrom line closed text =
      lineTokens line text ++
        (if closed ∧ text = [] then [eof line] else [impliedEol line, eof line]) := by
  fun_induction lineTokens line text generalizing closed with
  | case1 =>
    rw [scanFrom, List.nil_append]
    simp
  | case2 c text ih =>
    have hkind := (cut_not_end (List.ne_of_not_mem_cons h).symm text).1
    rw [scanFrom, if_neg hkind, beq_false_of_ne hkind, ih (not_mem_cut_rest h), List.cons_append]
    simp

end

end OrderFile.Token
