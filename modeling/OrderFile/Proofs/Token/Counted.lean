import OrderFile.Proofs.Token.Lossless

/-!
Lines of tokens. Where a token stands in a text decides its line: there is one more line than there
are line ends before it, and only a line end holds one: `scan_lines`.
-/

set_option autoImplicit false

namespace OrderFile.Token

section

variable {t : Token}

/-- A token holds a newline exactly if it ends a line, and then one. -/
theorem IsCut.count_newline (h : t.IsCut) :
    t.lexeme.toList.count '\n' = if t.kind = .eol then 1 else 0 := by
  by_cases heol : t.kind = .eol
  · rw [if_pos heol, h.newline heol]
    rfl
  · rw [if_neg heol, List.count_eq_zero.mpr (h.line heol)]

/-- The line of what comes after a token. -/
theorem IsCut.line_add_count (h : t.IsCut) (line : UInt32) :
    line + UInt32.ofNat (t.lexeme.toList.count '\n') =
      if t.kind = .eol then line + 1 else line := by
  rw [h.count_newline]
  by_cases heol : t.kind = .eol
  · rw [if_pos heol, if_pos heol]
    rfl
  · rw [if_neg heol, if_neg heol]
    exact UInt32.add_zero line

theorem lexemes_cons (t : Token) (ts : List Token) :
    lexemes (t :: ts) = t.lexeme.toList ++ lexemes ts :=
  List.flatMap_cons

/-- Lines are counted from the one that the text starts on. -/
theorem line_of_scanFrom_eq (line : UInt32) (closed : Bool) (text : List Char) :
    ∀ before t after, scanFrom line closed text = before ++ t :: after →
      t.line = line + UInt32.ofNat ((lexemes before).count '\n') := by
  have hfirst {line : UInt32} : line = line + UInt32.ofNat ((lexemes []).count '\n') :=
    (UInt32.add_zero line).symm
  fun_induction scanFrom line closed text with
  | case1 line =>
    intro before t after h
    cases before with
    | nil =>
      obtain ⟨rfl, -⟩ := List.cons.inj h
      exact hfirst
    | cons s before => simp at h
  | case2 line closed =>
    intro before t after h
    rcases before with _ | ⟨s, _ | ⟨r, before⟩⟩
    · obtain ⟨rfl, -⟩ := List.cons.inj h
      exact hfirst
    · obtain ⟨rfl, hlast⟩ := List.cons.inj h
      obtain ⟨rfl, -⟩ := List.cons.inj hlast
      exact hfirst
    · simp at h
  | case3 line closed c text k ih =>
    intro before t after h
    cases before with
    | nil =>
      obtain ⟨rfl, -⟩ := List.cons.inj h
      exact hfirst
    | cons s before =>
      obtain ⟨rfl, hrest⟩ := List.cons.inj h
      have hnext := (isCut_cut line c text).line_add_count line
      rw [ih before t after hrest, lexemes_cons, List.count_append, UInt32.ofNat_add,
        ← UInt32.add_assoc]
      exact congrArg (· + _) hnext.symm

end

/-- A token of a text is on the line that the line ends before it count up to, and no token but a
line end holds one of them. -/
theorem scan_lines {text : List Char} (h : text.count '\n' < 2 ^ 32 - 1) {before after : List Token}
    {t : Token} (hscan : scan text = before ++ t :: after) :
    text = lexemes before ++ (t.lexeme.toList ++ lexemes after) ∧
      t.line.toNat = 1 + (lexemes before).count '\n' ∧
      (t.kind ≠ .eol → '\n' ∉ t.lexeme.toList) := by
  have htext : text = lexemes before ++ (t.lexeme.toList ++ lexemes after) := by
    rw [← lexemes_cons, ← lexemes_append, ← hscan, lexemes_scan]
  have hbefore : (lexemes before).count '\n' ≤ text.count '\n' := by
    rw [htext, List.count_append]
    exact Nat.le_add_right ..
  have hone : (1 : UInt32).toNat = 1 := rfl
  refine ⟨htext, ?_, fun heol ↦ ?_⟩
  · rw [line_of_scanFrom_eq 1 false text before t after hscan, UInt32.toNat_add,
      UInt32.toNat_ofNat', hone]
    omega
  · have hmem : t ∈ scan text := by
      rw [hscan]
      exact List.mem_append_right _ List.mem_cons_self
    exact not_mem_lexeme_of_mem_scanFrom hmem heol

/-- A quote that is not closed, a comment with a quote and an empty line before the last line. -/
def oddLines : List Char :=
  "name 7 \"old\\\"\n; the \"old\" one\n\nsurvey 5".toList

/-- The line end that is not in the text is on the fourth line. -/
theorem scan_lines_oddLines :
    oddLines.count '\n' < 2 ^ 32 - 1 ∧
      scan oddLines = (scan oddLines).take 12 ++ impliedEol 4 :: [eof 4] ∧
      (impliedEol 4).line.toNat = 1 + (lexemes ((scan oddLines).take 12)).count '\n' := by
  have hcount : oddLines.count '\n' < 2 ^ 32 - 1 := by decide
  have hscan : scan oddLines = (scan oddLines).take 12 ++ impliedEol 4 :: [eof 4] := by
    decide +kernel
  exact ⟨hcount, hscan, (scan_lines hcount hscan).2.1⟩

end OrderFile.Token
