import Mathlib.Algebra.Group.Nat.Defs
import OrderFile.Proofs.Token.Lines

/-!
Where lines start. The lines of a text that hold anything are those on which the first tokens after
line ends stand, and preparing the stream does not change these: `lineStarts_prepare_scan`.
-/

set_option autoImplicit false

namespace OrderFile.Token

/-- The lines of the tokens that come first on a line. `fresh` says that the token before the given
ones ends a line. -/
def lineStarts (fresh : Bool) : List Token → List UInt32
  | [] => []
  | t :: ts =>
    if fresh = true ∧ t.kind ≠ .eol ∧ t.kind ≠ .eof then t.line :: lineStarts (t.kind == .eol) ts
    else lineStarts (t.kind == .eol) ts

section

variable {fresh : Bool} {t : Token} {ts : List Token}

/-- A line starts after each line end. -/
theorem lineStarts_eol (h : t.kind = .eol) : lineStarts fresh (t :: ts) = lineStarts true ts := by
  rw [lineStarts, if_neg fun hstart ↦ hstart.2.1 h, h]
  rfl

theorem lineStarts_eof (h : t.kind = .eof) : lineStarts fresh [t] = [] := by
  rw [lineStarts, if_neg fun hstart ↦ hstart.2.2 h]
  rfl

/-- A line starts with its first token, if that does not end it. -/
theorem lineStarts_first (h : t.kind ≠ .eol ∧ t.kind ≠ .eof) :
    lineStarts true (t :: ts) = t.line :: lineStarts false ts := by
  rw [lineStarts, if_pos ⟨rfl, h⟩, beq_false_of_ne h.1]

theorem lineStarts_later (h : t.kind ≠ .eol) :
    lineStarts false (t :: ts) = lineStarts false ts := by
  rw [lineStarts, if_neg fun hstart ↦ Bool.false_ne_true hstart.1, beq_false_of_ne h]

/-- No line starts before the end of the one that is open. -/
theorem lineStarts_append_later {front : List Token} (h : ∀ s ∈ front, s.kind ≠ .eol) :
    lineStarts false (front ++ ts) = lineStarts false ts := by
  induction front with
  | nil => rfl
  | cons s front ih =>
    obtain ⟨hs, hfront⟩ := List.forall_mem_cons.mp h
    rw [List.cons_append, lineStarts_later hs, ih hfront]

/-- Whole lines, and what comes after them. -/
theorem lineStarts_append {front : List Token} (h : EndsLine front) :
    lineStarts fresh (front ++ ts) = lineStarts fresh front ++ lineStarts true ts := by
  obtain ⟨before, e, rfl, he⟩ := h
  induction before generalizing fresh with
  | nil =>
    rw [List.nil_append, List.singleton_append, lineStarts_eol he, lineStarts_eol he]
    rfl
  | cons s before ih =>
    rw [List.cons_append, List.cons_append, lineStarts, lineStarts, ih]
    split <;> rfl

/-- Leaving out line ends after others takes no start away and adds none. -/
theorem lineStarts_collapseLinesFrom {afterEol : Bool} (h : afterEol = true → fresh = true)
    (ts : List Token) : lineStarts fresh (collapseLinesFrom afterEol ts) = lineStarts fresh ts := by
  induction ts generalizing fresh afterEol with
  | nil => rfl
  | cons t ts ih =>
    rw [collapseLinesFrom]
    by_cases hrepeated : t.kind = .eol ∧ afterEol = true
    · rw [if_pos hrepeated, lineStarts_eol hrepeated.1, h hrepeated.2]
      exact ih fun _ ↦ rfl
    · rw [if_neg hrepeated, lineStarts, lineStarts, ih id]

/-- One whole line starts once, unless it is empty. -/
theorem lineStarts_line {line : UInt32} {front : List Token} {e : Token}
    (hfront : ∀ s ∈ front, s.line = line ∧ s.kind ≠ .eol ∧ s.kind ≠ .eof) (he : e.kind = .eol) :
    lineStarts true (front ++ e :: ts) =
      (if front.isEmpty then [] else [line]) ++ lineStarts true ts := by
  cases front with
  | nil =>
    rw [List.nil_append, lineStarts_eol he]
    rfl
  | cons s front =>
    obtain ⟨hs, hothers⟩ := List.forall_mem_cons.mp hfront
    rw [List.cons_append, lineStarts_first hs.2,
      lineStarts_append_later fun s hs ↦ (hothers s hs).2.1, lineStarts_eol he, hs.1]
    rfl

end

/-! ### The lines of a text -/

/-- Whether a token is more than the space, comment or line end after another one. -/
def Kind.isContent : Kind → Bool
  | .eof | .eol | .comment | .spaces => false
  | _ => true

/-- Whether a line of a text holds anything but spaces and a comment. -/
def hasContent (line : List Char) : Bool :=
  (scan line).any (·.kind.isContent)

/-- The numbers of the lines of a text that hold anything but spaces and a comment; the first line
has the given number. -/
def filledLinesFrom (n : Nat) (text : List Char) : List Nat :=
  (((text.splitOn '\n').zipIdx n).filter (hasContent ·.1)).map (·.2)

/-- The same for a whole text, whose lines are counted from one. -/
def filledLines (text : List Char) : List Nat :=
  filledLinesFrom 1 text

/-- Lines are counted upwards. -/
theorem pairwise_filledLines (text : List Char) : (filledLines text).Pairwise (· < ·) := by
  have hnumbers : (((text.splitOn '\n').zipIdx 1).map (·.2)).Pairwise (· < ·) := by
    rw [List.zipIdx_map_snd]
    exact List.pairwise_lt_range'
  exact hnumbers.sublist (List.filter_sublist.map _)

/-- The kinds of the tokens of a line do not depend on its number. -/
theorem lineTokens_kinds (line other : UInt32) (text : List Char) :
    (lineTokens line text).map (·.kind) = (lineTokens other text).map (·.kind) := by
  fun_induction lineTokens line text with
  | case1 => rw [lineTokens, List.map_nil]
  | case2 c text ih => rw [lineTokens, List.map_cons, List.map_cons, ih]

/-- A line holds something exactly if one of its tokens is neither space nor comment. -/
theorem hasContent_eq_any {line : List Char} (h : '\n' ∉ line) (n : UInt32) :
    hasContent line = (lineTokens n line).any (·.kind.isContent) := by
  have hkinds (ts : List Token) :
      (ts.any (·.kind.isContent)) = (ts.map (·.kind)).any Kind.isContent := by
    rw [List.any_map]
    rfl
  have hlast : ([impliedEol 1, eof 1].any (·.kind.isContent)) = false := rfl
  rw [hasContent, scan, scanFrom_last h, if_neg (by simp), List.any_append, hlast, Bool.or_false,
    hkinds, lineTokens_kinds 1 n, ← hkinds]

/-- A line holds content exactly if something of it is kept. -/
theorem isEmpty_filter_lineTokens {line : List Char} (h : '\n' ∉ line) (n : UInt32) :
    ((lineTokens n line).filter (!·.kind.isTrivia)).isEmpty = !hasContent line := by
  have hcontent : (lineTokens n line).filter (!·.kind.isTrivia) =
      (lineTokens n line).filter (·.kind.isContent) := by
    refine List.filter_congr fun t ht ↦ ?_
    obtain ⟨-, heol, heof⟩ := lineTokens_spec h t ht
    cases hkind : t.kind <;> simp_all [Kind.isTrivia, Kind.isContent]
  rw [hcontent, hasContent_eq_any h n, Bool.eq_iff_iff, List.isEmpty_iff, List.filter_eq_nil_iff]
  simp

/-- The first line of a text is counted if it holds something, and the others are those of the
rest. -/
theorem filledLinesFrom_line {n : Nat} {front : List Char} (h : '\n' ∉ front)
    (back : List Char) :
    filledLinesFrom n (front ++ '\n' :: back) =
      (if hasContent front then [n] else []) ++ filledLinesFrom (n + 1) back := by
  rw [filledLinesFrom, List.splitOn_append_cons_self_of_not_mem h, List.zipIdx_cons,
    List.filter_cons]
  by_cases hfront : hasContent front = true
  · rw [if_pos hfront, if_pos hfront]
    rfl
  · rw [if_neg hfront, if_neg hfront]
    rfl

theorem filledLinesFrom_last {n : Nat} {text : List Char} (h : '\n' ∉ text) :
    filledLinesFrom n text = if hasContent text then [n] else [] := by
  rw [filledLinesFrom, List.splitOn_eq_singleton h, List.zipIdx_singleton, List.filter_cons]
  by_cases htext : hasContent text = true
  · rw [if_pos htext, if_pos htext]
    rfl
  · rw [if_neg htext, if_neg htext]
    rfl

/-- Kept tokens of a line start it exactly if it holds content. -/
theorem lineStarts_filter_line {n : UInt32} {line : List Char} {e : Token} {ts : List Token}
    (h : '\n' ∉ line) (he : e.kind = .eol) :
    lineStarts true ((lineTokens n line ++ e :: ts).filter (!·.kind.isTrivia)) =
      (if hasContent line then [n] else []) ++ lineStarts true (ts.filter (!·.kind.isTrivia)) := by
  have hkept : (!e.kind.isTrivia) = true := by
    rw [he]
    rfl
  rw [List.filter_append, List.filter_cons, if_pos hkept,
    lineStarts_line (fun s hs ↦ lineTokens_spec h s (List.mem_filter.mp hs).1) he,
    isEmpty_filter_lineTokens h]
  cases hasContent line <;> rfl

/-- Lines of tokens start where the lines of the text hold something. -/
theorem lineStarts_scanFrom {n : Nat} {text : List Char} (hn : n + text.count '\n' < 2 ^ 32)
    (closed : Bool) :
    (lineStarts true ((scanFrom (UInt32.ofNat n) closed text).filter (!·.kind.isTrivia))).map
      (·.toNat) = filledLinesFrom n text := by
  have hsmall (k m : Nat) (h : m + k < 2 ^ 32) : (UInt32.ofNat m).toNat = m :=
    UInt32.toNat_ofNat_of_lt (Nat.lt_of_le_of_lt (Nat.le_add_right ..) h)
  induction text using induction_lines generalizing n closed with
  | line front back hfront ih =>
    have hnumber := hsmall _ n hn
    rw [count_newline_line hfront] at hn
    have hback := @ih (n + 1) (by omega) true
    have hnext : UInt32.ofNat n + 1 = UInt32.ofNat (n + 1) := (UInt32.ofNat_add n 1).symm
    rw [scanFrom_line hfront, lineStarts_filter_line hfront rfl, List.map_append, hnext, hback,
      filledLinesFrom_line hfront]
    split
    · rw [List.map_singleton, hnumber]
    · rfl
  | last text hline =>
    have hend : lineStarts true ([eof (UInt32.ofNat n)].filter (!·.kind.isTrivia)) = [] := rfl
    rw [scanFrom_last hline, filledLinesFrom_last hline]
    by_cases hempty : closed = true ∧ text = []
    · rw [if_pos hempty, hempty.2, hasContent_eq_any (List.not_mem_nil) 1, lineTokens, lineTokens,
        List.nil_append, hend]
      rfl
    · rw [if_neg hempty, lineStarts_filter_line hline rfl, hend, List.append_nil]
      split
      · rw [List.map_singleton, hsmall _ n hn]
      · rfl

/-- The lines on which the prepared tokens of a text start are those of its lines that hold
anything. -/
theorem lineStarts_prepare_scan {text : List Char} (h : text.count '\n' < 2 ^ 32 - 1) :
    (lineStarts true (prepare (scan text))).map (·.toNat) = filledLines text := by
  have hn : 1 + text.count '\n' < 2 ^ 32 := by omega
  rw [prepare_eq, lineStarts_collapseLinesFrom (fun _ ↦ rfl)]
  exact lineStarts_scanFrom hn false

end OrderFile.Token
