import Mathlib.Algebra.Group.Nat.Defs
import Mathlib.Data.List.Chain
import OrderFile.Proofs.Token.Starts

/-!
Lines taken out of a text. A line that is made empty leaves no token but its end, and that is left
out of the prepared stream like the end of any other empty line. So the prepared tokens of a text
with some lines made empty are those of the text without the tokens on these lines:
`prepare_scan_blankLines`.
-/

set_option autoImplicit false

namespace OrderFile.Token

/-! ### Texts with lines made empty -/

/-- A text in which the lines with some numbers are made empty; the first line has the given
number. -/
def blankLinesFrom (n : Nat) (gone : List Nat) (text : List Char) : List Char :=
  ['\n'].intercalate
    (((text.splitOn '\n').zipIdx n).map fun (line, k) ↦ if k ∈ gone then [] else line)

/-- The same for a whole text, whose lines are counted from one. -/
def blankLines (gone : List Nat) (text : List Char) : List Char :=
  blankLinesFrom 1 gone text

section

variable {n : Nat} {gone : List Nat}

/-- The first line of a text is emptied if its number is among the given ones, and the others are
those of the rest. -/
theorem blankLinesFrom_line {front : List Char} (h : '\n' ∉ front) (back : List Char) :
    blankLinesFrom n gone (front ++ '\n' :: back) =
      (if n ∈ gone then [] else front) ++ '\n' :: blankLinesFrom (n + 1) gone back := by
  rw [blankLinesFrom, List.splitOn_append_cons_self_of_not_mem h, List.zipIdx_cons, List.map_cons,
    blankLinesFrom]
  obtain ⟨line, lines, hlines⟩ := List.exists_cons_of_ne_nil (List.splitOn_ne_nil '\n' back)
  rw [hlines, List.zipIdx_cons, List.map_cons, List.intercalate_cons_cons, List.append_assoc]
  rfl

theorem blankLinesFrom_last {text : List Char} (h : '\n' ∉ text) :
    blankLinesFrom n gone text = if n ∈ gone then [] else text := by
  rw [blankLinesFrom, List.splitOn_eq_singleton h, List.zipIdx_singleton, List.map_singleton,
    List.intercalate_singleton]

end

/-! ### Tokens without those of some lines -/

/-- Tokens without those of the lines whose first token stands on a line to be taken out. The ends
of these lines stay, and the end token does. `within?` says whether the line that is open is one of
them; at the start of a line nothing is known yet. -/
def dropLines (gone : List Nat) (within? : Option Bool) : List Token → List Token
  | [] => []
  | t :: ts =>
    if t.kind = .eol then t :: dropLines gone none ts
    else if t.kind ≠ .eof ∧ within?.getD (t.line.toNat ∈ gone) then dropLines gone (some true) ts
    else t :: dropLines gone (some false) ts

section

variable {gone : List Nat} {within? : Option Bool} {t : Token} {ts : List Token}

theorem dropLines_eol (h : t.kind = .eol) :
    dropLines gone within? (t :: ts) = t :: dropLines gone none ts := by
  rw [dropLines, if_pos h]

/-- Whether a token goes is decided by the first one on its line. -/
theorem dropLines_word (h : t.kind ≠ .eol) :
    dropLines gone within? (t :: ts) =
      if t.kind ≠ .eof ∧ within?.getD (t.line.toNat ∈ gone) then dropLines gone (some true) ts
      else t :: dropLines gone (some false) ts := by
  rw [dropLines, if_neg h]

/-- What is left of an open line up to its end. -/
theorem dropLines_open {front : List Token} {e : Token} (skips : Bool)
    (hfront : ∀ s ∈ front, s.kind ≠ .eol ∧ s.kind ≠ .eof) (he : e.kind = .eol) :
    dropLines gone (some skips) (front ++ e :: ts) =
      (if skips then [] else front) ++ e :: dropLines gone none ts := by
  induction front with
  | nil =>
    rw [List.nil_append, dropLines_eol he, ite_self]
    rfl
  | cons s front ih =>
    obtain ⟨⟨heol, heof⟩, hothers⟩ := List.forall_mem_cons.mp hfront
    rw [List.cons_append, dropLines_word heol, Option.getD_some]
    cases skips with
    | true =>
      rw [if_pos ⟨heof, rfl⟩]
      exact ih hothers
    | false =>
      rw [if_neg (by simp), ih hothers]
      rfl

/-- What is left of a whole line. -/
theorem dropLines_line {n : UInt32} {front : List Token} {e : Token}
    (hfront : ∀ s ∈ front, s.line = n ∧ s.kind ≠ .eol ∧ s.kind ≠ .eof) (he : e.kind = .eol) :
    dropLines gone none (front ++ e :: ts) =
      (if n.toNat ∈ gone then [] else front) ++ e :: dropLines gone none ts := by
  cases front with
  | nil =>
    rw [List.nil_append, dropLines_eol he, ite_self]
    rfl
  | cons s front =>
    obtain ⟨⟨hline, heol, heof⟩, hothers⟩ := List.forall_mem_cons.mp hfront
    have hopen (skips : Bool) :=
      @dropLines_open gone ts front e skips (fun u hu ↦ (hothers u hu).2) he
    rw [List.cons_append, dropLines_word heol, Option.getD_none, hline]
    by_cases hgone : n.toNat ∈ gone
    · rw [if_pos ⟨heof, decide_eq_true hgone⟩, if_pos hgone, hopen true]
      rfl
    · rw [if_neg (by simp [hgone]), if_neg hgone, hopen false]
      rfl

/-- Tokens stay if no line that starts among them is taken out. -/
theorem dropLines_of_kept {fresh : Bool} (hwithin : within? = if fresh then none else some false)
    (h : ∀ line ∈ lineStarts fresh ts, line.toNat ∉ gone) : dropLines gone within? ts = ts := by
  induction ts generalizing fresh within? with
  | nil => rfl
  | cons t ts ih =>
    by_cases heol : t.kind = .eol
    · rw [lineStarts_eol heol] at h
      have hrest : dropLines gone none ts = ts := ih rfl h
      rw [dropLines_eol heol, hrest]
    · have hkept : ¬ (t.kind ≠ .eof ∧ within?.getD (t.line.toNat ∈ gone) = true) := by
        rintro ⟨heof, hgone⟩
        cases fresh with
        | true =>
          rw [lineStarts_first ⟨heol, heof⟩] at h
          rw [hwithin, if_pos rfl, Option.getD_none] at hgone
          exact h t.line List.mem_cons_self (of_decide_eq_true hgone)
        | false =>
          rw [hwithin, if_neg Bool.false_ne_true] at hgone
          cases hgone
      have hlater : ∀ line ∈ lineStarts false ts, line.toNat ∉ gone := by
        intro line hline
        refine h line ?_
        rw [lineStarts, beq_false_of_ne heol]
        split
        · exact List.mem_cons_of_mem _ hline
        · exact hline
      have hrest : dropLines gone (some false) ts = ts := ih rfl hlater
      rw [dropLines_word heol, if_neg hkept, hrest]

/-- Whole lines, and what comes after them. -/
theorem dropLines_append {front : List Token} (h : EndsLine front) :
    dropLines gone within? (front ++ ts) =
      dropLines gone within? front ++ dropLines gone none ts := by
  obtain ⟨before, e, rfl, he⟩ := h
  induction before generalizing within? with
  | nil =>
    rw [List.nil_append, List.singleton_append, dropLines_eol he, dropLines_eol he]
    rfl
  | cons s before ih =>
    rw [List.cons_append, List.cons_append, dropLines, dropLines, ih, ih, ih]
    split
    · rfl
    · split <;> rfl

/-- The end of the last line stays. -/
theorem EndsLine.dropLines (h : EndsLine ts) : EndsLine (dropLines gone within? ts) := by
  obtain ⟨before, e, rfl, he⟩ := h
  induction before generalizing within? with
  | nil =>
    rw [List.nil_append, dropLines_eol he]
    exact endsLine_singleton he
  | cons s before ih =>
    rw [List.cons_append, Token.dropLines]
    split
    · exact ih.append_left [s]
    · split
      · exact ih
      · exact ih.append_left [s]

end

/-! ### Empty lines -/

/-- Tokens in which no line end comes right after another one. -/
def Collapsed (ts : List Token) : Prop :=
  ts.IsChain fun s t ↦ s.kind = .eol → t.kind ≠ .eol

section

variable {after : Bool} {t : Token} {ts : List Token}

/-- A line end stays if no other one comes before it. -/
theorem collapseLinesFrom_eol (h : t.kind = .eol) :
    collapseLinesFrom after (t :: ts) =
      (if after then [] else [t]) ++ collapseLinesFrom true ts := by
  cases after <;> simp [collapseLinesFrom, h]

theorem collapseLinesFrom_word (h : t.kind ≠ .eol) :
    collapseLinesFrom after (t :: ts) = t :: collapseLinesFrom false ts := by
  rw [collapseLinesFrom, if_neg fun hrepeated ↦ h hrepeated.1, beq_false_of_ne h]

/-- The first line of a stream stays as it is. -/
theorem collapseLinesFrom_line {ts : List Token} {e : Token}
    (hts : ∀ t ∈ ts, t.kind ≠ .eol) (he : e.kind = .eol) (rest : List Token) :
    collapseLinesFrom false (ts ++ e :: rest) = ts ++ e :: collapseLinesFrom true rest := by
  induction ts with
  | nil =>
    rw [List.nil_append, collapseLinesFrom_eol he]
    rfl
  | cons t ts ih =>
    obtain ⟨ht, hothers⟩ := List.forall_mem_cons.mp hts
    rw [List.cons_append, collapseLinesFrom_word ht, ih hothers, List.cons_append]

/-- Whole lines, and what comes after them. -/
theorem collapseLinesFrom_append {front : List Token} (h : EndsLine front) :
    collapseLinesFrom after (front ++ ts) =
      collapseLinesFrom after front ++ collapseLinesFrom true ts := by
  obtain ⟨before, e, rfl, he⟩ := h
  induction before generalizing after with
  | nil =>
    rw [List.nil_append, List.singleton_append, collapseLinesFrom_eol he, collapseLinesFrom_eol he]
    simp [collapseLinesFrom]
  | cons s before ih =>
    rw [List.cons_append, List.cons_append, collapseLinesFrom, collapseLinesFrom, ih, ih]
    split <;> rfl

/-- After collapsing, no line end comes right after another one, nor at the start if one comes
before. -/
theorem collapsed_collapseLinesFrom (after : Bool) (ts : List Token) :
    Collapsed (collapseLinesFrom after ts) ∧
      (after = true → ∀ t ∈ (collapseLinesFrom after ts).head?, t.kind ≠ .eol) := by
  induction ts generalizing after with
  | nil => simp [collapseLinesFrom, Collapsed]
  | cons t ts ih =>
    by_cases heol : t.kind = .eol
    · rw [collapseLinesFrom_eol heol]
      cases after with
      | true => exact ih true
      | false =>
        obtain ⟨hchain, hhead⟩ := ih true
        refine ⟨List.isChain_cons.mpr ⟨fun s hs _ ↦ hhead rfl s hs, hchain⟩, ?_⟩
        exact (absurd · Bool.false_ne_true)
    · rw [collapseLinesFrom_word heol]
      refine ⟨List.isChain_cons.mpr ⟨fun _ _ h ↦ absurd h heol, (ih false).1⟩, ?_⟩
      intro _ s hs
      obtain rfl := Option.some.inj hs
      exact heol

/-- Where no line end follows another one, there is none to leave out. -/
theorem collapseLinesFrom_of_collapsed (h : Collapsed ts)
    (hhead : after = true → ∀ t ∈ ts.head?, t.kind ≠ .eol) : collapseLinesFrom after ts = ts := by
  induction ts generalizing after with
  | nil => rfl
  | cons t ts ih =>
    obtain ⟨hnext, hrest⟩ := List.isChain_cons.mp h
    by_cases heol : t.kind = .eol
    · cases after with
      | true => exact absurd heol (hhead rfl t rfl)
      | false =>
        rw [collapseLinesFrom_eol heol, ih hrest fun _ s hs ↦ hnext s hs heol]
        rfl
    · have hwhole : collapseLinesFrom false ts = ts :=
        ih hrest fun h ↦ absurd h Bool.false_ne_true
      rw [collapseLinesFrom_word heol, hwhole]

/-- Leaving out the ends of empty lines before some lines are taken out makes no difference if they
are left out afterwards. -/
theorem collapseLinesFrom_dropLines {inner : Bool} {within? : Option Bool} (gone : List Nat)
    (h : inner = true → after = true ∧ within? = none) (ts : List Token) :
    collapseLinesFrom after (dropLines gone within? (collapseLinesFrom inner ts)) =
      collapseLinesFrom after (dropLines gone within? ts) := by
  induction ts generalizing after inner within? with
  | nil => rfl
  | cons t ts ih =>
    by_cases heol : t.kind = .eol
    · rw [collapseLinesFrom_eol heol, dropLines_eol heol, collapseLinesFrom_eol heol]
      cases inner with
      | true =>
        obtain ⟨rfl, rfl⟩ := h rfl
        exact ih fun _ ↦ ⟨rfl, rfl⟩
      | false =>
        rw [if_neg Bool.false_ne_true, List.singleton_append, dropLines_eol heol,
          collapseLinesFrom_eol heol, ih fun _ ↦ ⟨rfl, rfl⟩]
    · rw [collapseLinesFrom_word heol, dropLines_word heol, dropLines_word heol]
      have hinner {within? : Option Bool} {after : Bool} :
          false = true → after = true ∧ within? = none := fun h ↦ absurd h Bool.false_ne_true
      split
      · exact ih hinner
      · rw [collapseLinesFrom_word heol, collapseLinesFrom_word heol, ih hinner]

end

/-! ### The tokens of a text -/

/-- The kept tokens of a line and those of the lines after it. -/
theorem filter_scanFrom_line {n : UInt32} {closed : Bool} {front : List Char} (h : '\n' ∉ front)
    (back : List Char) :
    (scanFrom n closed (front ++ '\n' :: back)).filter (!·.kind.isTrivia) =
      (lineTokens n front).filter (!·.kind.isTrivia) ++
        ⟨n, .eol, "\n", .none⟩ :: (scanFrom (n + 1) true back).filter (!·.kind.isTrivia) := by
  rw [scanFrom_line h, List.filter_append, List.filter_cons_of_pos (by rfl)]

/-- The same for the line at the end of a text. -/
theorem filter_scanFrom_last {n : UInt32} {closed : Bool} {text : List Char} (h : '\n' ∉ text) :
    (scanFrom n closed text).filter (!·.kind.isTrivia) =
      (lineTokens n text).filter (!·.kind.isTrivia) ++
        if closed ∧ text = [] then [eof n] else [impliedEol n, eof n] := by
  rw [scanFrom_last h, List.filter_append]
  split <;> rfl

/-- What is left of the kept tokens of a line. -/
theorem dropLines_filter_line {n : Nat} (hn : n < 2 ^ 32) {gone : List Nat} {line : List Char}
    (h : '\n' ∉ line) {e : Token} (he : e.kind = .eol) (ts : List Token) :
    dropLines gone none
        ((lineTokens (UInt32.ofNat n) line).filter (!·.kind.isTrivia) ++ e :: ts) =
      (lineTokens (UInt32.ofNat n) (if n ∈ gone then [] else line)).filter (!·.kind.isTrivia) ++
        e :: dropLines gone none ts := by
  have hfront : ∀ s ∈ (lineTokens (UInt32.ofNat n) line).filter (!·.kind.isTrivia),
      s.line = UInt32.ofNat n ∧ s.kind ≠ .eol ∧ s.kind ≠ .eof := by
    intro s hs
    exact lineTokens_spec h s (List.mem_filter.mp hs).1
  have hnumber : (UInt32.ofNat n).toNat = n := UInt32.toNat_ofNat_of_lt hn
  rw [dropLines_line hfront he, hnumber]
  by_cases hgone : n ∈ gone
  · rw [if_pos hgone, if_pos hgone, lineTokens, List.filter_nil]
  · rw [if_neg hgone, if_neg hgone]

theorem dropLines_end {gone : List Nat} (n : UInt32) : dropLines gone none [eof n] = [eof n] := by
  rw [dropLines_word (by simp [eof]), if_neg (by simp [eof])]
  rfl

/-- The end of a text does not tell whether its last line was made empty or was empty before. -/
theorem collapseLinesFrom_end {closed after : Bool} (h : closed = true → after = true)
    (n : UInt32) (text : List Char) :
    collapseLinesFrom after (if closed ∧ text = [] then [eof n] else [impliedEol n, eof n]) =
      collapseLinesFrom after [impliedEol n, eof n] := by
  by_cases hclosed : closed = true
  · rw [h hclosed]
    split <;> rfl
  · rw [if_neg fun hboth ↦ hclosed hboth.1]

/-- From any line of a text on, emptying lines takes their tokens out of the prepared stream. -/
theorem collapse_scan_blankLinesFrom {n : Nat} {gone : List Nat} {text : List Char}
    (hn : n + text.count '\n' < 2 ^ 32) {closed after : Bool} (h : closed = true → after = true) :
    collapseLinesFrom after
        ((scanFrom (UInt32.ofNat n) closed (blankLinesFrom n gone text)).filter
          (!·.kind.isTrivia)) =
      collapseLinesFrom after (dropLines gone none
        ((scanFrom (UInt32.ofNat n) closed text).filter (!·.kind.isTrivia))) := by
  have hsmall : n < 2 ^ 32 := Nat.lt_of_le_of_lt (Nat.le_add_right ..) hn
  induction text using induction_lines generalizing n closed after with
  -- One line at a time: whether it goes or stays, it ends with its own line end, and that is all
  -- that collapsing looks at before the next line.
  | line front back hfront ih =>
    rw [count_newline_line hfront] at hn
    have hback := @ih (n + 1) (by omega) true true (fun _ ↦ rfl) (by omega)
    have hnext : UInt32.ofNat n + 1 = UInt32.ofNat (n + 1) := (UInt32.ofNat_add n 1).symm
    have hleft : '\n' ∉ (if n ∈ gone then [] else front) := by
      split
      · exact List.not_mem_nil
      · exact hfront
    rw [blankLinesFrom_line hfront, filter_scanFrom_line hleft, filter_scanFrom_line hfront,
      dropLines_filter_line hsmall hfront rfl, hnext]
    generalize (lineTokens _ (if n ∈ gone then [] else front)).filter _ = kept
    have hends : EndsLine (kept ++ [⟨UInt32.ofNat n, .eol, "\n", .none⟩]) :=
      (endsLine_singleton rfl).append_left kept
    rw [← List.singleton_append, ← List.append_assoc, collapseLinesFrom_append hends, hback,
      ← collapseLinesFrom_append hends, List.append_assoc, List.singleton_append]
  | last text hline =>
    have hleft : '\n' ∉ (if n ∈ gone then [] else text) := by
      split
      · exact List.not_mem_nil
      · exact hline
    rw [blankLinesFrom_last hline, filter_scanFrom_last hleft, filter_scanFrom_last hline]
    -- The last line has no newline, so the line end that is added depends on whether it is empty.
    by_cases hempty : text = []
    · rw [hempty, ite_self, lineTokens, List.filter_nil, List.nil_append]
      split
      · rw [dropLines_end]
      · rw [dropLines_eol (by rfl), dropLines_end]
    · have hopen : ¬ (closed = true ∧ text = []) := fun h ↦ hempty h.2
      rw [if_neg hopen, dropLines_filter_line hsmall hline rfl, dropLines_end]
      by_cases hgone : n ∈ gone
      · rw [if_pos hgone, lineTokens, List.filter_nil, List.nil_append, List.nil_append,
          collapseLinesFrom_end h]
      · rw [if_neg hgone, if_neg hopen]

/-- Emptying lines of a text takes their tokens out of its prepared stream. -/
theorem prepare_scan_blankLines {gone : List Nat} {text : List Char}
    (h : text.count '\n' < 2 ^ 32 - 1) :
    prepare (scan (blankLines gone text)) =
      collapseLines (dropLines gone none (prepare (scan text))) := by
  have hn : 1 + text.count '\n' < 2 ^ 32 := by omega
  have hstart : false = true → false = true ∧ (none : Option Bool) = none :=
    fun h ↦ absurd h Bool.false_ne_true
  rw [prepare_eq, prepare_eq, collapseLines, collapseLinesFrom_dropLines gone hstart]
  exact collapse_scan_blankLinesFrom hn (fun h ↦ h)

end OrderFile.Token
