import OrderFile.Proofs.Token.Counted

/-!
Lines that are cut again after their tokens are written with single spaces between them. Nothing
changes: a token that stands alone is ended by a space and does not start with one, so the text
written so has the same tokens with one space between them, and each token is the only one of its
own text. For the lines of a text this is `scan_spaced_line`.
-/

set_option autoImplicit false

namespace OrderFile.Token

section

variable {n : UInt32} {c : Char} {text other line : List Char} {ts : List Token} {t : Token}

/-! ### Tokens with spaces between them -/

/-- One space. -/
def space (n : UInt32) : Token := ⟨n, .spaces, " ", .none⟩

theorem lineTokens_cons (c : Char) (text : List Char) :
    lineTokens n (c :: text) = (cut c text).token n :: lineTokens n (cut c text).rest := by
  rw [lineTokens]
  rfl

/-- The tokens of a line hold all of its text. -/
theorem lexemes_lineTokens (n : UInt32) (text : List Char) :
    lexemes (lineTokens n text) = text := by
  fun_induction lineTokens n text with
  | case1 => rfl
  | case2 c text ih => rw [lexemes_cons, ih, String.toList_ofList, cut_append]

/-- A token that stands alone comes first on a line that starts with its text. -/
theorem lineTokens_of_standsAlone (h : t.StandsAlone)
    (hother : other.head?.all (!isWordChar ·) = true) (hclosed : t.isUnclosed = true → other = []) :
    lineTokens n (t.lexeme.toList ++ other) = t.onLine n :: lineTokens n other := by
  obtain ⟨-, c, front, hlexeme, hcut⟩ := h
  rw [hlexeme, List.cons_append, lineTokens_cons, hcut other hother hclosed]
  dsimp only [Cut.token]
  rw [← hlexeme, String.ofList_toList]
  rfl

/-- A token that stands alone starts with no space, which would have been trivia. -/
theorem StandsAlone.exists_cons (h : t.StandsAlone) :
    ∃ c front, t.lexeme.toList = c :: front ∧ isSpace c = false := by
  obtain ⟨hkind, c, front, hlexeme, hcut⟩ := h
  refine ⟨c, front, hlexeme, ?_⟩
  by_contra hspace
  rw [Bool.not_eq_false] at hspace
  have hspaces := hcut [] rfl fun _ ↦ rfl
  rw [cut_of_isSpace hspace] at hspaces
  have hsame : Kind.spaces = t.kind := congrArg Cut.kind hspaces
  rw [← hsame] at hkind
  cases hkind

/-- What is written of tokens that stand alone starts with no space. -/
theorem exists_cons_spaced (ht : t.StandsAlone) (ts : List Token) :
    ∃ c rest, spaced (t :: ts) = c :: rest ∧ isSpace c = false := by
  obtain ⟨c, front, hlexeme, hc⟩ := ht.exists_cons
  cases ts with
  | nil =>
    refine ⟨c, front, ?_, hc⟩
    rw [spaced, List.map_singleton, String.intercalate_singleton, hlexeme]
  | cons s ts =>
    refine ⟨c, front ++ ' ' :: spaced (s :: ts), ?_, hc⟩
    rw [spaced_cons_cons, hlexeme, List.cons_append]

/-- A space ends before anything else. -/
theorem lineTokens_space (hc : isSpace c = false) :
    lineTokens n (' ' :: c :: text) = space n :: lineTokens n (c :: text) := by
  have hspace : isSpace ' ' = true := rfl
  rw [lineTokens_cons, cut_of_isSpace hspace, cutWhile, List.takeWhile_cons_of_pos hspace,
    List.dropWhile_cons_of_pos hspace, List.takeWhile_cons_of_neg (by simp [hc]),
    List.dropWhile_cons_of_neg (by simp [hc])]
  rfl

/-- Tokens that stand alone, written with single spaces between them, are cut into the same tokens
with one space between them. -/
theorem lineTokens_spaced (h : ∀ t ∈ ts, t.StandsAlone)
    (hclosed : ts.IsChain fun s _ ↦ s.isUnclosed = false) :
    lineTokens n (spaced ts) = (ts.map (onLine n)).intersperse (space n) := by
  induction ts with
  | nil =>
    have hnil : spaced [] = [] := rfl
    rw [hnil, lineTokens]
    rfl
  | cons t ts ih =>
    obtain ⟨ht, hothers⟩ := List.forall_mem_cons.mp h
    obtain ⟨hnext, hchain⟩ := List.isChain_cons.mp hclosed
    have hrest := ih hothers hchain
    cases ts with
    | nil =>
      have hlast : lineTokens n (t.lexeme.toList ++ []) = t.onLine n :: lineTokens n [] :=
        lineTokens_of_standsAlone ht rfl fun _ ↦ rfl
      rw [List.append_nil] at hlast
      rw [spaced, List.map_singleton, String.intercalate_singleton, hlast, lineTokens]
      rfl
    | cons s ts =>
      have hopen : t.isUnclosed = true → ' ' :: spaced (s :: ts) = [] :=
        fun hunclosed ↦ absurd ((hnext s rfl).symm.trans hunclosed) Bool.false_ne_true
      have hspace : lineTokens n (' ' :: spaced (s :: ts)) =
          space n :: lineTokens n (spaced (s :: ts)) := by
        obtain ⟨c, rest, hspaced, hc⟩ := exists_cons_spaced (hothers s List.mem_cons_self) ts
        rw [hspaced, lineTokens_space hc]
      rw [spaced_cons_cons, lineTokens_of_standsAlone ht rfl hopen, hspace, hrest]
      rfl

/-- Spaces put between tokens are gone when spaces are left out. -/
theorem withoutSpaces_intersperse (h : ∀ t ∈ ts, t.kind ≠ .spaces) :
    withoutSpaces (ts.intersperse (space n)) = ts := by
  induction ts with
  | nil => rfl
  | cons t ts ih =>
    obtain ⟨ht, hothers⟩ := List.forall_mem_cons.mp h
    cases ts with
    | nil => exact List.filter_eq_self.mpr (by simpa using ht)
    | cons s ts =>
      rw [List.intersperse_cons_cons, withoutSpaces, List.filter_cons_of_pos (by simpa using ht),
        List.filter_cons_of_neg (by simp [space]), ← withoutSpaces, ih hothers]

/-- The text that is written of tokens has no tokens but these and the end of its one line. -/
theorem withoutSpaces_scan_spaced (h : ∀ t ∈ ts, t.StandsAlone)
    (hclosed : ts.IsChain fun s _ ↦ s.isUnclosed = false)
    (hline : ∀ t ∈ ts, '\n' ∉ t.lexeme.toList) :
    withoutSpaces (scan (spaced ts)) = ts.map (onLine 1) ++ [impliedEol 1, eof 1] := by
  have hkinds : ∀ t ∈ ts.map (onLine 1), t.kind ≠ .spaces := by
    rw [List.forall_mem_map]
    intro t ht hspaces
    have hkind := (h t ht).1
    rw [show t.kind = .spaces from hspaces] at hkind
    cases hkind
  rw [scan, scanFrom_last (not_mem_spaced hline), lineTokens_spaced h hclosed, if_neg (by simp),
    withoutSpaces, List.filter_append, ← withoutSpaces, withoutSpaces_intersperse hkinds]
  rfl

/-- A token that stands alone is the only one of its text. -/
theorem scan_lexeme (h : t.StandsAlone) (hline : '\n' ∉ t.lexeme.toList) :
    scan t.lexeme.toList = [t.onLine 1, impliedEol 1, eof 1] := by
  have halone := @lineTokens_spaced 1 [t] (List.forall_mem_singleton.mpr h) (.singleton t)
  rw [spaced, List.map_singleton, String.intercalate_singleton] at halone
  rw [scan, scanFrom_last hline, halone, if_neg (by simp)]
  rfl

/-! ### Lines of a text -/

/-- The tokens of a line stand between the end of the line before it and its own end. -/
theorem exists_scanFrom_splitOn {closed : Bool} {k : Nat}
    (h : (text.splitOn '\n')[k]? = some line) :
    '\n' ∉ line ∧ ∃ before e after,
      scanFrom n closed text = before ++ lineTokens (n + UInt32.ofNat k) line ++ e :: after ∧
        (before = [] ∨ EndsLine before) ∧ (lexemes before).count '\n' = k ∧
        (e.kind = .eol ∨ e.kind = .eof) := by
  have hzero (n : UInt32) : n + UInt32.ofNat 0 = n := UInt32.add_zero n
  induction text using induction_lines generalizing n closed k with
  | last text hlast =>
    rw [List.splitOn_eq_singleton hlast, List.getElem?_singleton] at h
    obtain ⟨rfl, hline⟩ := Option.ite_none_right_eq_some.mp h
    obtain rfl := Option.some.inj hline
    rw [scanFrom_last hlast, hzero]
    refine ⟨hlast, ?_⟩
    split
    · exact ⟨[], eof n, [], rfl, .inl rfl, rfl, .inr rfl⟩
    · exact ⟨[], impliedEol n, [eof n], rfl, .inl rfl, rfl, .inl rfl⟩
  | line front back hfront ih =>
    rw [List.splitOn_append_cons_self_of_not_mem hfront] at h
    rw [scanFrom_line hfront]
    cases k with
    | zero =>
      obtain rfl := Option.some.inj h
      rw [hzero]
      exact ⟨hfront, [], _, _, rfl, .inl rfl, rfl, .inl rfl⟩
    | succ k =>
      obtain ⟨hline, before, e, after, hscan, hends, hcount, he⟩ :=
        @ih (n + 1) true k (by simpa using h)
      have hnext : n + 1 + UInt32.ofNat k = n + UInt32.ofNat (k + 1) := by
        rw [Nat.add_comm, UInt32.ofNat_add, ← UInt32.add_assoc]
        rfl
      refine ⟨hline, lineTokens n front ++ ⟨n, .eol, "\n", .none⟩ :: before, e, after, ?_, .inr ?_,
        ?_, he⟩
      · rw [hscan, hnext, List.append_assoc, List.append_assoc, List.append_assoc, List.cons_append]
      · rcases hends with rfl | hends
        · exact (endsLine_singleton rfl).append_left _
        · rw [List.append_cons]
          exact hends.append_left _
      · have hnewline : ("\n" : String).toList.count '\n' = 1 := rfl
        rw [lexemes_append, lexemes_lineTokens, lexemes_cons, List.count_append, List.count_append,
          List.count_eq_zero.mpr hfront, hcount, hnewline, Nat.zero_add, Nat.add_comm]

end

/-- A line of a text that is written with single spaces between its tokens, comments left out, has
the same tokens again, with the end of the line and of the text after them. Every one of them is
also the only token of its own text. -/
theorem scan_spaced_line {text line : List Char} {k : Nat}
    (h : (text.splitOn '\n')[k]? = some line) :
    ∃ before own e after, scan text = before ++ own ++ e :: after ∧
      (before = [] ∨ EndsLine before) ∧ (lexemes before).count '\n' = k ∧
      lexemes own = line ∧ (e.kind = .eol ∨ e.kind = .eof) ∧
      (∀ t ∈ own, t.line = 1 + UInt32.ofNat k ∧ t.kind ≠ .eol ∧ t.kind ≠ .eof) ∧
      withoutSpaces (scan (spaced (own.filter (!·.kind.isTrivia)))) =
        (own.filter (!·.kind.isTrivia)).map (onLine 1) ++ [impliedEol 1, eof 1] ∧
      ∀ t ∈ own, t.kind.isTrivia = false →
        scan t.lexeme.toList = [t.onLine 1, impliedEol 1, eof 1] := by
  obtain ⟨hline, before, e, after, hscan, hends, hcount, he⟩ :=
    @exists_scanFrom_splitOn 1 text line false k h
  have hspec := @lineTokens_spec (1 + UInt32.ofNat k) line hline
  have hmem : ∀ t ∈ lineTokens (1 + UInt32.ofNat k) line, t ∈ scanFrom 1 false text := by
    intro t ht
    rw [hscan]
    exact List.mem_append_left _ (List.mem_append_right _ ht)
  have halone : ∀ t ∈ lineTokens (1 + UInt32.ofNat k) line, t.kind.isTrivia = false →
      t.StandsAlone ∧ '\n' ∉ t.lexeme.toList := fun t ht hkind ↦
    ⟨standsAlone_of_mem_scanFrom (hmem t ht) hkind (hspec t ht).2.1 (hspec t ht).2.2,
      not_mem_lexeme_of_mem_scanFrom (hmem t ht) (hspec t ht).2.1⟩
  have hkept : ∀ t ∈ words (1 + UInt32.ofNat k) line, t.StandsAlone ∧ '\n' ∉ t.lexeme.toList := by
    intro t ht
    obtain ⟨hown, hkind⟩ := List.mem_filter.mp ht
    exact halone t hown (by simpa using hkind)
  -- Only a line end comes after a quote that is not closed, and there is none within the line.
  have hclosed : (words (1 + UInt32.ofNat k) line).IsChain fun s _ ↦ s.isUnclosed = false := by
    refine (chain_words hline).imp_of_mem_imp fun s t _ ht hfollows ↦ ?_
    rw [← Bool.not_eq_true]
    exact fun hopen ↦ (hspec t (List.mem_filter.mp ht).1).2.1 (hfollows.1 hopen)
  refine ⟨before, lineTokens (1 + UInt32.ofNat k) line, e, after, hscan, hends, hcount,
    lexemes_lineTokens _ _, he, hspec, ?_, fun t ht hkind ↦ ?_⟩
  · exact withoutSpaces_scan_spaced (fun t ht ↦ (hkept t ht).1) hclosed fun t ht ↦ (hkept t ht).2
  · exact scan_lexeme (halone t ht hkind).1 (halone t ht hkind).2

/-- Numbers and words that start like some, before an unclosed quote, on the second line. -/
def spreadLine : List Char :=
  "survey 1\n  5x\t+3.5 -7%,\"a;\\\" b\"dp-2 +9.(  \"c ;d\n".toList

/-- The words end at the same places with one space between them. -/
theorem scan_spaced_line_spreadLine :
    (spreadLine.splitOn '\n')[1]? = some "  5x\t+3.5 -7%,\"a;\\\" b\"dp-2 +9.(  \"c ;d".toList ∧
      ∃ before own e after, scan spreadLine = before ++ own ++ e :: after ∧
        lexemes own = "  5x\t+3.5 -7%,\"a;\\\" b\"dp-2 +9.(  \"c ;d".toList ∧
        withoutSpaces (scan (spaced (own.filter (!·.kind.isTrivia)))) =
          (own.filter (!·.kind.isTrivia)).map (onLine 1) ++ [impliedEol 1, eof 1] := by
  have hline : (spreadLine.splitOn '\n')[1]? =
      some "  5x\t+3.5 -7%,\"a;\\\" b\"dp-2 +9.(  \"c ;d".toList := by decide +kernel
  obtain ⟨before, own, e, after, hscan, -, -, hown, -, -, hagain, -⟩ := scan_spaced_line hline
  exact ⟨hline, before, own, e, after, hscan, hown, hagain⟩

end OrderFile.Token
