import OrderFile.Proofs.Token.Blanked
import OrderFile.Proofs.Token.Reworded

/-!
Tokens of a text that comes after another one. They are the tokens of the text itself, moved down by
the lines of the first one. What the first text has to say in it ends with its last line, except
that an empty line at the start of the second one is one more empty line: `prepare_scan_append`.
-/

set_option autoImplicit false

namespace OrderFile.Token

/-- The token as it stands after a number of lines. -/
def shift (n : UInt32) (t : Token) : Token :=
  { t with line := t.line + n }

@[simp] theorem shift_kind (n : UInt32) (t : Token) : (t.shift n).kind = t.kind := rfl

@[simp] theorem shift_lexeme (n : UInt32) (t : Token) : (t.shift n).lexeme = t.lexeme := rfl

@[simp] theorem shift_payload (n : UInt32) (t : Token) : (t.shift n).payload = t.payload := rfl

@[simp] theorem shift_line (n : UInt32) (t : Token) : (t.shift n).line = t.line + n := rfl

/-- Moving tokens down changes nothing but their lines. -/
theorem rewords_shift (n : UInt32) : Rewords (shift n) where
  kind _ := rfl
  integer? _ := rfl
  word _ _ := rfl

/-! ### Streams that are moved down -/

/-- The tokens of a text that starts on a later line are moved down by as many lines. -/
theorem scanFrom_shift (n line : UInt32) (closed : Bool) (text : List Char) :
    scanFrom (line + n) closed text = (scanFrom line closed text).map (shift n) := by
  fun_induction scanFrom line closed text with
  | case1 line => simp [scanFrom, shift, eof]
  | case2 line closed hopen => simp [scanFrom, shift, eof, impliedEol, hopen]
  | case3 line closed c text k ih =>
    have hnext : (if k.kind = .eol then line + n + 1 else line + n) =
        (if k.kind = .eol then line + 1 else line) + n := by
      by_cases heol : k.kind = .eol
      · rw [if_pos heol, if_pos heol, UInt32.add_assoc, UInt32.add_comm n, UInt32.add_assoc]
      · rw [if_neg heol, if_neg heol]
    simp only [dite_eq_ite, ← hnext] at ih
    rw [scanFrom, List.map_cons, ← ih]
    rfl

theorem filter_shift (n : UInt32) (ts : List Token) :
    (ts.map (shift n)).filter (!·.kind.isTrivia) =
      (ts.filter (!·.kind.isTrivia)).map (shift n) := by
  rw [List.filter_map]
  rfl

/-! ### One text after another -/

/-- The tokens up to a line end do not depend on what comes after it. -/
theorem exists_scanFrom_append (line : UInt32) (closed : Bool) (front : List Char) :
    ∃ ts, EndsLine ts ∧ ∀ back, scanFrom line closed (front ++ '\n' :: back) =
      ts ++ scanFrom (line + UInt32.ofNat (front.count '\n' + 1)) true back := by
  induction front using induction_lines generalizing line closed with
  | last front hfront =>
    refine ⟨lineTokens line front ++ [⟨line, .eol, "\n", .none⟩], ?_, ?_⟩
    · exact (endsLine_singleton rfl).append_left _
    · intro back
      rw [scanFrom_line hfront, List.count_eq_zero.mpr hfront, List.append_assoc]
      rfl
  | line first middle hfirst ih =>
    obtain ⟨ts, hends, hts⟩ := ih (line + 1) true
    refine ⟨lineTokens line first ++ ⟨line, .eol, "\n", .none⟩ :: ts, ?_, ?_⟩
    · rw [List.append_cons]
      exact hends.append_left _
    · intro back
      have hnext : line + UInt32.ofNat ((first ++ '\n' :: middle).count '\n' + 1) =
          line + 1 + UInt32.ofNat (middle.count '\n' + 1) := by
        rw [count_newline_line hfirst, Nat.add_comm, UInt32.ofNat_add 1, UInt32.add_assoc]
        rfl
      rw [List.append_assoc, List.cons_append, scanFrom_line hfirst, hts, hnext,
        List.append_assoc, List.cons_append]

/-- After a line end it makes no difference to the prepared stream whether the rest of a text is
taken as open. -/
theorem collapseLinesFrom_scanFrom (line : UInt32) (text : List Char) :
    collapseLinesFrom true ((scanFrom line true text).filter (!·.kind.isTrivia)) =
      collapseLinesFrom true ((scanFrom line false text).filter (!·.kind.isTrivia)) := by
  cases text with
  | nil => simp [scanFrom, collapseLinesFrom, eof, impliedEol, Kind.isTrivia]
  | cons c text => rw [scanFrom, scanFrom]

/-- The prepared tokens of a text after the end of a line. -/
def prepareNext (text : List Char) : List Token :=
  collapseLinesFrom true ((scan text).filter (!·.kind.isTrivia))

/-- They are all prepared tokens of the text, except for the end of an empty line at its start. -/
theorem prepare_eq_prepareNext (text : List Char) :
    prepare (scan text) = prepareNext text ∨
      ∃ e, e.kind = .eol ∧ prepare (scan text) = e :: prepareNext text := by
  rw [prepare_eq, prepareNext]
  cases (scan text).filter (!·.kind.isTrivia) with
  | nil => exact .inl rfl
  | cons t ts =>
    by_cases heol : t.kind = .eol
    · exact .inr ⟨t, heol, by rw [collapseLinesFrom_eol heol, collapseLinesFrom_eol heol]; rfl⟩
    · exact .inl (by rw [collapseLinesFrom_word heol, collapseLinesFrom_word heol])

/-- The prepared tokens of a text after the lines of another one. -/
theorem prepare_scan_append (front : List Char) :
    ∃ ts, ∀ back, prepare (scan (front ++ '\n' :: back)) =
      ts ++ (prepareNext back).map (shift (UInt32.ofNat (front.count '\n' + 1))) := by
  obtain ⟨ts, hends, hts⟩ := exists_scanFrom_append 1 false front
  have hkept : EndsLine (ts.filter (!·.kind.isTrivia)) := by
    obtain ⟨before, e, rfl, he⟩ := hends
    rw [List.filter_append, List.filter_cons_of_pos (by simp [he, Kind.isTrivia])]
    exact (endsLine_singleton he).append_left _
  refine ⟨collapseLinesFrom false (ts.filter (!·.kind.isTrivia)), fun back ↦ ?_⟩
  rw [prepare_eq, scan, hts, List.filter_append, collapseLinesFrom_append hkept,
    collapseLinesFrom_scanFrom, scanFrom_shift, filter_shift,
    (rewords_shift _).collapseLinesFrom_map, prepareNext, scan]

/-! ### Lines of tokens -/

/-- A token of a text is on one of its lines. -/
theorem line_of_mem_scanFrom {line : UInt32} {closed : Bool} {text : List Char} {t : Token}
    (h : t ∈ scanFrom line closed text) :
    ∃ k ≤ text.count '\n', t.line = line + UInt32.ofNat k := by
  induction text using induction_lines generalizing line closed with
  | last text hline =>
    rw [scanFrom_last hline, List.mem_append] at h
    refine ⟨0, Nat.zero_le _, ?_⟩
    rcases h with hfirst | hend
    · simp [(lineTokens_spec hline t hfirst).1]
    · have hend : t = impliedEol line ∨ t = eof line := by
        split at hend <;> simp_all
      rcases hend with rfl | rfl <;> simp [eof, impliedEol]
  | line front back hfront ih =>
    rw [scanFrom_line hfront, List.mem_append, List.mem_cons] at h
    rw [count_newline_line hfront]
    rcases h with hfirst | rfl | hback
    · exact ⟨0, Nat.zero_le _, by simp [(lineTokens_spec hfront t hfirst).1]⟩
    · exact ⟨0, Nat.zero_le _, by simp⟩
    · obtain ⟨k, hk, hnumber⟩ := ih hback
      refine ⟨1 + k, by omega, ?_⟩
      rw [hnumber, UInt32.ofNat_add, UInt32.add_assoc]
      rfl

end OrderFile.Token
