import OrderFile.Proofs.Token.Respaced
import OrderFile.Proofs.Token.Reworded

/-!
Lines that end with a carriage return and a newline. A carriage return before a newline is a space
that means nothing, unless a quote is open there, in which case it is the last character of the
quoted text: `prepare_scan_withReturns`.
-/

set_option autoImplicit false

namespace OrderFile.Token

/-- The text with a carriage return before each newline. -/
def withReturns (text : List Char) : List Char :=
  text.flatMap fun c ↦ if c = '\n' then ['\r', '\n'] else [c]

/-- Whether a token is a newline of the text. -/
def isNewline (t : Token) : Bool :=
  t.kind == .eol && t.lexeme == "\n"

/-- The stream with more text in each token whose quote is still open at a newline. -/
def extendOpen (more : String) : List Token → List Token
  | [] => []
  | t :: ts =>
    (if t.isUnclosed && ts.head?.any isNewline then t.mapText (· ++ more) else t) ::
      extendOpen more ts

section

variable {n : UInt32} {c : Char} {text line front back : List Char} {t e : Token}
  {ts rest : List Token} {more : String}

theorem withReturns_of_not_mem (h : '\n' ∉ text) : withReturns text = text := by
  have hsame : ∀ c ∈ text, (if c = '\n' then ['\r', '\n'] else [c]) = [c] :=
    fun c hc ↦ if_neg (ne_of_mem_of_not_mem hc h)
  rw [withReturns, List.flatMap_congr hsame, List.flatMap_singleton']

/-- A line that ends with a newline gets a carriage return before it. -/
theorem withReturns_line (h : '\n' ∉ front) (back : List Char) :
    withReturns (front ++ '\n' :: back) = (front ++ ['\r']) ++ '\n' :: withReturns back := by
  have hfront := withReturns_of_not_mem h
  rw [withReturns] at hfront ⊢
  rw [List.flatMap_append, hfront, List.flatMap_cons, if_pos rfl, List.append_assoc]
  rfl

/-! ### Open quotes -/

theorem kind_of_isUnclosed (h : t.isUnclosed = true) : t.kind = .quotedText :=
  eq_of_beq ((Bool.and_eq_true _ _).mp h).1

/-- A token whose quote is closed is not extended. -/
theorem extendOpen_cons_of_closed (h : t.isUnclosed = false) (ts : List Token) :
    extendOpen more (t :: ts) = t :: extendOpen more ts := by
  rw [extendOpen, h, Bool.false_and, if_neg Bool.false_ne_true]

theorem isUnclosed_of_kind (h : t.kind ≠ .quotedText) : t.isUnclosed = false :=
  Bool.eq_false_iff.mpr fun hopen ↦ h (kind_of_isUnclosed hopen)

theorem kind_of_isNewline (h : t.isNewline = true) : t.kind = .eol :=
  eq_of_beq ((Bool.and_eq_true _ _).mp h).1

theorem extendOpen_newline (h : e.isNewline = true) (ts : List Token) :
    extendOpen more (e :: ts) = e :: extendOpen more ts :=
  extendOpen_cons_of_closed (isUnclosed_of_kind (by rw [kind_of_isNewline h]; decide)) ts

/-- Nothing changes where there is no newline. -/
theorem extendOpen_of_forall (h : ∀ t ∈ ts, t.isNewline = false) : extendOpen more ts = ts := by
  induction ts with
  | nil => rfl
  | cons t ts ih =>
    obtain ⟨-, hothers⟩ := List.forall_mem_cons.mp h
    have hnext : ts.head?.any isNewline = false := by
      cases ts with
      | nil => rfl
      | cons s ts => exact hothers s List.mem_cons_self
    rw [extendOpen, hnext, Bool.and_false, if_neg Bool.false_ne_true, ih hothers]

/-! ### Lines -/

/-- A carriage return is a space. -/
theorem words_return : words n ['\r'] = [] := by
  have htrivia : (cut '\r' []).kind.isTrivia = true := by decide
  rw [words_cons, if_pos htrivia, List.nil_append]
  exact words_nil

/-- Comments and spaces run on over a carriage return. -/
theorem words_rest_of_isTrivia (h : (cut c text).kind.isTrivia = true) :
    (cut c (text ++ ['\r'])).kind.isTrivia = true ∧
      words n (cut c (text ++ ['\r'])).rest = words n ((cut c text).rest ++ ['\r']) := by
  rcases cut_cases c with ⟨kind, -, hkind, hcut⟩ | ⟨kind, inClass, hkind, hspace, hcut⟩ |
    ⟨-, hcut⟩ | ⟨-, hcut⟩
  · rw [hcut, hkind] at h
    cases h
  · rw [hcut, hcut]
    refine ⟨hkind, ?_⟩
    simp only [cutWhile]
    rw [← List.cons_append, List.dropWhile_append]
    split
    · next hnil =>
      rw [List.isEmpty_iff.mp hnil, List.nil_append, words_return,
        List.dropWhile_cons_of_pos (hspace '\r' (by decide)), List.dropWhile_nil, words_nil]
    · rfl
  · rw [hcut] at h
    cases h
  · have hmem := kind_mem_of_numberOrWord hcut text
    have hother : ∀ kind ∈ Kind.numbers ++ Kind.words, kind.isTrivia = false := by decide
    rw [hother _ hmem] at h
    cases h

/-- A token that is not open ends before a carriage return. -/
theorem cut_append_return (hkind : (cut c text).kind.isTrivia = false)
    (hclosed : ((cut c text).token n).isUnclosed = false) :
    cut c (text ++ ['\r']) = { cut c text with rest := (cut c text).rest ++ ['\r'] } := by
  obtain ⟨d, front, hlexeme⟩ := List.exists_cons_of_ne_nil (cut_lexeme_ne_nil c text)
  have happend := cut_append c text
  rw [hlexeme] at happend
  obtain ⟨rfl, htext⟩ := List.cons.inj happend
  replace htext : front ++ (cut d text).rest = text := htext
  have hother : ((cut d text).rest ++ ['\r']).head?.all (!isWordChar ·) = true ∨
      ((cut d text).rest ++ ['\r']).head? = (cut d text).rest.head? := by
    cases (cut d text).rest with
    | nil => exact .inl (by decide)
    | cons e rest => exact .inr rfl
  have hagain := cut_again hkind hlexeme (fun hopen ↦ absurd (hclosed.symm.trans hopen)
    Bool.false_ne_true) hother
  rwa [← List.append_assoc, htext] at hagain

/-- A carriage return after an open quote belongs to the quoted text. -/
theorem quotedParts_append_return (hline : '\n' ∉ text) (h : (quotedParts text).closing = []) :
    quotedParts (text ++ ['\r']) = ⟨(quotedParts text).inner ++ ['\r'], [], []⟩ := by
  fun_induction quotedParts text with
  | case1 => rfl
  | case2 text ih =>
    rw [List.cons_append, List.cons_append, quotedParts, ih (by simp_all) h]
    rfl
  | case3 => cases h
  | case4 => simp at hline
  | case5 c text hescape hclose _ ih =>
    have hnext (back : List Char) (hc : c = '\\') : text ++ ['\r'] ≠ '"' :: back := by
      intro hquote
      cases text with
      | nil => cases hquote
      | cons d text =>
        obtain ⟨rfl, -⟩ := List.cons.inj hquote
        exact hescape text hc rfl
    rw [List.cons_append, quotedParts, if_neg hclose, if_neg (by simp_all), ih (by simp_all) h]
    · rfl
    · exact fun back hc ↦ hnext back hc

theorem unescapeQuotes_append_return (text : List Char) :
    unescapeQuotes (text ++ ['\r']) = unescapeQuotes text ++ ['\r'] := by
  fun_induction unescapeQuotes text with
  | case1 => rfl
  | case2 text ih =>
    rw [List.cons_append, List.cons_append, unescapeQuotes, ih, List.cons_append]
  | case3 c text hescape ih =>
    rw [List.cons_append, unescapeQuotes, ih, List.cons_append]
    intro back hc hquote
    cases text with
    | nil => cases hquote
    | cons d text =>
      obtain ⟨rfl, -⟩ := List.cons.inj hquote
      exact hescape text hc rfl

/-- A token that is open goes on to a carriage return. -/
theorem cut_append_return_of_isUnclosed (hline : '\n' ∉ c :: text)
    (h : ((cut c text).token n).isUnclosed = true) :
    (cut c (text ++ ['\r'])).token n = ((cut c text).token n).mapText (· ++ "\r") ∧
      (cut c (text ++ ['\r'])).rest = [] := by
  obtain ⟨rfl, hcut, hclosing⟩ := cut_of_isUnclosed h
  have hparts := quotedParts_append_return (List.not_mem_of_not_mem_cons hline) hclosing
  have hreturn : cut '"' (text ++ ['\r']) = cutQuoted (text ++ ['\r']) := rfl
  rw [hreturn, hcut, cutQuoted, cutQuoted, hparts, hclosing, unescapeQuotes_append_return]
  refine ⟨?_, rfl⟩
  simp [Cut.token, mapText, Payload.mapText, String.ofList_append, String.append_assoc]

/-- A carriage return at the end of a line is the end of an open quote, and else nothing. -/
theorem words_append_return (hline : '\n' ∉ line) (he : e.isNewline = true) :
    words n (line ++ ['\r']) ++ e :: extendOpen "\r" rest =
      extendOpen "\r" (words n line ++ e :: rest) := by
  fun_induction lineTokens n line with
  | case1 =>
    rw [List.nil_append, words_return, words_nil, List.nil_append, List.nil_append,
      extendOpen_newline he]
  | case2 c text ih =>
    have hrest := ih (not_mem_cut_rest hline)
    cases htrivia : (cut c text).kind.isTrivia with
    | true =>
      obtain ⟨hkind, hsame⟩ := words_rest_of_isTrivia htrivia
      rw [List.cons_append, words_cons_of_isTrivia hkind, words_cons_of_isTrivia htrivia, hsame,
        hrest]
    | false =>
      rw [List.cons_append, words_cons_of_not_isTrivia htrivia, List.cons_append]
      cases hopen : ((cut c text).token n).isUnclosed with
      | false =>
        have hagain := cut_append_return htrivia hopen
        rw [words_cons_of_not_isTrivia (by rw [hagain]; exact htrivia), hagain,
          extendOpen_cons_of_closed hopen, ← hrest]
        rfl
      | true =>
        obtain ⟨htoken, hnil⟩ := cut_append_return_of_isUnclosed hline hopen
        have hkind : (cut c (text ++ ['\r'])).kind = (cut c text).kind := congrArg kind htoken
        rw [words_cons_of_not_isTrivia (hkind ▸ htrivia), htoken, hnil, rest_of_isUnclosed hline hopen,
          words_nil, List.nil_append, extendOpen, hopen, extendOpen_newline he]
        simp [he]

/-! ### Streams -/

/-- The last line of a text has no newline. -/
theorem isNewline_of_mem_last {closed : Bool} (h : '\n' ∉ text) (ht : t ∈ scanFrom n closed text) :
    t.isNewline = false := by
  rw [scanFrom_last h, List.mem_append] at ht
  rcases ht with hline | hend
  · rw [isNewline, beq_false_of_ne (lineTokens_spec h t hline).2.1, Bool.false_and]
  · split at hend
    · obtain rfl := List.mem_singleton.mp hend
      rfl
    · rcases List.mem_cons.mp hend with rfl | hlast
      · rfl
      · obtain rfl := List.mem_singleton.mp hlast
        rfl

/-- With carriage returns before the newlines a text has the same tokens, but for the quoted texts
that are still open there. -/
theorem filter_scanFrom_withReturns (n : UInt32) (closed : Bool) (text : List Char) :
    (scanFrom n closed (withReturns text)).filter (!·.kind.isTrivia) =
      extendOpen "\r" ((scanFrom n closed text).filter (!·.kind.isTrivia)) := by
  induction text using induction_lines generalizing n closed with
  | last text h =>
    rw [withReturns_of_not_mem h]
    exact (extendOpen_of_forall fun t ht ↦ isNewline_of_mem_last h (List.mem_filter.mp ht).1).symm
  | line front back hfront ih =>
    have hreturn : '\n' ∉ front ++ ['\r'] := by simpa using hfront
    rw [withReturns_line hfront, filter_scanFrom_line hreturn, filter_scanFrom_line hfront, ih]
    exact words_append_return hfront rfl

/-- Line ends are collapsed alike in a stream with extended texts. -/
theorem collapseLinesFrom_extendOpen (after : Bool) (ts : List Token) :
    collapseLinesFrom after (extendOpen more ts) = extendOpen more (collapseLinesFrom after ts) := by
  have hhead (ts : List Token) : (collapseLinesFrom false ts).head? = ts.head? := by
    cases ts with
    | nil => rfl
    | cons t ts => rw [collapseLinesFrom, if_neg (by simp), List.head?_cons, List.head?_cons]
  induction ts generalizing after with
  | nil => rfl
  | cons t ts ih =>
    by_cases ht : t.kind = .eol
    · have hclosed : t.isUnclosed = false := isUnclosed_of_kind (by rw [ht]; decide)
      rw [extendOpen_cons_of_closed hclosed, collapseLinesFrom_eol ht, collapseLinesFrom_eol ht, ih]
      cases after with
      | true => rfl
      | false => exact (extendOpen_cons_of_closed hclosed _).symm
    · rw [extendOpen, collapseLinesFrom_word ht, extendOpen, hhead, ← ih]
      split
      · exact collapseLinesFrom_word ht
      · exact collapseLinesFrom_word ht

/-- A text with a carriage return before each newline has the tokens of the text, and the same
carriage return at the end of each quoted text whose quote is still open there. -/
theorem prepare_scan_withReturns (text : List Char) :
    prepare (scan (withReturns text)) = extendOpen "\r" (prepare (scan text)) := by
  rw [prepare_eq, prepare_eq, scan, scan, filter_scanFrom_withReturns, collapseLinesFrom_extendOpen]

end

end OrderFile.Token
