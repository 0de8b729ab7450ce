import Mathlib.Tactic.ByContra
import OrderFile.Proofs.Token.Printed

/-!
Tokens cut again with other text after them. What a token is depends on its own text, and on the
character after it only as far as that ends the token; only a text whose quote is not closed goes on
to the end of its line, and has to stay at the end of one: `cut_again`.
-/

set_option autoImplicit false

namespace OrderFile.Token

section

variable {n : UInt32} {c : Char} {text other : List Char} {k : Cut}

/-! ### Numbers -/

/-- What a number takes of the text after its digits. It takes the same of another text that has a
delimiter after that. -/
theorem exists_mark_of_numberBefore {sign whole after : List Char}
    (h : numberBefore sign whole after = some k)
    (hrest : k.rest.head?.all isDelimiter = true) :
    ∃ mark, k.lexeme = sign ++ (whole ++ mark) ∧ (∀ d ∈ mark, isWordChar d = true) ∧
      ∀ other : List Char, other.head?.all isDelimiter = true →
        (mark ++ other).head?.all (!Char.isDigit ·) = true ∧
          numberBefore sign whole (mark ++ other) = some { k with rest := other } := by
  unfold numberBefore at h
  split at h
  · next fraction rest hfraction =>
    obtain rfl := Option.some.inj h
    obtain ⟨-, hne, hdigits, -⟩ := fractionParts?_eq_some_iff.mp hfraction
    refine ⟨'.' :: fraction, List.append_assoc .., List.forall_mem_cons.mpr ⟨rfl, fun d hd ↦
      isWordChar_of_isDigit (hdigits d hd)⟩, fun other hother ↦ ⟨rfl, ?_⟩⟩
    exact numberBefore_fraction
      (fractionParts?_eq_some_iff.mpr ⟨rfl, hne, hdigits, not_isDigit_of_delimited hother⟩)
  · split at h
    · obtain ⟨n, hn, rfl⟩ := Option.map_eq_some_iff.mp h
      refine ⟨['%'], List.append_assoc .., List.forall_mem_singleton.mpr rfl,
        fun other _ ↦ ⟨rfl, ?_⟩⟩
      rw [List.singleton_append, numberBefore_percent, hn, Option.map_some]
    · obtain ⟨n, hn, rfl⟩ := Option.map_eq_some_iff.mp h
      refine ⟨[], by rw [List.append_nil], List.forall_mem_nil _,
        fun other hother ↦ ⟨not_isDigit_of_delimited hother, ?_⟩⟩
      rw [List.nil_append, numberBefore_delimited hother, hn, Option.map_some]

/-- A number is one whatever comes after it, as long as that starts with a delimiter. -/
theorem cutNumber?_again (h : startsNumber c text = true) (hk : cutNumber? (c :: text) = some k) :
    k.rest.head?.all isDelimiter = true ∧ (∀ d ∈ k.lexeme, isWordChar d = true) ∧
      ∀ other : List Char, other.head?.all isDelimiter = true →
        cutNumber? (k.lexeme ++ other) = some { k with rest := other } := by
  obtain ⟨sign, whole, after, htext, hnumeral, hafter⟩ := exists_isNumeral h
  rw [htext, cutNumber?_of_isNumeral hnumeral hafter, Option.filter_eq_some_iff] at hk
  obtain ⟨hfound, hrest⟩ := hk
  obtain ⟨mark, hlexeme, hmark, hagain⟩ := exists_mark_of_numberBefore hfound hrest
  refine ⟨hrest, ?_, fun other hother ↦ ?_⟩
  · rw [hlexeme, ← List.append_assoc]
    exact List.forall_mem_append.mpr ⟨hnumeral.isWordChar, hmark⟩
  · obtain ⟨hstop, hnumber⟩ := hagain other hother
    rw [hlexeme, List.append_assoc, List.append_assoc, cutNumber?_of_isNumeral hnumeral hstop,
      hnumber, Option.filter_some, if_pos hother]
    rw [hlexeme]

/-! ### Words -/

/-- Whether a text starts like a number shows before what ends the number. -/
theorem startsNumber_again {front rest : List Char}
    (hrest : rest.head?.all (!Char.isDigit ·) = true)
    (hother : other.head?.all (!Char.isDigit ·) = true) :
    startsNumber c (front ++ other) = startsNumber c (front ++ rest) := by
  have hnone {back : List Char} (h : back.head?.all (!Char.isDigit ·) = true) :
      back.head?.any Char.isDigit = false := by
    cases back with
    | nil => rfl
    | cons d back => simpa using h
  cases front with
  | nil => simp only [startsNumber, List.nil_append, hnone hrest, hnone hother]
  | cons d front => rfl

/-- A word is cut alike before anything that ends it. -/
theorem cutWord_again {word rest : List Char} (hword : ∀ d ∈ word, isWordChar d = true)
    (hrest : rest.head?.all (!isWordChar ·) = true)
    (hother : other.head?.all (!isWordChar ·) = true) :
    cutWord (word ++ other) = { cutWord (word ++ rest) with rest := other } := by
  obtain ⟨htake, hdrop⟩ := takeWhile_append_of_stop hword hother
  obtain ⟨htake', -⟩ := takeWhile_append_of_stop hword hrest
  rw [cutWord, cutWord, htake, hdrop, htake']

/-- Whether a word is a number does not depend on what ends it. -/
theorem cutNumber?_eq_none_again {front rest : List Char}
    (hstart : startsNumber c (front ++ rest) = true)
    (hrest : rest.head?.all (!isWordChar ·) = true)
    (hother : other.head?.all (!isWordChar ·) = true)
    (h : cutNumber? (c :: front ++ rest) = none) : cutNumber? (c :: front ++ other) = none := by
  by_contra hsome
  obtain ⟨k, hk⟩ := Option.ne_none_iff_exists'.mp hsome
  have hnoDigit {back : List Char} (hback : back.head?.all (!isWordChar ·) = true) :=
    not_isDigit_of_delimited (all_of_imp hback fun _ ↦ isDelimiter_of_not_isWordChar)
  rw [startsNumber_again (hnoDigit hother) (hnoDigit hrest)] at hstart
  obtain ⟨hdelimited, hlexeme, hagain⟩ := cutNumber?_again hstart hk
  -- The number is the front of the word, so it is found before the other end as well.
  have hfront : ∃ back, c :: front = k.lexeme ++ back ∧ k.rest = back ++ other := by
    rcases List.append_eq_append_iff.mp (cutNumber?_append hk) with
      ⟨back, hfront, hback⟩ | ⟨extra, hextra, hback⟩
    · exact ⟨back, hfront, hback⟩
    · cases extra with
      | nil => exact ⟨[], by simpa using hextra.symm, by simpa using hback.symm⟩
      | cons d extra =>
        have hd := hlexeme d (by simp [hextra])
        rw [hback] at hother
        simp [hd] at hother
  obtain ⟨back, hword', hback⟩ := hfront
  have hend : (back ++ rest).head?.all isDelimiter = true := by
    cases back with
    | nil => exact all_of_imp hrest fun _ ↦ isDelimiter_of_not_isWordChar
    | cons d back =>
      rw [hback] at hdelimited
      exact hdelimited
  rw [hword', List.append_assoc, hagain _ hend] at h
  cases h

/-! ### Quoted texts -/

/-- A quoted text is the same whatever comes after its closing quote, and where there is none, at
the end of the line. -/
theorem quotedParts_again (h : (quotedParts text).closing = [] → other = []) :
    quotedParts ((quotedParts text).inner ++ (quotedParts text).closing ++ other) =
      { quotedParts text with rest := other } := by
  fun_induction quotedParts text with
  | case1 =>
    rw [h rfl]
    rfl
  | case2 text ih =>
    simp only [QuotedParts.cons, List.cons_append] at h ih ⊢
    rw [quotedParts, ih h]
    rfl
  | case3 text => simp [quotedParts]
  | case4 text =>
    rw [h rfl]
    rfl
  | case5 c text hescape hclose hline ih =>
    simp only [QuotedParts.cons, List.cons_append] at h ih ⊢
    have hnext (back : List Char) (hc : c = '\\') :
        (quotedParts text).inner ++ (quotedParts text).closing ++ other ≠ '"' :: back := by
      intro hquote
      have happend := quotedParts_append text
      cases hfront : (quotedParts text).inner ++ (quotedParts text).closing with
      | nil =>
        rw [hfront, h (List.append_eq_nil_iff.mp hfront).2] at hquote
        cases hquote
      | cons d front =>
        rw [hfront, List.cons_append] at hquote happend
        obtain ⟨rfl, -⟩ := List.cons.inj hquote
        exact hescape _ hc happend.symm
    rw [quotedParts, if_neg hclose, if_neg hline, ih h]
    · rfl
    · exact fun back hc ↦ hnext back hc

/-! ### Whole tokens -/

/-- Whether a token is a quoted text that is not closed before its line ends. -/
def isUnclosed (t : Token) : Bool :=
  t.kind == .quotedText && (quotedParts (t.lexeme.toList.drop 1)).closing.isEmpty

/-- A cut as a token of a line. -/
def Cut.token (n : UInt32) (k : Cut) : Token :=
  ⟨n, k.kind, String.ofList k.lexeme, k.payload⟩

/-- A comment or spaces at the front of a line add no words to it. -/
theorem words_cons_of_isTrivia (h : (cut c text).kind.isTrivia = true) :
    words n (c :: text) = words n (cut c text).rest := by
  rw [words_cons, if_pos h, List.nil_append]

theorem words_cons_of_not_isTrivia (h : (cut c text).kind.isTrivia = false) :
    words n (c :: text) = (cut c text).token n :: words n (cut c text).rest := by
  rw [words_cons, if_neg (h ▸ Bool.false_ne_true)]
  rfl

/-- What the first character says about a cut: it is the whole token, it starts trivia, which run on
over spaces, it opens a quote, or it starts a number or a word. -/
theorem cut_cases (c : Char) :
    (∃ kind, kind ≠ .quotedText ∧ kind.isTrivia = false ∧
        ∀ text, cut c text = ⟨kind, .none, [c], text⟩) ∨
      (∃ kind inClass, kind.isTrivia = true ∧ (∀ d, isSpace d = true → inClass d = true) ∧
        ∀ text, cut c text = cutWhile kind inClass (c :: text)) ∨
      (c = '"' ∧ ∀ text, cut c text = cutQuoted text) ∨
      isWordChar c = true ∧ ∀ text, cut c text =
        if startsNumber c text then (cutNumber? (c :: text)).getD (cutWord (c :: text))
        else cutWord (c :: text) := by
  by_cases hline : c = '\n'
  · exact .inl ⟨.eol, by decide, rfl, fun _ ↦ if_pos hline⟩
  by_cases hcomma : c = ','
  · exact .inl ⟨.comma, by decide, rfl, fun _ ↦ by rw [cut, if_neg hline, if_pos hcomma]⟩
  by_cases hopen : c = '('
  · refine .inl ⟨.parenOpen, by decide, rfl, fun _ ↦ ?_⟩
    rw [cut, if_neg hline, if_neg hcomma, if_pos hopen]
  by_cases hclose : c = ')'
  · refine .inl ⟨.parenClose, by decide, rfl, fun _ ↦ ?_⟩
    rw [cut, if_neg hline, if_neg hcomma, if_neg hopen, if_pos hclose]
  have hsign (text : List Char) : cut c text =
      if c = ';' then cutWhile .comment (· != '\n') (c :: text)
      else if c = '"' then cutQuoted text
      else if isSpace c then cutWhile .spaces isSpace (c :: text)
      else if startsNumber c text then (cutNumber? (c :: text)).getD (cutWord (c :: text))
      else cutWord (c :: text) := by
    rw [cut, if_neg hline, if_neg hcomma, if_neg hopen, if_neg hclose]
  by_cases hcomment : c = ';'
  · refine .inr (.inl ⟨.comment, (· != '\n'), rfl, fun d hd ↦ ?_, fun _ ↦ ?_⟩)
    · exact ((Bool.and_eq_true _ _).mp hd).1
    · rw [hsign, if_pos hcomment]
  by_cases hquote : c = '"'
  · exact .inr (.inr (.inl ⟨hquote, fun _ ↦ by rw [hsign, if_neg hcomment, if_pos hquote]⟩))
  by_cases hspace : isSpace c = true
  · refine .inr (.inl ⟨.spaces, isSpace, rfl, fun _ ↦ id, fun _ ↦ ?_⟩)
    rw [hsign, if_neg hcomment, if_neg hquote, if_pos hspace]
  · refine .inr (.inr (.inr ⟨?_, fun _ ↦ ?_⟩))
    · simp [isWordChar, hline, hspace]
    · rw [hsign, if_neg hcomment, if_neg hquote, if_neg hspace]

theorem kind_mem_of_numberOrWord (hcut : ∀ text, cut c text =
      if startsNumber c text then (cutNumber? (c :: text)).getD (cutWord (c :: text))
      else cutWord (c :: text)) (text : List Char) :
    (cut c text).kind ∈ Kind.numbers ++ Kind.words := by
  rw [hcut]
  split
  · exact numberOrWord_mem _
  · exact List.mem_append_right _ (cutWord_mem_words _)

/-- A word is cut up to where it ends. -/
theorem head?_rest_cutWord (text : List Char) :
    (cutWord text).rest.head?.all (!isWordChar ·) = true :=
  head?_dropWhile_all ..

theorem isWordChar_of_mem_cutWord (text : List Char) :
    ∀ d ∈ (cutWord text).lexeme, isWordChar d = true :=
  fun _ ↦ of_mem_takeWhile

/-- What starts like a number or a word is cut again from its own text. -/
theorem cut_again_of_isWordChar {front rest : List Char} (hcut : ∀ text, cut c text =
      if startsNumber c text then (cutNumber? (c :: text)).getD (cutWord (c :: text))
      else cutWord (c :: text))
    (hk : cut c (front ++ rest) = k) (hlexeme : k.lexeme = c :: front) (hrest : k.rest = rest)
    (hother : other.head?.all (!isWordChar ·) = true ∨ other.head? = rest.head?) :
    cut c (front ++ other) = { k with rest := other } := by
  subst hrest
  -- A text that was cut as a word may have failed as a number, and has to fail again.
  have hword (h : cutWord (c :: (front ++ k.rest)) = k) :
      cutWord (c :: (front ++ other)) = { k with rest := other } ∧
        (cutNumber? (c :: (front ++ k.rest)) = none →
          startsNumber c (front ++ k.rest) = true → cutNumber? (c :: (front ++ other)) = none) ∧
        startsNumber c (front ++ other) = startsNumber c (front ++ k.rest) := by
    have hstop : k.rest.head?.all (!isWordChar ·) = true := by
      rw [← h]
      exact head?_rest_cutWord _
    have hchars : ∀ d ∈ c :: front, isWordChar d = true := by
      rw [← hlexeme, ← h]
      exact isWordChar_of_mem_cutWord _
    have hend : other.head?.all (!isWordChar ·) = true := hother.elim id fun heq ↦ heq ▸ hstop
    have hnoDigit {back : List Char} (hback : back.head?.all (!isWordChar ·) = true) :=
      not_isDigit_of_delimited (all_of_imp hback fun _ ↦ isDelimiter_of_not_isWordChar)
    refine ⟨?_, fun hnone hstart ↦ cutNumber?_eq_none_again hstart hstop hend hnone,
      startsNumber_again (hnoDigit hstop) (hnoDigit hend)⟩
    rw [← List.cons_append, cutWord_again hchars hstop hend, List.cons_append, h]
  rw [hcut] at hk ⊢
  by_cases hstart : startsNumber c (front ++ k.rest) = true
  · rw [if_pos hstart] at hk
    cases hnumber : cutNumber? (c :: (front ++ k.rest)) with
    | none =>
      rw [hnumber, Option.getD_none] at hk
      obtain ⟨hagain, hnone, hstart'⟩ := hword hk
      rw [hstart', if_pos hstart, hnone hnumber hstart, Option.getD_none, hagain]
    -- A number needs a delimiter after it, and whatever ends a word is one.
    | some found =>
      rw [hnumber, Option.getD_some] at hk
      subst hk
      obtain ⟨hdelimited, -, hagain⟩ := cutNumber?_again hstart hnumber
      have hend : other.head?.all isDelimiter = true := hother.elim
        (all_of_imp · fun _ ↦ isDelimiter_of_not_isWordChar) fun heq ↦ heq ▸ hdelimited
      have hfound := hagain other hend
      rw [hlexeme, List.cons_append] at hfound
      rw [startsNumber_again (not_isDigit_of_delimited hdelimited) (not_isDigit_of_delimited hend),
        if_pos hstart, hfound, Option.getD_some, hlexeme]
  · rw [if_neg hstart] at hk
    obtain ⟨hagain, -, hstart'⟩ := hword hk
    rw [hstart', if_neg hstart, hagain]

/-- A token that stands for something is cut again from its own text, whatever ends it there. -/
theorem cut_again {front : List Char} (hkind : (cut c text).kind.isTrivia = false)
    (hlexeme : (cut c text).lexeme = c :: front)
    (hclosed : ((cut c text).token n).isUnclosed = true → other = [])
    (hother : other.head?.all (!isWordChar ·) = true ∨ other.head? = (cut c text).rest.head?) :
    cut c (front ++ other) = { cut c text with rest := other } := by
  have htext : text = front ++ (cut c text).rest := by
    have happend := cut_append c text
    rw [hlexeme] at happend
    exact (List.cons.inj happend).2.symm
  rcases cut_cases c with ⟨kind, -, -, hcut⟩ | ⟨kind, inClass, htrivia, -, hcut⟩ | ⟨rfl, hcut⟩ |
    ⟨hc, hcut⟩
  · rw [hcut text] at hlexeme
    obtain rfl := (List.cons.inj hlexeme).2
    rw [hcut, hcut]
    rfl
  · rw [hcut, cutWhile, htrivia] at hkind
    cases hkind
  · have hfront : front = (quotedParts text).inner ++ (quotedParts text).closing := by
      rw [hcut] at hlexeme
      exact (List.cons.inj hlexeme).2.symm
    have hagain : quotedParts (front ++ other) = { quotedParts text with rest := other } := by
      rw [hfront]
      refine quotedParts_again fun hnone ↦ hclosed ?_
      have hinner := @quotedParts_again text [] fun _ ↦ rfl
      rw [List.append_nil] at hinner
      rw [isUnclosed, Cut.token, hlexeme, hcut, hfront, String.toList_ofList, List.drop_one,
        List.tail_cons, hinner, hnone]
      rfl
    rw [hcut, hcut, cutQuoted, hagain]
    rfl
  · exact cut_again_of_isWordChar hcut (by rw [← htext]) hlexeme rfl hother

/-! ### Quotes that are not closed -/

/-- A quote that is not closed takes the rest of its line. -/
theorem rest_of_closing_eq_nil (hline : '\n' ∉ text) (h : (quotedParts text).closing = []) :
    (quotedParts text).rest = [] := by
  fun_induction quotedParts text with
  | case1 => rfl
  | case2 text ih => exact ih (by simp_all) h
  | case3 => cases h
  | case4 => simp at hline
  | case5 c text _ _ _ ih => exact ih (List.not_mem_of_not_mem_cons hline) h

/-- Only a quote gives a token that is not closed. -/
theorem cut_of_isUnclosed (h : ((cut c text).token n).isUnclosed = true) :
    c = '"' ∧ cut c text = cutQuoted text ∧ (quotedParts text).closing = [] := by
  obtain ⟨hkind, hopen⟩ := (Bool.and_eq_true _ _).mp h
  replace hkind : (cut c text).kind = .quotedText := eq_of_beq hkind
  rcases cut_cases c with ⟨kind, hother, -, hcut⟩ | ⟨kind, inClass, htrivia, -, hcut⟩ |
    ⟨rfl, hcut⟩ | ⟨-, hcut⟩
  · rw [hcut] at hkind
    exact absurd hkind hother
  · obtain rfl : kind = .quotedText := (congrArg Cut.kind (hcut text)).symm.trans hkind
    cases htrivia
  · refine ⟨rfl, hcut text, ?_⟩
    by_contra hclosed
    have hagain := @quotedParts_again text [] fun hnone ↦ absurd hnone hclosed
    rw [List.append_nil] at hagain
    rw [Cut.token, hcut, cutQuoted, String.toList_ofList, List.cons_append, List.drop_one,
      List.tail_cons, hagain] at hopen
    simp [hclosed] at hopen
  · have hmem := kind_mem_of_numberOrWord hcut text
    rw [hkind] at hmem
    exact absurd hmem (by decide)

/-- A text that is not closed takes the rest of its line. -/
theorem rest_of_isUnclosed (hline : '\n' ∉ c :: text)
    (h : ((cut c text).token n).isUnclosed = true) : (cut c text).rest = [] := by
  obtain ⟨-, hcut, hclosing⟩ := cut_of_isUnclosed h
  rw [hcut]
  exact rest_of_closing_eq_nil (List.not_mem_of_not_mem_cons hline) hclosing

/-! ### Tokens on their own -/

/-- A token that is cut from its own text, whatever text comes after it to end it. After a text that
is not closed nothing may come. -/
def StandsAlone (t : Token) : Prop :=
  t.kind.isTrivia = false ∧ ∃ c front, t.lexeme.toList = c :: front ∧
    ∀ other : List Char, other.head?.all (!isWordChar ·) = true →
      (t.isUnclosed = true → other = []) →
        cut c (front ++ other) = ⟨t.kind, t.payload, c :: front, other⟩

/-- Whatever is cut off a text can be cut from its own text again. -/
theorem standsAlone_cut (h : (cut c text).kind.isTrivia = false) :
    ((cut c text).token n).StandsAlone := by
  obtain ⟨d, front, hlexeme⟩ := List.exists_cons_of_ne_nil (cut_lexeme_ne_nil c text)
  have happend := cut_append c text
  rw [hlexeme] at happend
  obtain ⟨rfl, -⟩ := List.cons.inj happend
  refine ⟨h, d, front, by rw [Cut.token, String.toList_ofList, hlexeme], fun other hother hclosed ↦ ?_⟩
  rw [cut_again h hlexeme hclosed (.inl hother), ← hlexeme]
  rfl

/-- Every token of a text that is neither trivia nor an end stands on its own, on one line. -/
theorem standsAlone_of_mem_scanFrom {closed : Bool} {t : Token} (h : t ∈ scanFrom n closed text)
    (hkind : t.kind.isTrivia = false) (heol : t.kind ≠ .eol) (heof : t.kind ≠ .eof) :
    t.StandsAlone := by
  fun_induction scanFrom n closed text with
  | case1 n =>
    obtain rfl := List.mem_singleton.mp h
    exact absurd rfl heof
  | case2 n closed =>
    rcases List.mem_cons.mp h with rfl | hlast
    · exact absurd rfl heol
    · obtain rfl := List.mem_singleton.mp hlast
      exact absurd rfl heof
  | case3 n closed c text k ih =>
    rcases List.mem_cons.mp h with rfl | hrest
    · exact standsAlone_cut hkind
    · exact ih hrest

end

end OrderFile.Token
