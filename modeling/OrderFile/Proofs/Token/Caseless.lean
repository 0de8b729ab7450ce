import Mathlib
import OrderFile.Proofs.Token.Reworded
import OrderFile.Proofs.Token.Recut

/-!
Texts in lower case. No class of characters that tells tokens apart holds a letter, and words are
compared in lower case, so the tokens of a text in lower case are the tokens of the text in lower
case: `scan_toLower`.
-/

set_option autoImplicit false

namespace OrderFile

theorem toLower_eq_self {c : Char} (h : c.isAlpha = false) : c.toLower = c := by
  refine Char.toLower_eq_of_not_isUpper fun hupper ↦ ?_
  rw [Char.isAlpha, hupper] at h
  cases h

/-- A class of characters without letters does not tell cases apart. -/
theorem apply_toLower {p : Char → Bool} (h : ∀ c, c.isAlpha = true → p c = false) (c : Char) :
    p c.toLower = p c := by
  by_cases hc : c.isAlpha = true
  · rw [h c hc, h c.toLower ((Char.isAlpha_toLower_eq_isAlpha c).trans hc)]
  · rw [toLower_eq_self (Bool.eq_false_iff.mpr hc)]

/-- Only a character that is no letter is the same in lower case as one that is no letter. -/
theorem toLower_eq_iff {c x : Char} (h : x.isAlpha = false) : c.toLower = x ↔ c = x := by
  have hclass := apply_toLower (p := (· == x)) (fun d hd ↦ by
    refine beq_false_of_ne ?_
    rintro rfl
    rw [hd] at h
    cases h) c
  simpa [beq_eq_beq] using hclass

/-- A word in lower case stays as it is. -/
theorem lowercase_lowercase (word : String) : lowercase (lowercase word) = lowercase word := by
  rw [lowercase, lowercase, String.toList_ofList, List.map_map]
  exact congrArg String.ofList (List.map_congr_left fun c _ ↦ Char.toLower_toLower_eq_toLower c)

namespace Token

/-- The token with its text in lower case. -/
def lower (t : Token) : Token :=
  t.mapText lowercase

/-- The cut of a text in lower case. -/
def Cut.lower (k : Cut) : Cut :=
  ⟨k.kind, k.payload.mapText lowercase, k.lexeme.map Char.toLower, k.rest.map Char.toLower⟩

/-- Tokens in lower case differ from the tokens in nothing that a parse depends on. -/
theorem rewords_lower : Rewords lower where
  kind _ := rfl
  integer? := integer?_mapText lowercase
  word t _ := lowercase_lowercase t.lexeme

section

variable {n : UInt32} {c : Char} {text : List Char} {k : Cut}

/-! ### Classes of characters -/

theorem isSpace_toLower (c : Char) : isSpace c.toLower = isSpace c := by
  refine apply_toLower (fun d hd ↦ ?_) c
  have hletter := isAlpha_iff.mp hd
  exact isSpace_of_visible (by omega) (by omega)

/-- A character ends a word in lower case exactly if it does as it stands. -/
theorem isWordChar_toLower (c : Char) : isWordChar c.toLower = isWordChar c := by
  have hline : (c.toLower == '\n') = (c == '\n') :=
    Bool.eq_iff_iff.mpr (by simp [toLower_eq_iff])
  rw [isWordChar, isWordChar, isSpace_toLower, bne, bne, hline]

theorem isDigit_toLower (c : Char) : c.toLower.isDigit = c.isDigit := by
  refine apply_toLower (fun d hd ↦ ?_) c
  have hletter := isAlpha_iff.mp hd
  exact Bool.eq_false_iff.mpr fun hdigit ↦ by
    have hrange := isDigit_iff.mp hdigit
    omega

theorem isDelimiter_toLower (c : Char) : isDelimiter c.toLower = isDelimiter c := by
  refine Bool.eq_iff_iff.mpr ?_
  simp [isDelimiter, isSpace_toLower, toLower_eq_iff]

/-- Digits have no case. -/
theorem map_toLower_of_digits {digits : List Char} (h : ∀ d ∈ digits, d.isDigit = true) :
    digits.map Char.toLower = digits := by
  refine (List.map_congr_left fun d hd ↦ ?_).trans (List.map_id digits)
  refine toLower_eq_self (Bool.eq_false_iff.mpr fun hletter ↦ ?_)
  have hrange := isDigit_iff.mp (h d hd)
  have hcases := isAlpha_iff.mp hletter
  omega

/-- Characters of a class that does not depend on case are taken alike in lower case. -/
theorem takeWhile_toLower {p : Char → Bool} (h : ∀ c, p c.toLower = p c) (text : List Char) :
    (text.map Char.toLower).takeWhile p = (text.takeWhile p).map Char.toLower := by
  rw [List.takeWhile_map, show p ∘ Char.toLower = p from funext h]

theorem dropWhile_toLower {p : Char → Bool} (h : ∀ c, p c.toLower = p c) (text : List Char) :
    (text.map Char.toLower).dropWhile p = (text.dropWhile p).map Char.toLower := by
  rw [List.dropWhile_map, show p ∘ Char.toLower = p from funext h]

theorem any_head?_toLower {p : Char → Bool} (h : ∀ c, p c.toLower = p c) (text : List Char) :
    (text.map Char.toLower).head?.any p = text.head?.any p := by
  cases text with
  | nil => rfl
  | cons c text => exact h c

theorem all_head?_toLower {p : Char → Bool} (h : ∀ c, p c.toLower = p c) (text : List Char) :
    (text.map Char.toLower).head?.all p = text.head?.all p := by
  cases text with
  | nil => rfl
  | cons c text => exact h c

/-! ### Words and marks -/

/-- A run of characters of such a class is cut alike in lower case. -/
theorem cutWhile_toLower (kind : Kind) {p : Char → Bool} (h : ∀ c, p c.toLower = p c)
    (text : List Char) :
    cutWhile kind p (text.map Char.toLower) = (cutWhile kind p text).lower := by
  rw [cutWhile, takeWhile_toLower h, dropWhile_toLower h]
  rfl

/-- A word in lower case is classified as the word is, with its own text in lower case. -/
theorem classify_lowercase (word : String) :
    Vocabulary.classify (lowercase word) =
      ((Vocabulary.classify word).1, (Vocabulary.classify word).2.mapText lowercase) := by
  rw [Vocabulary.classify, Vocabulary.classify, lowercase_lowercase]
  cases hknown : Vocabulary.known? (lowercase word) with
  | none => rfl
  | some found =>
    simp only [Vocabulary.known?, Option.orElse_eq_orElse, Option.orElse_eq_or,
      Option.or_eq_some_iff, Option.map_eq_some_iff] at hknown
    rcases hknown with ⟨_, -, rfl⟩ | ⟨-, ⟨_, -, rfl⟩ | ⟨-, ⟨_, -, rfl⟩ | ⟨-, ⟨_, -, rfl⟩ |
      ⟨-, ⟨_, -, rfl⟩ | ⟨-, ⟨_, -, rfl⟩ | ⟨-, _, -, rfl⟩⟩⟩⟩⟩⟩ <;> rfl

theorem cutWord_toLower (text : List Char) :
    cutWord (text.map Char.toLower) = (cutWord text).lower := by
  have hword : String.ofList ((text.takeWhile isWordChar).map Char.toLower) =
      lowercase (String.ofList (text.takeWhile isWordChar)) := by
    rw [lowercase, String.toList_ofList]
  rw [cutWord, cutWord, takeWhile_toLower isWordChar_toLower, dropWhile_toLower isWordChar_toLower,
    hword, classify_lowercase]
  rfl

/-! ### Quoted texts -/

/-- The parts of a quoted text are the same parts in lower case. -/
theorem quotedParts_toLower (text : List Char) :
    quotedParts (text.map Char.toLower) =
      ⟨(quotedParts text).inner.map Char.toLower, (quotedParts text).closing,
        (quotedParts text).rest.map Char.toLower⟩ := by
  fun_induction quotedParts text with
  | case1 => rfl
  | case2 text ih =>
    rw [List.map_cons, List.map_cons, toLower_eq_self rfl, toLower_eq_self rfl, quotedParts, ih]
    simp [QuotedParts.cons, toLower_eq_self]
  | case3 text => simp [quotedParts, toLower_eq_self]
  | case4 text => simp [quotedParts, toLower_eq_self]
  | case5 c text hescape hclose hline ih =>
    rw [List.map_cons, quotedParts, if_neg (mt (toLower_eq_iff rfl).mp hclose),
      if_neg (mt (toLower_eq_iff rfl).mp hline), ih]
    · rfl
    · intro back hc hback
      cases text with
      | nil => cases hback
      | cons d text =>
        obtain ⟨hd, -⟩ := List.cons.inj hback
        rw [(toLower_eq_iff rfl).mp hd] at hescape
        exact hescape text ((toLower_eq_iff rfl).mp hc) rfl

theorem unescapeQuotes_toLower (text : List Char) :
    unescapeQuotes (text.map Char.toLower) = (unescapeQuotes text).map Char.toLower := by
  fun_induction unescapeQuotes text with
  | case1 => rfl
  | case2 text ih =>
    rw [List.map_cons, List.map_cons, toLower_eq_self rfl, toLower_eq_self rfl, unescapeQuotes, ih,
      List.map_cons, toLower_eq_self rfl]
  | case3 c text hescape ih =>
    rw [List.map_cons, unescapeQuotes, ih, List.map_cons]
    intro back hc hback
    cases text with
    | nil => cases hback
    | cons d text =>
      obtain ⟨hd, -⟩ := List.cons.inj hback
      rw [(toLower_eq_iff rfl).mp hd] at hescape
      exact hescape text ((toLower_eq_iff rfl).mp hc) rfl

theorem closing_toLower (text : List Char) :
    (quotedParts text).closing.map Char.toLower = (quotedParts text).closing := by
  fun_induction quotedParts text with
  | case1 => rfl
  | case2 text ih => exact ih
  | case3 text => rfl
  | case4 text => rfl
  | case5 c text hescape hclose hline ih => exact ih

/-- A quoted text is cut alike in lower case. -/
theorem cutQuoted_toLower (text : List Char) :
    cutQuoted (text.map Char.toLower) = (cutQuoted text).lower := by
  simp [cutQuoted, Cut.lower, quotedParts_toLower, unescapeQuotes_toLower, closing_toLower,
    Payload.mapText, lowercase, toLower_eq_self]

/-! ### Numbers -/

theorem signParts_toLower (text : List Char) :
    signParts (text.map Char.toLower) =
      ((signParts text).1, (signParts text).2.map Char.toLower) := by
  cases text with
  | nil => rfl
  | cons c text =>
    by_cases hplus : c = '+'
    · subst hplus
      rfl
    · by_cases hminus : c = '-'
      · subst hminus
        rfl
      · rw [List.map_cons, signParts, signParts]
        · rfl
        all_goals simp_all [toLower_eq_iff]

theorem fractionParts?_toLower (text : List Char) :
    fractionParts? (text.map Char.toLower) =
      (fractionParts? text).map fun parts ↦ (parts.1, parts.2.map Char.toLower) := by
  rcases text with _ | ⟨c, _ | ⟨d, text⟩⟩
  · rfl
  · simp [fractionParts?]
  · by_cases hc : c = '.'
    · subst hc
      rw [List.map_cons, List.map_cons, toLower_eq_self rfl, fractionParts?, fractionParts?,
        isDigit_toLower, takeWhile_toLower isDigit_toLower, dropWhile_toLower isDigit_toLower]
      by_cases hd : d.isDigit = true
      · have hdigits : ∀ e ∈ d :: text.takeWhile Char.isDigit, e.isDigit = true :=
          List.forall_mem_cons.mpr ⟨hd, fun _ ↦ of_mem_takeWhile⟩
        rw [if_pos hd, if_pos hd, ← List.map_cons, map_toLower_of_digits hdigits]
        rfl
      · rw [if_neg hd, if_neg hd]
        rfl
    · rw [fractionParts?_of_ne hc, List.map_cons,
        fractionParts?_of_ne (mt (toLower_eq_iff rfl).mp hc)]
      rfl

/-- What a numeral becomes does not depend on the case of the text after it. -/
theorem numberBefore_toLower {sign whole : List Char}
    (h : (sign ++ whole).map Char.toLower = sign ++ whole) (after : List Char) :
    numberBefore sign whole (after.map Char.toLower) =
      (numberBefore sign whole after).map Cut.lower := by
  cases hpoint : fractionParts? after with
  | some parts =>
    obtain ⟨fraction, rest⟩ := parts
    have hdigits := (fractionParts?_eq_some_iff.mp hpoint).2.2.1
    have hlower : fractionParts? (after.map Char.toLower) =
        some (fraction, rest.map Char.toLower) := by
      rw [fractionParts?_toLower, hpoint]
      rfl
    rw [numberBefore_fraction hlower, numberBefore_fraction hpoint, Option.map_some, Cut.lower,
      List.map_append, h, List.map_cons, map_toLower_of_digits hdigits]
    rfl
  | none =>
    have hlower : fractionParts? (after.map Char.toLower) = none := by
      rw [fractionParts?_toLower, hpoint]
      rfl
    by_cases hpercent : ∃ rest, after = '%' :: rest
    · obtain ⟨rest, rfl⟩ := hpercent
      rw [List.map_cons, toLower_eq_self rfl, numberBefore_percent, numberBefore_percent,
        Option.map_map]
      refine congrArg (Option.map · _) (funext fun n ↦ ?_)
      rw [Function.comp_apply, Cut.lower, List.map_append, h]
      rfl
    · have hother (rest : List Char) : after ≠ '%' :: rest := fun heq ↦ hpercent ⟨rest, heq⟩
      have hother' (rest : List Char) : after.map Char.toLower ≠ '%' :: rest := by
        intro heq
        obtain ⟨c, back, rfl, hc, -⟩ := List.map_eq_cons_iff.mp heq
        exact hother back (by rw [(toLower_eq_iff rfl).mp hc])
      rw [numberBefore_other hlower hother', numberBefore_other hpoint hother, Option.map_map]
      refine congrArg (Option.map · _) (funext fun n ↦ ?_)
      rw [Function.comp_apply, Cut.lower, h]
      rfl

theorem cutNumber?_toLower (text : List Char) :
    cutNumber? (text.map Char.toLower) = (cutNumber? text).map Cut.lower := by
  have hdigits : ∀ d ∈ (signParts text).2.takeWhile Char.isDigit, d.isDigit = true :=
    fun _ ↦ of_mem_takeWhile
  have hsign : ((signParts text).1 ++ (signParts text).2.takeWhile Char.isDigit).map Char.toLower =
      (signParts text).1 ++ (signParts text).2.takeWhile Char.isDigit := by
    rw [List.map_append, map_toLower_of_digits hdigits]
    refine congrArg (· ++ _) ?_
    unfold signParts
    split <;> rfl
  rw [cutNumber?_eq, cutNumber?_eq, signParts_toLower]
  dsimp only
  rw [takeWhile_toLower isDigit_toLower, map_toLower_of_digits hdigits,
    dropWhile_toLower isDigit_toLower, numberBefore_toLower hsign, Option.filter_map]
  refine congrArg (Option.map Cut.lower) (congrArg (Option.filter · _) (funext fun k ↦ ?_))
  exact all_head?_toLower isDelimiter_toLower k.rest

/-- A text starts like a number in lower case exactly if it does as it stands. -/
theorem startsNumber_toLower (c : Char) (text : List Char) :
    startsNumber c.toLower (text.map Char.toLower) = startsNumber c text := by
  refine Bool.eq_iff_iff.mpr ?_
  simp [startsNumber, isDigit_toLower, toLower_eq_iff, any_head?_toLower isDigit_toLower,
    -List.head?_map]

/-! ### Texts -/

/-- The first token of a text in lower case is its first token in lower case. -/
theorem cut_toLower (c : Char) (text : List Char) :
    cut c.toLower (text.map Char.toLower) = (cut c text).lower := by
  have hletter {x : Char} (hx : x.isAlpha = false) : (c.toLower = x) = (c = x) :=
    propext (toLower_eq_iff hx)
  have hcomment (d : Char) : (d.toLower != '\n') = (d != '\n') :=
    Bool.eq_iff_iff.mpr (by simp [toLower_eq_iff])
  unfold cut
  simp only [hletter (x := '\n') rfl, hletter (x := ',') rfl, hletter (x := '(') rfl,
    hletter (x := ')') rfl, hletter (x := ';') rfl, hletter (x := '"') rfl, isSpace_toLower,
    startsNumber_toLower, ← List.map_cons (f := Char.toLower),
    cutWhile_toLower (p := (· != '\n')) _ hcomment, cutQuoted_toLower,
    cutWhile_toLower _ isSpace_toLower, cutNumber?_toLower, cutWord_toLower]
  split
  · rfl
  split
  · rfl
  split
  · rfl
  split
  · rfl
  split
  · rfl
  split
  · rfl
  split
  · rfl
  split
  · exact Option.getD_map Cut.lower _ _
  · rfl

/-- The tokens of a text in lower case are its tokens in lower case. -/
theorem scanFrom_toLower (n : UInt32) (closed : Bool) (text : List Char) :
    scanFrom n closed (text.map Char.toLower) = (scanFrom n closed text).map lower := by
  fun_induction scanFrom n closed text with
  | case1 n =>
    rw [List.map_nil, scanFrom]
    rfl
  | case2 n closed hopen =>
    rw [List.map_nil, scanFrom, if_neg hopen]
    rfl
  | case3 n closed c text k ih =>
    rw [List.map_cons, scanFrom, cut_toLower, List.map_cons]
    refine congrArg₂ List.cons ?_ ih
    rw [lower, mapText, lowercase, String.toList_ofList]
    rfl

/-- The tokens of a text in lower case are its tokens in lower case. -/
theorem scan_toLower (text : List Char) : scan (text.map Char.toLower) = (scan text).map lower :=
  scanFrom_toLower 1 false text

end

end Token

end OrderFile
