import Mathlib.Data.Nat.Digits.Defs
import OrderFile.Proofs.Token.Canonical
import OrderFile.Proofs.Token.Reended

/-!
Values that are written out. An integer is read as the number that its digits say if that fits in
64 bits, and as a word otherwise: `scansInteger_of_isNumeral`. A text between quotes, with its own
quotes escaped, is read as itself if it stays on its line and does not end with a backslash:
`scansTo_enquote_iff`.
-/

set_option autoImplicit false

namespace OrderFile

/-! ### Decimal digits -/

/-- The number that a sign and decimal digits say. -/
def literalValue (sign whole : List Char) : Int :=
  let size : Nat := Nat.ofDigits 10 (whole.reverse.map fun d ↦ d.toNat - '0'.toNat)
  if sign = ['-'] then -size else size

/-- The value of digits is their value in base ten. -/
theorem digitsValue_eq_ofDigits (digits : List Char) :
    digitsValue digits = Nat.ofDigits 10 (digits.reverse.map fun d ↦ d.toNat - '0'.toNat) := by
  induction digits using List.reverseRec with
  | nil => rfl
  | append_singleton digits d ih =>
    rw [List.reverse_concat, List.map_cons, Nat.ofDigits_cons, ← ih, digitsValue,
      List.foldl_concat, Nat.add_comm]
    rfl

/-- A number has a word exactly if it fits in one. -/
theorem int64?_cases (n : Int) :
    (-2 ^ 63 ≤ n ∧ n ≤ 2 ^ 63 - 1 ∧ ∃ value, int64? n = some value ∧ value.toInt = n) ∨
      ¬ (-2 ^ 63 ≤ n ∧ n ≤ 2 ^ 63 - 1) ∧ int64? n = none := by
  have hmin : Int64.minValue.toInt = -2 ^ 63 := by decide
  have hmax : Int64.maxValue.toInt = 2 ^ 63 - 1 := by decide
  by_cases hrange : -2 ^ 63 ≤ n ∧ n ≤ 2 ^ 63 - 1
  · have hsome : int64? n = some (.ofInt n) := if_pos (by rwa [hmin, hmax])
    exact .inl ⟨hrange.1, hrange.2, _, hsome, toInt_of_int64? hsome⟩
  · exact .inr ⟨hrange, if_neg (by rwa [hmin, hmax])⟩

namespace Token

/-- An integer has the value that its sign and digits say, if that fits in 64 bits. -/
theorem integerValue?_eq (sign whole : List Char) :
    integerValue? sign whole = int64? (literalValue sign whole) := by
  rw [integerValue?, literalValue, digitsValue_eq_ofDigits]

/-! ### First tokens -/

/-- Whether a text is taken as one token of a kind and with a payload where some other text comes
after it, and the tokens after that are those of the other text. -/
def ScansTo (kind : Kind) (payload : Payload) (lexeme rest : List Char) : Prop :=
  ∀ line closed, scanFrom line closed (lexeme ++ rest) =
    ⟨line, kind, String.ofList lexeme, payload⟩ :: scanFrom line false rest

/-- Whether a text is taken as a plain word first, up to a space or a line end. -/
def ScansWord (text : List Char) : Prop :=
  ScansTo .text (.text (String.ofList (text.takeWhile isWordChar))) (text.takeWhile isWordChar)
    (text.dropWhile isWordChar)

/-- Whether a text that says a number is taken as one token of a kind that carries the number, if
that fits in 64 bits, and what it starts is taken as a plain word otherwise. -/
def ScansInteger (kind : Kind) (value : Int) (lexeme rest : List Char) : Prop :=
  if -2 ^ 63 ≤ value ∧ value ≤ 2 ^ 63 - 1 then
    ∃ n : Int64, n.toInt = value ∧ ScansTo kind (.integer n) lexeme rest
  else ScansWord (lexeme ++ rest)

section

variable {c : Char} {kind : Kind} {payload : Payload} {lexeme text rest : List Char}

/-- What is cut off the front of a text is the first token of it. -/
theorem scansTo_of_cut (hcut : cut c text = ⟨kind, payload, lexeme, rest⟩) (hkind : kind ≠ .eol) :
    ScansTo kind payload lexeme rest := by
  intro line closed
  have happend := cut_append c text
  rw [hcut] at happend
  rw [happend, scanFrom, hcut]
  dsimp only
  rw [if_neg hkind, beq_false_of_ne hkind]

theorem not_isAlpha_of_startsNumber (h : startsNumber c text = true) : c.isAlpha = false := by
  rw [startsNumber, Bool.or_eq_true, Bool.and_eq_true, Bool.or_eq_true, beq_iff_eq,
    beq_iff_eq] at h
  rcases h with hdigit | ⟨rfl | rfl, -⟩
  · have hrange := isDigit_iff.mp hdigit
    refine Bool.eq_false_iff.mpr fun halpha ↦ ?_
    have hletter := isAlpha_iff.mp halpha
    omega
  · rfl
  · rfl

/-- What starts like a number and is none is a word, and no word of the vocabulary. -/
theorem scansWord_of_cutNumber? (h : startsNumber c text = true)
    (hnone : cutNumber? (c :: text) = none) : ScansWord (c :: text) := by
  have hclass : Vocabulary.classify (String.ofList ((c :: text).takeWhile isWordChar)) =
      (.text, .text (String.ofList ((c :: text).takeWhile isWordChar))) := by
    refine Vocabulary.classify_of_not_isAlpha ?_
    rw [String.toList_ofList, List.takeWhile_cons]
    split
    · exact not_isAlpha_of_startsNumber h
    · rfl
  have hcut : cut c text = ⟨.text, .text (String.ofList ((c :: text).takeWhile isWordChar)),
      (c :: text).takeWhile isWordChar, (c :: text).dropWhile isWordChar⟩ := by
    rw [cut_of_startsNumber h, hnone, Option.getD_none, cutWord, hclass]
  exact scansTo_of_cut hcut (by decide)

end

/-! ### Integers -/

section

variable {sign whole mark rest : List Char} {kind : Kind}

/-- A sign and digits that are no number are a word. -/
theorem scansWord_of_isNumeral (h : IsNumeral sign whole)
    (hnone : cutNumber? (sign ++ (whole ++ rest)) = none) :
    ScansWord (sign ++ (whole ++ rest)) := by
  obtain ⟨c, text, htext, hstart⟩ := h.exists_startsNumber
  rw [← List.append_assoc, htext, List.cons_append] at hnone ⊢
  exact scansWord_of_cutNumber? (hstart rest) hnone

/-- A sign, digits and a mark that are a number if their value fits. -/
theorem scansInteger_of_cutNumber? (h : IsNumeral sign whole) (hkind : kind ≠ .eol)
    (hnumber : cutNumber? (sign ++ (whole ++ (mark ++ rest))) =
      (integerValue? sign whole).map fun n ↦
        ⟨kind, .integer n, sign ++ (whole ++ mark), rest⟩) :
    ScansInteger kind (literalValue sign whole) (sign ++ (whole ++ mark)) rest := by
  rw [ScansInteger]
  rw [integerValue?_eq] at hnumber
  rcases int64?_cases (literalValue sign whole) with ⟨hlow, hhigh, n, hn, hvalue⟩ | ⟨hrange, hnone⟩
  · rw [if_pos ⟨hlow, hhigh⟩]
    refine ⟨n, hvalue, ?_⟩
    obtain ⟨c, text, htext, hstart⟩ := h.exists_startsNumber
    have hcut : cut c (text ++ (mark ++ rest)) =
        ⟨kind, .integer n, sign ++ (whole ++ mark), rest⟩ := by
      rw [cut_of_startsNumber (hstart _), ← List.cons_append, ← htext, List.append_assoc, hnumber,
        hn]
      rfl
    exact scansTo_of_cut hcut hkind
  · rw [if_neg hrange, List.append_assoc, List.append_assoc]
    refine scansWord_of_isNumeral h ?_
    rw [hnumber, hnone]
    rfl

/-- Digits and what does not end them are no number. -/
theorem cutNumber?_eq_none {after : List Char} {f : Int64 → Cut} (h : IsNumeral sign whole)
    (hafter : after.head?.all (!Char.isDigit ·) = true)
    (hfound : numberBefore sign whole after = (integerValue? sign whole).map f)
    (hrest : ∀ n, (f n).rest.head?.all isDelimiter = false) :
    cutNumber? (sign ++ (whole ++ after)) = none := by
  rw [cutNumber?_of_isNumeral h hafter, hfound]
  cases integerValue? sign whole with
  | none => rfl
  | some n => exact if_neg (by simp [hrest n])

theorem fractionParts?_eq_none {d : Char} (h : ¬ (d = '.' ∧ rest.head?.any Char.isDigit = true)) :
    fractionParts? (d :: rest) = none := by
  by_cases hpoint : d = '.'
  · subst hpoint
    cases rest with
    | nil => rfl
    | cons e rest => exact if_neg fun hdigit ↦ h ⟨rfl, hdigit⟩
  · exact fractionParts?_of_ne hpoint

/-- A sign or none and digits, in any number and with zeros in front, are an integer before a
delimiter and at the end of the text, and with a percent sign they are a percentage there. They
carry exactly the number they say, or are a word if that does not fit in 64 bits. They are a word as
well if anything but a delimiter comes after the percent sign, or after the digits if that is
neither a percent sign nor a fraction. -/
theorem scansInteger_of_isNumeral (h : IsNumeral sign whole) :
    (∀ rest : List Char, rest.head?.all isDelimiter = true →
      ScansInteger .integer (literalValue sign whole) (sign ++ whole) rest ∧
        ScansInteger .percentage (literalValue sign whole) (sign ++ (whole ++ ['%'])) rest) ∧
      (∀ rest : List Char, rest.head?.all isDelimiter = false →
        ScansWord (sign ++ (whole ++ '%' :: rest))) ∧
      ∀ d rest, d.isDigit = false → d ≠ '%' → ¬ (d = '.' ∧ rest.head?.any Char.isDigit = true) →
        isDelimiter d = false → ScansWord (sign ++ (whole ++ d :: rest)) := by
  refine ⟨fun rest hrest ↦ ⟨?_, ?_⟩, fun rest hrest ↦ ?_, fun d rest hdigit hpercent hpoint hd ↦ ?_⟩
  · have hnumber : cutNumber? (sign ++ (whole ++ ([] ++ rest))) = (integerValue? sign whole).map
        fun n ↦ ⟨.integer, .integer n, sign ++ (whole ++ []), rest⟩ := by
      rw [List.append_nil]
      exact cutNumber?_integer h hrest
    have hscan := scansInteger_of_cutNumber? h (by decide) hnumber
    rwa [List.append_nil] at hscan
  · refine scansInteger_of_cutNumber? h (by decide) ?_
    rw [List.singleton_append, cutNumber?_percentage h hrest, List.append_assoc]
  · exact scansWord_of_isNumeral h (cutNumber?_eq_none h rfl (numberBefore_percent rest)
      fun _ ↦ hrest)
  · have hother (back : List Char) : d :: rest ≠ '%' :: back :=
      fun heq ↦ hpercent (List.cons.inj heq).1
    have hfound := @numberBefore_other sign whole _ (fractionParts?_eq_none hpoint) hother
    exact scansWord_of_isNumeral h (cutNumber?_eq_none h (by simp [hdigit]) hfound fun _ ↦ hd)

end

/-- The digits of a number that fits in 64 bits with a minus sign only, and zeros. -/
def leastDigits : List Char :=
  "009223372036854775808".toList

/-- With the sign they are the least number, and without it a word, which the comma is a part of. -/
theorem scansInteger_of_isNumeral_leastDigits :
    IsNumeral ['-'] leastDigits ∧ isDelimiter ';' = true ∧
      (∃ n : Int64, n.toInt = -2 ^ 63 ∧ ScansTo .integer (.integer n) ('-' :: leastDigits) [';']) ∧
      IsNumeral [] leastDigits ∧ isDelimiter ',' = true ∧
      ScansWord (leastDigits ++ ['%'] ++ [',', '5', ' ', '7']) := by
  have hdigits : leastDigits.all Char.isDigit = true := by decide
  have hsigned : IsNumeral ['-'] leastDigits := ⟨by decide, by decide, List.all_eq_true.mp hdigits⟩
  have hplain : IsNumeral [] leastDigits := ⟨by decide, by decide, List.all_eq_true.mp hdigits⟩
  have hleast : literalValue ['-'] leastDigits = -2 ^ 63 := by decide +kernel
  have hmore : literalValue [] leastDigits = 2 ^ 63 := by decide +kernel
  have hinteger := ((scansInteger_of_isNumeral hsigned).1 [';'] rfl).1
  have hword := ((scansInteger_of_isNumeral hplain).1 [',', '5', ' ', '7'] rfl).2
  rw [ScansInteger, hleast, if_pos (by decide)] at hinteger
  rw [ScansInteger, hmore, if_neg (by decide)] at hword
  exact ⟨hsigned, rfl, hinteger, hplain, rfl, hword⟩

/-! ### Quoted texts -/

/-- A backslash at the end of a text makes a quote of the closing one. -/
theorem unescapeQuotes_inner_of_backslash {front : List Char} (hline : '\n' ∉ front)
    (rest : List Char) :
    ∃ more, unescapeQuotes (quotedParts (escapeQuotes (front ++ ['\\']) ++ '"' :: rest)).inner =
      front ++ '"' :: more := by
  have hback : escapeQuotes (front ++ ['\\']) ++ '"' :: rest =
      escapeQuotes front ++ '\\' :: '"' :: rest := by
    rw [escapeQuotes_append, List.append_assoc]
    rfl
  have hhead {back : List Char} : ('\\' :: back).head? ≠ some '"' := by simp
  rw [hback, quotedParts_escapeQuotes_append hline fun _ ↦ hhead, quotedParts]
  dsimp only [QuotedParts.cons]
  exact ⟨_, unescapeQuotes_escapeQuotes_append fun _ ↦ hhead⟩

/-- A text that is put in quotes is read as itself, whatever comes after it, exactly if it has no
line end and no backslash at its end. Quotes and backslashes in it may stand in any order. -/
theorem scansTo_enquote_iff (s : String) (rest : List Char) :
    ScansTo .quotedText (.text s) (enquote s.toList) rest ↔
      '\n' ∉ s.toList ∧ s.toList.getLast? ≠ some '\\' := by
  constructor
  · intro h
    have hscan := h 1 false
    have hmem : ⟨1, .quotedText, String.ofList (enquote s.toList), .text s⟩ ∈
        scanFrom 1 false (enquote s.toList ++ rest) := hscan ▸ List.mem_cons_self
    have hline : '\n' ∉ s.toList := (oneLine_of_mem_scanFrom hmem).text rfl s rfl
    refine ⟨hline, fun hlast ↦ ?_⟩
    obtain ⟨front, hfront⟩ := List.getLast?_eq_some_iff.mp hlast
    rw [hfront] at hline hscan
    obtain ⟨more, hmore⟩ := unescapeQuotes_inner_of_backslash
      (fun hmem ↦ hline (List.mem_append_left _ hmem)) rest
    rw [enquote_append, scanFrom] at hscan
    have hpayload : Payload.text (String.ofList (front ++ '"' :: more)) = .text s := by
      rw [← hmore]
      exact congrArg Token.payload (List.cons.inj hscan).1
    have htext : front ++ '"' :: more = front ++ ['\\'] := by
      rw [← hfront, ← Payload.text.inj hpayload, String.toList_ofList]
    simp at htext
  · rintro ⟨hline, hlast⟩
    have hcut := cut_enquote hline hlast rest
    rw [String.ofList_toList] at hcut
    exact scansTo_of_cut hcut (by decide)

end Token

end OrderFile
