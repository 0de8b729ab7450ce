import OrderFile.Text.Blank
import OrderFile.Text.Utf8
import OrderFile.Vocabulary

/-!
Text cut into tokens. Each step cuts one token off the front of the text; `cut_append` says that
the cut loses nothing and `cut_lexeme_ne_nil` that it takes something, so the cutting ends. No text
is refused: what is nothing else is a word.
-/

set_option autoImplicit false

namespace OrderFile.Token

/-- Spaces separate tokens within a line. Bytes that are not text count as spaces. -/
def isSpace (c : Char) : Bool :=
  c != '\n' && (isBlank c || c == Utf8.replacement)

/-- Whether a word goes on with this character. -/
def isWordChar (c : Char) : Bool :=
  c != '\n' && !isSpace c

/-- What may follow a number. -/
def isDelimiter (c : Char) : Bool :=
  c == '\n' || c == ',' || c == '(' || c == ')' || c == ';' || isSpace c

/-- A token cut off the front of a text, without its line, and the text after it. -/
structure Cut where
  kind : Kind
  payload : Payload
  lexeme : List Char
  rest : List Char

/-- The longest front of characters of a class. -/
def cutWhile (kind : Kind) (inClass : Char → Bool) (text : List Char) : Cut :=
  ⟨kind, .none, text.takeWhile inClass, text.dropWhile inClass⟩

/-- Everything up to a space or line end, classified. -/
def cutWord (text : List Char) : Cut :=
  let word := text.takeWhile isWordChar
  let (kind, payload) := Vocabulary.classify (String.ofList word)
  ⟨kind, payload, word, text.dropWhile isWordChar⟩

/-- A quoted text after its opening quote: what stands before the closing quote or the line end,
the closing quote if there is one, and the text after it. -/
structure QuotedParts where
  inner : List Char
  closing : List Char
  rest : List Char

/-- The parts with one more character in front. -/
def QuotedParts.cons (c : Char) (parts : QuotedParts) : QuotedParts :=
  { parts with inner := c :: parts.inner }

/-- A backslash before a quote keeps it from closing. -/
def quotedParts : List Char → QuotedParts
  | [] => ⟨[], [], []⟩
  | '\\' :: '"' :: text =>
    ((quotedParts text).cons '"').cons '\\'
  | c :: text =>
    if c = '"' then ⟨[], [c], text⟩
    else if c = '\n' then ⟨[], [], c :: text⟩
    else (quotedParts text).cons c

/-- The text meant by what stands between quotes. -/
def unescapeQuotes : List Char → List Char
  | [] => []
  | '\\' :: '"' :: text => '"' :: unescapeQuotes text
  | c :: text => c :: unescapeQuotes text

/-- A quoted text, from the character after the opening quote. -/
def cutQuoted (text : List Char) : Cut :=
  let parts := quotedParts text
  { kind := .quotedText
    payload := .text (String.ofList (unescapeQuotes parts.inner))
    lexeme := '"' :: parts.inner ++ parts.closing
    rest := parts.rest }

/-- A sign at the front of a text, and the text after it. -/
def signParts : List Char → List Char × List Char
  | '+' :: text => (['+'], text)
  | '-' :: text => (['-'], text)
  | text => ([], text)

/-- The digits after a point at the front of a text, and the text after them. -/
def fractionParts? : List Char → Option (List Char × List Char)
  | '.' :: d :: text =>
    if d.isDigit then some (d :: text.takeWhile Char.isDigit, text.dropWhile Char.isDigit) else none
  | _ => none

/-- The value of a sign and digits, if it fits in 64 bits. -/
def integerValue? (sign digits : List Char) : Option Int64 :=
  int64? (if sign = ['-'] then -(digitsValue digits : Int) else digitsValue digits)

/-- The nearest floating point number to a decimal. -/
def floatValue (sign whole fraction : List Char) : Float :=
  let size := Float.ofScientific (digitsValue (whole ++ fraction)) true fraction.length
  if sign = ['-'] then -size else size

/-- A number at the front of a text: an optional sign, digits, and either a point and more digits
or a percent sign or neither. There is none if more than a delimiter follows, or if an integer
does not fit in 64 bits. -/
def cutNumber? (text : List Char) : Option Cut :=
  let (sign, unsigned) := signParts text
  let whole := unsigned.takeWhile Char.isDigit
  let after := unsigned.dropWhile Char.isDigit
  let found : Option Cut := match fractionParts? after with
    | some (fraction, rest) =>
      some ⟨.float, .float (floatValue sign whole fraction), sign ++ whole ++ '.' :: fraction, rest⟩
    | none =>
      match after with
      | '%' :: rest =>
        (integerValue? sign whole).map fun n ↦ ⟨.percentage, .integer n, sign ++ whole ++ ['%'], rest⟩
      | rest => (integerValue? sign whole).map fun n ↦ ⟨.integer, .integer n, sign ++ whole, rest⟩
  found.filter fun cut ↦ cut.rest.head?.all isDelimiter

/-- Whether a number may stand at the front: a digit, or a sign before one. -/
def startsNumber (c : Char) (text : List Char) : Bool :=
  c.isDigit || ((c == '+' || c == '-') && text.head?.any Char.isDigit)

/-- The first token of the text `c :: text`. -/
def cut (c : Char) (text : List Char) : Cut :=
  if c = '\n' then ⟨.eol, .none, [c], text⟩
  else if c = ',' then ⟨.comma, .none, [c], text⟩
  else if c = '(' then ⟨.parenOpen, .none, [c], text⟩
  else if c = ')' then ⟨.parenClose, .none, [c], text⟩
  else if c = ';' then cutWhile .comment (· != '\n') (c :: text)
  else if c = '"' then cutQuoted text
  else if isSpace c then cutWhile .spaces isSpace (c :: text)
  else if startsNumber c text then (cutNumber? (c :: text)).getD (cutWord (c :: text))
  else cutWord (c :: text)

theorem cutWhile_append (kind : Kind) (inClass : Char → Bool) (text : List Char) :
    (cutWhile kind inClass text).lexeme ++ (cutWhile kind inClass text).rest = text :=
  List.takeWhile_append_dropWhile

theorem cutWord_append (text : List Char) : (cutWord text).lexeme ++ (cutWord text).rest = text :=
  List.takeWhile_append_dropWhile

theorem quotedParts_append (text : List Char) :
    (quotedParts text).inner ++ (quotedParts text).closing ++ (quotedParts text).rest = text := by
  fun_induction quotedParts text with
  | case1 => rfl
  | case2 text ih => simpa [QuotedParts.cons] using ih
  | case3 => simp
  | case4 => simp
  | case5 c text _ _ _ ih => simpa [QuotedParts.cons] using ih

theorem cutQuoted_append (text : List Char) :
    (cutQuoted text).lexeme ++ (cutQuoted text).rest = '"' :: text := by
  simpa [cutQuoted] using quotedParts_append text

theorem signParts_append (text : List Char) : (signParts text).1 ++ (signParts text).2 = text := by
  unfold signParts
  split <;> rfl

theorem fractionParts?_append {text digits rest : List Char}
    (h : fractionParts? text = some (digits, rest)) : '.' :: digits ++ rest = text := by
  unfold fractionParts? at h
  split at h
  · split at h
    · obtain ⟨rfl, rfl⟩ := Prod.mk.inj (Option.some.inj h)
      simp [List.takeWhile_append_dropWhile]
    · cases h
  · cases h

/-- A number and what is left after it are the text that it was cut from. -/
theorem cutNumber?_append {text : List Char} {k : Cut} (h : cutNumber? text = some k) :
    k.lexeme ++ k.rest = text := by
  have hsign := signParts_append text
  have hwhole := List.takeWhile_append_dropWhile (p := Char.isDigit) (l := (signParts text).2)
  simp only [cutNumber?, Option.filter_eq_some_iff] at h
  replace h := h.1
  generalize signParts text = parts at *
  obtain ⟨sign, unsigned⟩ := parts
  dsimp only at *
  split at h
  · next fraction rest hfraction =>
    obtain rfl := Option.some.inj h
    have := fractionParts?_append hfraction
    simp_all
  · split at h
    · obtain ⟨n, _, rfl⟩ := Option.map_eq_some_iff.1 h
      simp_all
    · obtain ⟨n, _, rfl⟩ := Option.map_eq_some_iff.1 h
      simp_all

/-- Cutting loses nothing: the text of the token and what is left are the whole text. -/
theorem cut_append (c : Char) (text : List Char) :
    (cut c text).lexeme ++ (cut c text).rest = c :: text := by
  unfold cut
  split
  · rfl
  split
  · rfl
  split
  · rfl
  split
  · rfl
  split
  · exact cutWhile_append ..
  split
  · next h => rw [h, cutQuoted_append]
  split
  · exact cutWhile_append ..
  split
  · cases h : cutNumber? (c :: text) with
    | none => simpa using cutWord_append _
    | some k => simpa using cutNumber?_append h
  · exact cutWord_append _

/-- A number takes at least its first digit. -/
theorem cutNumber?_lexeme_ne_nil {c : Char} {text : List Char} {k : Cut}
    (hstarts : startsNumber c text) (h : cutNumber? (c :: text) = some k) : k.lexeme ≠ [] := by
  have hfront : (signParts (c :: text)).1 ≠ [] ∨
      (signParts (c :: text)).2.takeWhile Char.isDigit ≠ [] := by
    unfold signParts
    split
    · exact .inl (List.cons_ne_nil _ _)
    · exact .inl (List.cons_ne_nil _ _)
    · next hplus hminus =>
      have hdigit : c.isDigit := by
        have hplus' : c ≠ '+' := fun h ↦ hplus text (by rw [h])
        have hminus' : c ≠ '-' := fun h ↦ hminus text (by rw [h])
        simpa [startsNumber, hplus', hminus'] using hstarts
      exact .inr (by simp [hdigit])
  simp only [cutNumber?, Option.filter_eq_some_iff] at h
  replace h := h.1
  generalize signParts (c :: text) = parts at *
  obtain ⟨sign, unsigned⟩ := parts
  dsimp only at *
  split at h
  · obtain rfl := Option.some.inj h
    simp
  · split at h
    · obtain ⟨n, _, rfl⟩ := Option.map_eq_some_iff.1 h
      simp
    · obtain ⟨n, _, rfl⟩ := Option.map_eq_some_iff.1 h
      exact fun hnil ↦ hfront.elim (· (List.append_eq_nil_iff.1 hnil).1)
        (· (List.append_eq_nil_iff.1 hnil).2)

/-- Cutting takes at least one character. -/
theorem cut_lexeme_ne_nil (c : Char) (text : List Char) : (cut c text).lexeme ≠ [] := by
  unfold cut
  split
  · exact List.cons_ne_nil _ _
  next heol =>
  split
  · exact List.cons_ne_nil _ _
  split
  · exact List.cons_ne_nil _ _
  split
  · exact List.cons_ne_nil _ _
  split
  · simp [cutWhile, heol]
  split
  · exact List.cons_ne_nil _ _
  split
  · next hspace => simp [cutWhile, hspace]
  next hspace =>
  have hword : (cutWord (c :: text)).lexeme ≠ [] := by
    simp [cutWord, isWordChar, heol, hspace]
  split
  · next hstarts =>
    cases h : cutNumber? (c :: text) with
    | none => simpa using hword
    | some k => simpa using cutNumber?_lexeme_ne_nil hstarts h
  · exact hword

/-- So less is left than there was, and the cutting ends. -/
theorem cut_rest_length_lt (c : Char) (text : List Char) :
    (cut c text).rest.length < (c :: text).length := by
  have happend := congrArg List.length (cut_append c text)
  have hne := List.length_pos_iff.2 (cut_lexeme_ne_nil c text)
  rw [List.length_append] at happend
  omega

end OrderFile.Token
