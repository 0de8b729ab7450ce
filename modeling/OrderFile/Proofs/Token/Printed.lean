import OrderFile.Proofs.Token.Lines
import OrderFile.Proofs.Token.Number

/-!
Text that is cut into known tokens, whatever comes after it. Marks, numbers, words and quoted texts
are such texts as long as the text after them starts in a way that ends them, and so is what is put
together from them.
-/

set_option autoImplicit false

namespace OrderFile

/-- Whether a character is printable ASCII and no backslash. -/
def Quoted.isPlain (c : Char) : Bool :=
  0x20 ≤ c.toNat && c.toNat ≤ 0x7E && c != '\\'

namespace Token

/-- The tokens of a line other than comments and spaces. -/
def words (n : UInt32) (line : List Char) : List Token :=
  (lineTokens n line).filter (!·.kind.isTrivia)

/-- Whether a text is cut into some tokens if what comes after it starts in a certain way. -/
def Lexes (n : UInt32) (next : Char → Bool) (text : List Char) (ts : List Token) : Prop :=
  ∀ rest, rest.head?.all next = true → words n (text ++ rest) = ts ++ words n rest

section

variable {n : UInt32} {next other : Char → Bool} {text back : List Char} {ts us : List Token}

/-- A text that is cut into known tokens before some characters is so before fewer of them. -/
theorem Lexes.mono (h : Lexes n next text ts) (hnext : ∀ c, other c = true → next c = true) :
    Lexes n other text ts := by
  intro rest hrest
  refine h rest ?_
  cases rest with
  | nil => rfl
  | cons c rest => exact hnext c hrest

/-- Two such texts are one, if the second starts in a way that ends the first. -/
theorem Lexes.append (h : Lexes n next text ts) (hback : Lexes n other back us)
    (hstart : back.head?.any next = true) : Lexes n other (text ++ back) (ts ++ us) := by
  intro rest hrest
  have hnext : (back ++ rest).head?.all next = true := by
    cases back with
    | nil => cases hstart
    | cons c back => exact hstart
  rw [List.append_assoc, h _ hnext, hback rest hrest, List.append_assoc]

/-- What may come before anything. -/
theorem Lexes.append_of_true (h : Lexes n (fun _ ↦ true) text ts) (hback : Lexes n other back us) :
    Lexes n other (text ++ back) (ts ++ us) := by
  intro rest hrest
  have hnext : (back ++ rest).head?.all (fun _ ↦ true) = true := by
    cases (back ++ rest).head? <;> rfl
  rw [List.append_assoc, h _ hnext, hback rest hrest, List.append_assoc]

/-! ### Cuts -/

theorem words_nil : words n [] = [] := by
  rw [words, lineTokens, List.filter_nil]

theorem words_cons (c : Char) (text : List Char) :
    words n (c :: text) =
      (if (cut c text).kind.isTrivia then []
        else [⟨n, (cut c text).kind, String.ofList (cut c text).lexeme, (cut c text).payload⟩]) ++
      words n (cut c text).rest := by
  rw [words, lineTokens, List.filter_cons, words]
  cases (cut c text).kind.isTrivia <;> rfl

/-- One token. -/
theorem lexes_of_cut {c : Char} {kind : Kind} {payload : Payload} (hkind : kind.isTrivia = false)
    (h : ∀ rest, rest.head?.all next = true →
      cut c (text ++ rest) = ⟨kind, payload, c :: text, rest⟩) :
    Lexes n next (c :: text) [⟨n, kind, String.ofList (c :: text), payload⟩] := by
  intro rest hrest
  rw [List.cons_append, words_cons, h rest hrest]
  dsimp only
  rw [if_neg (by simp [hkind])]

theorem cut_of_isSpace {c : Char} (hc : isSpace c = true) (text : List Char) :
    cut c text = cutWhile .spaces isSpace (c :: text) := by
  have hother (d : Char) (hd : isSpace d = false) : c ≠ d := by
    rintro rfl
    rw [hd] at hc
    cases hc
  rw [cut, if_neg (hother _ rfl), if_neg (hother _ rfl), if_neg (hother _ rfl),
    if_neg (hother _ rfl), if_neg (hother _ rfl), if_neg (hother _ rfl), if_pos hc]

/-- Spaces at the front of a line add no words to it. -/
theorem words_of_isSpace {c : Char} (hc : isSpace c = true) (text : List Char) :
    words n (c :: text) = words n (text.dropWhile isSpace) := by
  rw [words_cons, cut_of_isSpace hc, cutWhile, List.dropWhile_cons_of_pos hc]
  rfl

theorem words_space (text : List Char) : words n (' ' :: text) = words n text := by
  rw [words_of_isSpace rfl]
  cases text with
  | nil => rfl
  | cons c text =>
    by_cases hc : isSpace c = true
    · rw [List.dropWhile_cons_of_pos hc, words_of_isSpace hc]
    · rw [List.dropWhile_cons_of_neg hc]

/-! ### Marks -/

theorem lexes_comma : Lexes n (fun _ ↦ true) [','] [⟨n, .comma, ",", .none⟩] :=
  lexes_of_cut rfl fun _ _ ↦ rfl

theorem lexes_parenOpen : Lexes n (fun _ ↦ true) ['('] [⟨n, .parenOpen, "(", .none⟩] :=
  lexes_of_cut rfl fun _ _ ↦ rfl

theorem lexes_parenClose : Lexes n (fun _ ↦ true) [')'] [⟨n, .parenClose, ")", .none⟩] :=
  lexes_of_cut rfl fun _ _ ↦ rfl

/-! ### Words -/

/-- A word that starts with a lowercase letter. -/
theorem lexes_word {c : Char} {kind : Kind} {payload : Payload} (hc : c.isLower = true)
    (htext : ∀ d ∈ c :: text, isWordChar d = true) (hkind : kind.isTrivia = false)
    (hclass : Vocabulary.classify (String.ofList (c :: text)) = (kind, payload)) :
    Lexes n (!isWordChar ·) (c :: text) [⟨n, kind, String.ofList (c :: text), payload⟩] := by
  have hother (d : Char) (hd : d.isLower = false) : c ≠ d := by
    rintro rfl
    rw [hd] at hc
    cases hc
  have hspace : isSpace c = false := by
    have hword := htext c List.mem_cons_self
    simp only [isWordChar, Bool.and_eq_true, Bool.not_eq_true'] at hword
    exact hword.2
  have hnumber (rest : List Char) : startsNumber c (text ++ rest) = false := by
    have hdigit : c.isDigit = false := by
      refine Bool.eq_false_iff.mpr fun hdigit ↦ ?_
      have hletter := isLower_iff.mp hc
      have hrange := isDigit_iff.mp hdigit
      omega
    simp [startsNumber, hdigit, hother '+' rfl, hother '-' rfl]
  refine lexes_of_cut hkind fun rest hrest ↦ ?_
  obtain ⟨htake, hdrop⟩ := takeWhile_append_of_stop htext hrest
  rw [cut, if_neg (hother _ rfl), if_neg (hother _ rfl), if_neg (hother _ rfl),
    if_neg (hother _ rfl), if_neg (hother _ rfl), if_neg (hother _ rfl), if_neg (by simp [hspace]),
    if_neg (by simp [hnumber]), cutWord, ← List.cons_append, htake, hdrop, hclass]

/-! ### Numbers -/

/-- An integer is cut from what it prints, before a delimiter. -/
theorem lexes_integer (k : Int64) :
    Lexes n isDelimiter (toString k).toList [⟨n, .integer, toString k, .integer k⟩] := by
  obtain ⟨c, text, htext, hstart⟩ := (isNumeral_signOf k).exists_startsNumber
  have hlexeme : (toString k).toList = c :: text := (toList_toString k).trans htext
  rw [hlexeme, ← String.ofList_toList (s := toString k), hlexeme]
  refine lexes_of_cut rfl fun rest hrest ↦ ?_
  rw [cut_of_startsNumber (hstart rest), ← List.cons_append, ← htext, List.append_assoc,
    cutNumber?_integer (isNumeral_signOf k) hrest, integerValue?_signOf]
  rfl

theorem lexes_percentage (k : Int64) :
    Lexes n isDelimiter (toString k ++ "%").toList
      [⟨n, .percentage, toString k ++ "%", .integer k⟩] := by
  obtain ⟨c, text, htext, hstart⟩ := (isNumeral_signOf k).exists_startsNumber
  have hlexeme : (toString k ++ "%").toList = c :: (text ++ ['%']) := by
    rw [String.toList_append, toList_toString, htext]
    rfl
  rw [hlexeme, ← String.ofList_toList (s := toString k ++ "%"), hlexeme]
  refine lexes_of_cut rfl fun rest hrest ↦ ?_
  rw [List.append_assoc, List.singleton_append, cut_of_startsNumber (hstart _),
    ← List.cons_append, ← htext, List.append_assoc,
    cutNumber?_percentage (isNumeral_signOf k) hrest, integerValue?_signOf, ← List.cons_append,
    ← htext]
  rfl

/-! ### Quoted texts -/

/-- A text with a backslash before each of its quotes. -/
def escapeQuotes (text : List Char) : List Char :=
  text.flatMap fun c ↦ if c = '"' then ['\\', '"'] else [c]

theorem escapeQuotes_quote (text : List Char) :
    escapeQuotes ('"' :: text) = '\\' :: '"' :: escapeQuotes text := rfl

theorem escapeQuotes_cons {c : Char} (h : c ≠ '"') (text : List Char) :
    escapeQuotes (c :: text) = c :: escapeQuotes text := by
  rw [escapeQuotes, List.flatMap_cons, if_neg h]
  rfl

theorem escapeQuotes_append (front back : List Char) :
    escapeQuotes (front ++ back) = escapeQuotes front ++ escapeQuotes back :=
  List.flatMap_append

/-- A text between quotes, with its own quotes escaped. -/
def enquote (text : List Char) : List Char :=
  '"' :: (escapeQuotes text ++ ['"'])

theorem enquote_append (text rest : List Char) :
    enquote text ++ rest = '"' :: (escapeQuotes text ++ '"' :: rest) := by
  rw [enquote, List.cons_append, List.append_assoc]
  rfl

/-- A character that is no quote, starts no escaped quote and ends no line stands in the quoted
text. -/
theorem quotedParts_cons {c : Char} (hescape : c = '\\' → text.head? ≠ some '"')
    (hquote : c ≠ '"') (hline : c ≠ '\n') :
    quotedParts (c :: text) = (quotedParts text).cons c := by
  rw [quotedParts, if_neg hquote, if_neg hline]
  rintro _ hslash rfl
  exact hescape hslash rfl

/-- A character that starts no escaped quote stands for itself. -/
theorem unescapeQuotes_cons {c : Char} (hescape : c = '\\' → text.head? ≠ some '"') :
    unescapeQuotes (c :: text) = c :: unescapeQuotes text := by
  rw [unescapeQuotes]
  rintro _ hslash rfl
  exact hescape hslash rfl

/-- A backslash of a text does not come before a quote once the quotes have their own. Only at the
end of the text may it come before a quote that follows. -/
theorem head?_escapeQuotes_append {c : Char}
    (hend : (c :: text).getLast? = some '\\' → back.head? ≠ some '"') :
    c = '\\' → (escapeQuotes text ++ back).head? ≠ some '"' := by
  rintro rfl
  cases text with
  | nil => exact hend rfl
  | cons d text =>
    by_cases hquote : d = '"'
    · subst hquote
      simp [escapeQuotes_quote]
    · simp [escapeQuotes_cons hquote, hquote]

theorem getLast?_of_cons {c x : Char} {p : Prop} (h : (c :: text).getLast? = some x → p) :
    text.getLast? = some x → p := by
  intro hlast
  refine h ?_
  rw [List.getLast?_cons, hlast, Option.getD_some]

/-- A text with its quotes escaped stands between quotes, whatever comes after it. -/
theorem quotedParts_escapeQuotes_append (hline : '\n' ∉ text)
    (hend : text.getLast? = some '\\' → back.head? ≠ some '"') :
    quotedParts (escapeQuotes text ++ back) =
      { quotedParts back with inner := escapeQuotes text ++ (quotedParts back).inner } := by
  induction text with
  | nil => rfl
  | cons c text ih =>
    have hrest := ih (List.not_mem_of_not_mem_cons hline) (getLast?_of_cons hend)
    by_cases hquote : c = '"'
    · subst hquote
      rw [escapeQuotes_quote, List.cons_append, List.cons_append, quotedParts, hrest]
      rfl
    · rw [escapeQuotes_cons hquote, List.cons_append,
        quotedParts_cons (head?_escapeQuotes_append hend) hquote
          (List.ne_of_not_mem_cons hline).symm, hrest]
      rfl

/-- Escaped quotes stand for the quotes, unless a backslash at the end of the text escapes the one
after it. -/
theorem unescapeQuotes_escapeQuotes_append
    (hend : text.getLast? = some '\\' → back.head? ≠ some '"') :
    unescapeQuotes (escapeQuotes text ++ back) = text ++ unescapeQuotes back := by
  induction text with
  | nil => rfl
  | cons c text ih =>
    have hrest := ih (getLast?_of_cons hend)
    by_cases hquote : c = '"'
    · subst hquote
      rw [escapeQuotes_quote, List.cons_append, List.cons_append, unescapeQuotes, hrest]
      rfl
    · rw [escapeQuotes_cons hquote, List.cons_append,
        unescapeQuotes_cons (head?_escapeQuotes_append hend), hrest]
      rfl

/-- Escaping the quotes of a text loses nothing. -/
theorem unescapeQuotes_escapeQuotes (text : List Char) :
    unescapeQuotes (escapeQuotes text) = text := by
  have happend := @unescapeQuotes_escapeQuotes_append text [] fun _ ↦ by simp
  rwa [List.append_nil, unescapeQuotes, List.append_nil] at happend

/-- A text that is put in quotes is cut off as itself. -/
theorem cut_enquote (hline : '\n' ∉ text) (hend : text.getLast? ≠ some '\\') (rest : List Char) :
    cut '"' (escapeQuotes text ++ '"' :: rest) =
      ⟨.quotedText, .text (String.ofList text), enquote text, rest⟩ := by
  have hquote : cut '"' (escapeQuotes text ++ '"' :: rest) =
      cutQuoted (escapeQuotes text ++ '"' :: rest) := rfl
  have hclose : quotedParts ('"' :: rest) = ⟨[], ['"'], rest⟩ := by
    rw [quotedParts, if_pos rfl]
    exact fun _ hslash ↦ absurd hslash (by decide)
  rw [hquote, cutQuoted, quotedParts_escapeQuotes_append hline (absurd · hend), hclose]
  dsimp only
  rw [List.append_nil, unescapeQuotes_escapeQuotes]
  rfl

/-- Of the plain characters only the quote is escaped. -/
theorem escape_of_plain {c : Char} (h : Quoted.isPlain c = true) :
    Quoted.escape c = if c = '"' then ['\\', '"'] else [c] := by
  simp only [Quoted.isPlain, Bool.and_eq_true, decide_eq_true_eq, bne_iff_ne] at h
  obtain ⟨⟨hlow, hhigh⟩, hslash⟩ := h
  have hother (d : Char) (hd : d.toNat < 0x20) : c ≠ d := by
    rintro rfl
    omega
  have hprintable : isUnprintable c = false := by
    rw [isUnprintable, if_pos (by omega)]
    simp
    omega
  rw [Quoted.escape, if_neg (hother _ (by decide)), if_neg (hother _ (by decide)),
    if_neg (hother _ (by decide)), if_neg (hother _ (by decide)), hprintable]
  by_cases hquote : c = '"'
  · rw [if_pos (.inr hquote), if_pos hquote, hquote]
  · rw [if_neg (not_or.mpr ⟨hslash, hquote⟩), if_neg hquote]
    rfl

/-- Plain text needs no other escapes. -/
theorem toList_quote_of_plain {s : String} (h : ∀ c ∈ s.toList, Quoted.isPlain c = true) :
    (Quoted.quote s).toList = enquote s.toList := by
  rw [Quoted.quote, String.toList_ofList, enquote, escapeQuotes, List.flatMap_def,
    List.flatMap_def, List.map_congr_left fun c hc ↦ escape_of_plain (h c hc)]
  rfl

/-- A plain text is cut from what it prints, whatever comes after it. -/
theorem lexes_quote {s : String} (h : ∀ c ∈ s.toList, Quoted.isPlain c = true) :
    Lexes n (fun _ ↦ true) (Quoted.quote s).toList
      [⟨n, .quotedText, Quoted.quote s, .text s⟩] := by
  have hother {d : Char} (hd : Quoted.isPlain d = false) : d ∉ s.toList :=
    fun hmem ↦ Bool.false_ne_true (hd.symm.trans (h d hmem))
  have hend : s.toList.getLast? ≠ some '\\' := fun hlast ↦ hother rfl (List.mem_of_getLast? hlast)
  rw [← String.ofList_toList (s := Quoted.quote s), toList_quote_of_plain h,
    String.toList_ofList]
  refine lexes_of_cut rfl fun rest _ ↦ ?_
  rw [List.append_assoc, List.singleton_append, cut_enquote (hother rfl) hend,
    String.ofList_toList]
  rfl

end

end Token

end OrderFile
