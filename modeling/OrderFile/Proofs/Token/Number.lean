import OrderFile.Proofs.Decimal.Digits

/-!
Numbers at the front of a text. A number is a sign or none, digits, and what follows them: a point
and more digits, a percent sign, or neither, which leaves an integer: `cutNumber?_of_isNumeral` and
`numberBefore_fraction`, `numberBefore_percent` and `numberBefore_other`.
-/

set_option autoImplicit false

namespace OrderFile.Token

section

variable {c : Char} {text rest : List Char}

/-! ### Classes of characters -/

/-- Characters of printable ASCII but the space. -/
theorem isSpace_of_visible (hlow : 0x21 ≤ c.toNat) (hhigh : c.toNat ≤ 0x7E) :
    isSpace c = false := by
  have hblank : isBlank c = false := by
    simp [isBlank, blankRanges]
    omega
  have hother : c ≠ Utf8.replacement := by
    rintro rfl
    exact absurd hhigh (by decide)
  simp [isSpace, hblank, hother]

/-- Every visible character of ASCII is part of a word. -/
theorem isWordChar_of_visible (hlow : 0x21 ≤ c.toNat) (hhigh : c.toNat ≤ 0x7E) :
    isWordChar c = true := by
  have hline : c ≠ '\n' := by
    rintro rfl
    exact absurd hlow (by decide)
  simp [isWordChar, isSpace_of_visible hlow hhigh, hline]

theorem isDigit_iff : c.isDigit = true ↔ 48 ≤ c.toNat ∧ c.toNat ≤ 57 := by
  simp [Char.isDigit, UInt32.le_iff_toNat_le]

theorem isLower_iff : c.isLower = true ↔ 97 ≤ c.toNat ∧ c.toNat ≤ 122 := by
  have hlow : 'a'.val ≤ c.val ↔ 97 ≤ c.toNat := UInt32.le_iff_toNat_le
  have hhigh : c.val ≤ 'z'.val ↔ c.toNat ≤ 122 := UInt32.le_iff_toNat_le
  rw [← hlow, ← hhigh, ← decide_eq_true_iff (p := 'a'.val ≤ c.val),
    ← decide_eq_true_iff (p := c.val ≤ 'z'.val), ← Bool.and_eq_true]
  exact Iff.rfl

theorem isUpper_iff : c.isUpper = true ↔ 65 ≤ c.toNat ∧ c.toNat ≤ 90 := by
  have hlow : 'A'.val ≤ c.val ↔ 65 ≤ c.toNat := UInt32.le_iff_toNat_le
  have hhigh : c.val ≤ 'Z'.val ↔ c.toNat ≤ 90 := UInt32.le_iff_toNat_le
  rw [← hlow, ← hhigh]
  exact decide_eq_true_iff

theorem isAlpha_iff :
    c.isAlpha = true ↔ 65 ≤ c.toNat ∧ c.toNat ≤ 90 ∨ 97 ≤ c.toNat ∧ c.toNat ≤ 122 := by
  rw [← isUpper_iff, ← isLower_iff, ← Bool.or_eq_true]
  exact Iff.rfl

theorem isWordChar_of_isDigit (h : c.isDigit = true) : isWordChar c = true := by
  obtain ⟨hlow, hhigh⟩ := isDigit_iff.mp h
  exact isWordChar_of_visible (by omega) (by omega)

/-- What ends a word also ends a number. -/
theorem isDelimiter_of_not_isWordChar (h : (!isWordChar c) = true) : isDelimiter c = true := by
  have hend : c = '\n' ∨ isSpace c = true := by simpa [isWordChar] using h
  simp only [isDelimiter, Bool.or_eq_true, beq_iff_eq]
  exact hend.elim (fun hline ↦ .inl (.inl (.inl (.inl (.inl hline))))) .inr

theorem not_isDigit_of_isDelimiter (h : isDelimiter c = true) : c.isDigit = false := by
  cases hdigit : c.isDigit with
  | false => rfl
  | true =>
    obtain ⟨hlow, hhigh⟩ := isDigit_iff.mp hdigit
    have hspace : isSpace c = false := isSpace_of_visible (by omega) (by omega)
    simp only [isDelimiter, hspace, Bool.or_false, Bool.or_eq_true, beq_iff_eq] at h
    rcases h with (((rfl | rfl) | rfl) | rfl) | rfl <;> cases hdigit

/-! ### Fronts of a class -/

theorem of_mem_takeWhile {p : Char → Bool} (h : c ∈ text.takeWhile p) : p c = true :=
  List.all_eq_true.mp List.all_takeWhile c h

/-- What is left after the characters of a class does not start with one of them. -/
theorem head?_dropWhile_all (p : Char → Bool) (text : List Char) :
    (text.dropWhile p).head?.all (!p ·) = true := by
  have hstop := List.head?_dropWhile_not p text
  cases h : (text.dropWhile p).head? with
  | none => rfl
  | some d =>
    rw [h] at hstop
    simpa using hstop

theorem all_of_imp {p q : Char → Bool} {d? : Option Char} (h : d?.all p = true)
    (himp : ∀ d, p d = true → q d = true) : d?.all q = true := by
  cases d? with
  | none => rfl
  | some d => exact himp d h

/-- Where the characters of a class are followed by none of the class, taking as many as there are
splits the text at that place. -/
theorem takeWhile_append_of_stop {p : Char → Bool} {front : List Char}
    (hfront : ∀ c ∈ front, p c = true) (hrest : rest.head?.all (!p ·) = true) :
    (front ++ rest).takeWhile p = front ∧ (front ++ rest).dropWhile p = rest := by
  have hstop : rest.takeWhile p = [] ∧ rest.dropWhile p = rest := by
    cases rest with
    | nil => exact ⟨rfl, rfl⟩
    | cons c rest =>
      have hc : ¬ p c = true := by simpa using hrest
      exact ⟨List.takeWhile_cons_of_neg hc, List.dropWhile_cons_of_neg hc⟩
  rw [List.takeWhile_append_of_pos hfront, List.dropWhile_append_of_pos hfront, hstop.1, hstop.2,
    List.append_nil]
  exact ⟨rfl, rfl⟩

/-- The digits of a number end where the number does. -/
theorem not_isDigit_of_delimited (h : rest.head?.all isDelimiter = true) :
    rest.head?.all (!Char.isDigit ·) = true :=
  all_of_imp h fun d hd ↦ by simp [not_isDigit_of_isDelimiter hd]

/-! ### Signs and digits -/

/-- A sign or none, and digits. -/
structure IsNumeral (sign whole : List Char) : Prop where
  sign : sign = [] ∨ sign = ['+'] ∨ sign = ['-']
  ne_nil : whole ≠ []
  digits : ∀ d ∈ whole, d.isDigit = true

/-- A text that starts like a number starts with a sign or none and digits. -/
theorem exists_isNumeral (h : startsNumber c text = true) :
    ∃ sign whole after, c :: text = sign ++ (whole ++ after) ∧ IsNumeral sign whole ∧
      after.head?.all (!Char.isDigit ·) = true := by
  have hdigits {d : Char} (hd : d.isDigit = true) (text : List Char) :
      (d :: text).takeWhile Char.isDigit ≠ [] := by
    simp [hd]
  have hsplit (text : List Char) :=
    (List.takeWhile_append_dropWhile (p := Char.isDigit) (l := text)).symm
  rw [startsNumber, Bool.or_eq_true, Bool.and_eq_true, Bool.or_eq_true, beq_iff_eq,
    beq_iff_eq] at h
  rcases h with hc | ⟨hsign, hnext⟩
  · exact ⟨[], _, _, hsplit (c :: text), ⟨.inl rfl, hdigits hc text, fun _ ↦ of_mem_takeWhile⟩,
      head?_dropWhile_all ..⟩
  · cases text with
    | nil => cases hnext
    | cons d text =>
      refine ⟨[c], _, _, congrArg (c :: ·) (hsplit (d :: text)),
        ⟨.inr ?_, hdigits hnext text, fun _ ↦ of_mem_takeWhile⟩, head?_dropWhile_all ..⟩
      exact hsign.imp (congrArg ([·])) (congrArg ([·]))

/-- An integer is written with a minus sign or none and its digits, which is a numeral. -/
theorem isNumeral_signOf (k : Int64) : IsNumeral (signOf k) (digitsOf k) where
  sign := by
    unfold signOf
    split <;> simp
  ne_nil := Nat.toDigits_ne_nil
  digits _ := isDigit_of_mem_toDigits

section

variable {sign whole after : List Char}

/-- A sign or none and digits start like a number, whatever comes after them. -/
theorem IsNumeral.exists_startsNumber (h : IsNumeral sign whole) :
    ∃ c text, sign ++ whole = c :: text ∧ ∀ rest, startsNumber c (text ++ rest) = true := by
  obtain ⟨d, digits, rfl⟩ := List.exists_cons_of_ne_nil h.ne_nil
  have hd := h.digits d List.mem_cons_self
  rcases h.sign with rfl | rfl | rfl
  · exact ⟨d, digits, rfl, fun _ ↦ by simp [startsNumber, hd]⟩
  · exact ⟨'+', d :: digits, rfl, fun _ ↦ by simp [startsNumber, hd]⟩
  · exact ⟨'-', d :: digits, rfl, fun _ ↦ by simp [startsNumber, hd]⟩

/-- A numeral stands within one word: neither its sign nor a digit ends a word. -/
theorem IsNumeral.isWordChar (h : IsNumeral sign whole) :
    ∀ d ∈ sign ++ whole, isWordChar d = true := by
  refine List.forall_mem_append.mpr ⟨?_, fun d hd ↦ isWordChar_of_isDigit (h.digits d hd)⟩
  rcases h.sign with rfl | rfl | rfl <;> simp <;> rfl

/-- The sign of a numeral is split off whole, and none is found before a numeral without one. -/
theorem signParts_of_isNumeral (h : IsNumeral sign whole) :
    signParts (sign ++ (whole ++ after)) = (sign, whole ++ after) := by
  obtain ⟨d, digits, rfl⟩ := List.exists_cons_of_ne_nil h.ne_nil
  have hd := h.digits d List.mem_cons_self
  rcases h.sign with rfl | rfl | rfl
  · rw [List.nil_append, List.cons_append, signParts]
    · rintro _ heq
      obtain ⟨rfl, -⟩ := List.cons.inj heq
      cases hd
    · rintro _ heq
      obtain ⟨rfl, -⟩ := List.cons.inj heq
      cases hd
  · rfl
  · rfl

/-! ### Numbers -/

theorem fractionParts?_of_ne (hc : c ≠ '.') : fractionParts? (c :: text) = none := by
  rw [fractionParts?]
  rintro _ _ heq
  exact hc (List.cons.inj heq).1

/-- A fraction is a point and at least one digit, with all the digits that follow. -/
theorem fractionParts?_eq_some_iff {digits : List Char} :
    fractionParts? text = some (digits, rest) ↔
      text = '.' :: (digits ++ rest) ∧ digits ≠ [] ∧ (∀ d ∈ digits, d.isDigit = true) ∧
        rest.head?.all (!Char.isDigit ·) = true := by
  constructor
  · intro h
    have happend := fractionParts?_append h
    unfold fractionParts? at h
    split at h
    · next d text =>
      obtain ⟨hd, heq⟩ := Option.ite_none_right_eq_some.mp h
      obtain ⟨rfl, rfl⟩ := Prod.mk.inj (Option.some.inj heq)
      exact ⟨happend.symm, List.cons_ne_nil _ _,
        List.forall_mem_cons.mpr ⟨hd, fun _ ↦ of_mem_takeWhile⟩, head?_dropWhile_all ..⟩
    · cases h
  · rintro ⟨rfl, hne, hdigits, hrest⟩
    obtain ⟨d, digits, rfl⟩ := List.exists_cons_of_ne_nil hne
    obtain ⟨hd, hothers⟩ := List.forall_mem_cons.mp hdigits
    obtain ⟨htake, hdrop⟩ := takeWhile_append_of_stop hothers hrest
    rw [List.cons_append, fractionParts?, if_pos hd, htake, hdrop]

/-- The number of a sign and digits by what comes after them. -/
def numberBefore (sign whole after : List Char) : Option Cut :=
  match fractionParts? after with
  | some (fraction, rest) =>
    some ⟨.float, .float (floatValue sign whole fraction), sign ++ whole ++ '.' :: fraction, rest⟩
  | none =>
    match after with
    | '%' :: rest =>
      (integerValue? sign whole).map fun n ↦ ⟨.percentage, .integer n, sign ++ whole ++ ['%'], rest⟩
    | rest => (integerValue? sign whole).map fun n ↦ ⟨.integer, .integer n, sign ++ whole, rest⟩

/-- A number is cut in three steps: the sign, the digits, and what the text after them makes of
these. It counts only if a delimiter or the end of the text follows. -/
theorem cutNumber?_eq (text : List Char) :
    cutNumber? text =
      (numberBefore (signParts text).1 ((signParts text).2.takeWhile Char.isDigit)
        ((signParts text).2.dropWhile Char.isDigit)).filter (·.rest.head?.all isDelimiter) := rfl

/-- The digits of a numeral are taken up to where they end, so what it becomes is decided after
it. -/
theorem cutNumber?_of_isNumeral (h : IsNumeral sign whole)
    (hafter : after.head?.all (!Char.isDigit ·) = true) :
    cutNumber? (sign ++ (whole ++ after)) =
      (numberBefore sign whole after).filter (·.rest.head?.all isDelimiter) := by
  obtain ⟨htake, hdrop⟩ := takeWhile_append_of_stop h.digits hafter
  rw [cutNumber?_eq, signParts_of_isNumeral h]
  dsimp only
  rw [htake, hdrop]

/-- A point with digits after it makes the numeral a float. -/
theorem numberBefore_fraction {fraction : List Char}
    (h : fractionParts? after = some (fraction, rest)) :
    numberBefore sign whole after = some
      ⟨.float, .float (floatValue sign whole fraction), sign ++ whole ++ '.' :: fraction, rest⟩ := by
  unfold numberBefore
  rw [h]

/-- A percent sign makes the numeral a percentage, if its value fits. -/
theorem numberBefore_percent (rest : List Char) :
    numberBefore sign whole ('%' :: rest) = (integerValue? sign whole).map fun n ↦
      ⟨.percentage, .integer n, sign ++ whole ++ ['%'], rest⟩ := by
  unfold numberBefore
  rw [fractionParts?_of_ne (by decide)]
  rfl

/-- Without a fraction and a percent sign the numeral is an integer, if its value fits. -/
theorem numberBefore_other (hpoint : fractionParts? after = none)
    (hpercent : ∀ rest, after ≠ '%' :: rest) :
    numberBefore sign whole after = (integerValue? sign whole).map fun n ↦
      ⟨.integer, .integer n, sign ++ whole, after⟩ := by
  unfold numberBefore
  rw [hpoint]
  dsimp only
  split
  · exact absurd rfl (hpercent _)
  · rfl

/-- A numeral before a delimiter is an integer, if its value fits: neither a point nor a percent
sign delimits. -/
theorem numberBefore_delimited (h : after.head?.all isDelimiter = true) :
    numberBefore sign whole after = (integerValue? sign whole).map fun n ↦
      ⟨.integer, .integer n, sign ++ whole, after⟩ := by
  have hother {d : Char} (hd : isDelimiter d = false) (back : List Char) : after ≠ d :: back := by
    rintro rfl
    exact Bool.false_ne_true (hd.symm.trans h)
  have hpoint : fractionParts? after = none := by
    cases after with
    | nil => rfl
    | cons d back =>
      refine fractionParts?_of_ne fun hd ↦ ?_
      exact hother (rfl : isDelimiter '.' = false) back (by rw [hd])
  exact numberBefore_other hpoint (hother (rfl : isDelimiter '%' = false))

/-- The integer at the front of a text. -/
theorem cutNumber?_integer (h : IsNumeral sign whole) (hrest : rest.head?.all isDelimiter = true) :
    cutNumber? (sign ++ (whole ++ rest)) = (integerValue? sign whole).map fun n ↦
      ⟨.integer, .integer n, sign ++ whole, rest⟩ := by
  rw [cutNumber?_of_isNumeral h (not_isDigit_of_delimited hrest), numberBefore_delimited hrest]
  cases integerValue? sign whole with
  | none => rfl
  | some n => exact if_pos hrest

/-- The percentage at the front of a text. -/
theorem cutNumber?_percentage (h : IsNumeral sign whole)
    (hrest : rest.head?.all isDelimiter = true) :
    cutNumber? (sign ++ (whole ++ '%' :: rest)) = (integerValue? sign whole).map fun n ↦
      ⟨.percentage, .integer n, sign ++ whole ++ ['%'], rest⟩ := by
  rw [cutNumber?_of_isNumeral h rfl, numberBefore_percent]
  cases integerValue? sign whole with
  | none => rfl
  | some n => exact if_pos hrest

end

/-! ### Texts that start with a number -/

/-- What starts like a number is cut as a number, or else as a word. -/
theorem cut_of_startsNumber (h : startsNumber c text = true) :
    cut c text = (cutNumber? (c :: text)).getD (cutWord (c :: text)) := by
  have hother (d : Char) (hd : (d.isDigit || d == '+' || d == '-') = false) : c ≠ d := by
    rintro rfl
    simp_all [startsNumber]
  have hspace : isSpace c = false := by
    cases hdigit : c.isDigit with
    | true =>
      obtain ⟨hlow, hhigh⟩ := isDigit_iff.mp hdigit
      exact isSpace_of_visible (by omega) (by omega)
    | false =>
      have hsign : c = '+' ∨ c = '-' := by simp_all [startsNumber]
      rcases hsign with rfl | rfl <;> rfl
  rw [cut, if_neg (hother _ rfl), if_neg (hother _ rfl), if_neg (hother _ rfl),
    if_neg (hother _ rfl), if_neg (hother _ rfl), if_neg (hother _ rfl), if_neg (by simp [hspace]),
    if_pos h]

end

end OrderFile.Token
