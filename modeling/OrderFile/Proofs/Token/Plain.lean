import OrderFile.Proofs.Token.Recut
import OrderFile.Proofs.Token.Reended
import OrderFile.Proofs.Token.Suited
import OrderFile.Proofs.Vocabulary.Categories

/-!
Tokens whose text says what they carry. Plain text is what is left over: a word without white space
that no category of the vocabulary accepts, and it carries itself. A quoted text carries what stands
between its quotes, on one line. With what the other kinds carry this is `suits_of_mem_scan`.
-/

set_option autoImplicit false

namespace OrderFile.Token

/-- A word that stands for nothing but itself. -/
structure IsPlainWord (word : String) : Prop where
  ne_empty : word ≠ ""
  blank : ∀ c ∈ word.toList, isBlank c = false
  unknown : ∀ category : Vocabulary.Category, category.read? (lowercase word) = none

section

variable {c : Char} {text : List Char}

/-! ### Plain words -/

/-- No white space is part of a word. -/
theorem not_isBlank_of_isWordChar (h : isWordChar c = true) : isBlank c = false := by
  by_cases hline : c = '\n'
  · subst hline
    cases h
  · simp_all [isWordChar, isSpace]

/-- A word is classified as text only if no category accepts it. -/
theorem unknown_of_classify {word : String} (h : (Vocabulary.classify word).1 = .text) :
    (∀ category : Vocabulary.Category, category.read? (lowercase word) = none) ∧
      (Vocabulary.classify word).2 = .text word := by
  have hknown : Vocabulary.known? (lowercase word) = none := by
    by_contra hsome
    obtain ⟨⟨kind, payload⟩, hfound⟩ := Option.ne_none_iff_exists'.mp hsome
    have hkind : kind = .text := by
      rw [Vocabulary.classify, hfound] at h
      exact h
    rw [Vocabulary.known?_eq_findSome?] at hfound
    obtain ⟨category, -, hread⟩ := List.exists_of_findSome?_eq_some hfound
    rw [hkind] at hread
    cases category <;> simp [Vocabulary.Category.read?] at hread
  refine ⟨fun category ↦ ?_, by rw [Vocabulary.classify, hknown, Option.getD_none]⟩
  rw [Vocabulary.known?_eq_findSome?, List.findSome?_eq_none_iff] at hknown
  exact hknown category category.mem_all

/-- A single character carries nothing, so it is no text. -/
theorem payload_ne_none (h : (cut c text).kind = .text) : (cut c text).payload ≠ .none := by
  have hsuits := suits_cut c text
  rw [h] at hsuits
  obtain ⟨s, hs⟩ := hsuits
  rw [hs]
  exact Payload.noConfusion

/-- Plain text is cut off as a word. -/
theorem cut_eq_cutWord (h : (cut c text).kind = .text) : cut c text = cutWord (c :: text) := by
  have hpayload := payload_ne_none h
  rcases cut_cases c with ⟨kind, -, -, hcut⟩ | ⟨kind, inClass, -, -, hcut⟩ | ⟨-, hcut⟩ | ⟨-, hcut⟩
  · rw [hcut] at hpayload
    exact absurd rfl hpayload
  · rw [hcut] at hpayload
    exact absurd rfl hpayload
  · rw [hcut] at h
    cases h
  · rw [hcut] at h ⊢
    cases hnumber : cutNumber? (c :: text) with
    | none => rw [Option.getD_none, ite_self]
    | some k =>
      rw [hnumber, Option.getD_some] at h
      split at h
      · have hmem := cutNumber?_mem_numbers hnumber
        rw [h] at hmem
        exact absurd hmem (by decide)
      · next hstart => rw [if_neg hstart]

/-- A word that is cut off as plain text carries itself, and no category accepts it. -/
theorem unknown_of_cutWord (h : (cutWord text).kind = .text) :
    (∀ category : Vocabulary.Category,
        category.read? (lowercase (String.ofList (cutWord text).lexeme)) = none) ∧
      (cutWord text).payload = .text (String.ofList (cutWord text).lexeme) := by
  have hword := @unknown_of_classify (String.ofList (text.takeWhile isWordChar))
  rw [cutWord] at h ⊢
  generalize Vocabulary.classify (String.ofList (text.takeWhile isWordChar)) = found at *
  obtain ⟨kind, payload⟩ := found
  exact hword h

/-- What is cut off as plain text is a word, and carries itself. -/
theorem isPlainWord_cut (h : (cut c text).kind = .text) :
    (cut c text).payload = .text (String.ofList (cut c text).lexeme) ∧
      IsPlainWord (String.ofList (cut c text).lexeme) := by
  have hne := cut_lexeme_ne_nil c text
  have hcut := cut_eq_cutWord h
  rw [hcut] at h hne ⊢
  obtain ⟨hunknown, hpayload⟩ := unknown_of_cutWord h
  refine ⟨hpayload, fun hempty ↦ hne ?_, fun d hd ↦ ?_, hunknown⟩
  · exact String.ofList_injective hempty
  · rw [String.toList_ofList] at hd
    exact not_isBlank_of_isWordChar (isWordChar_of_mem_cutWord _ d hd)

end

/-! ### The tokens of a text -/

/-- Plain text of a stream carries itself, and is a word that stands for nothing else. -/
theorem isPlainWord_of_mem_scanFrom {n : UInt32} {closed : Bool} {text : List Char} :
    ∀ t ∈ scanFrom n closed text, t.kind = .text →
      t.payload = .text t.lexeme ∧ IsPlainWord t.lexeme := by
  fun_induction scanFrom n closed text with
  | case1 n => exact List.forall_mem_singleton.mpr fun hkind ↦ by cases hkind
  | case2 n =>
    exact List.forall_mem_cons.mpr
      ⟨(fun hkind ↦ by cases hkind), List.forall_mem_singleton.mpr fun hkind ↦ by cases hkind⟩
  | case3 n closed c text k ih => exact List.forall_mem_cons.mpr ⟨isPlainWord_cut, ih⟩

/-- Every token of a text carries what its kind asks for. Numbers carry their value, words of the
vocabulary the number of a group, which is not negative, or a canonical name of their own category,
which has a level for research and products only, and marks carry nothing. Plain text carries itself
and is a word without white space that no category accepts. What a quoted text carries has no line
end. -/
theorem suits_of_mem_scan {text : List Char} {t : Token} (h : t ∈ scan text) :
    t.payload.Suits t.kind ∧
      (t.kind = .text → t.payload = .text t.lexeme ∧ t.lexeme ≠ "" ∧
        (∀ c ∈ t.lexeme.toList, isBlank c = false) ∧
        ∀ category : Vocabulary.Category, category.read? (lowercase t.lexeme) = none) ∧
      (t.kind = .quotedText → ∃ s : String, t.payload = .text s ∧ '\n' ∉ s.toList) := by
  have hsuited := suited_of_mem_scanFrom t h
  refine ⟨hsuited, fun hkind ↦ ?_, fun hkind ↦ ?_⟩
  · obtain ⟨hpayload, hplain⟩ := isPlainWord_of_mem_scanFrom t h hkind
    exact ⟨hpayload, hplain.ne_empty, hplain.blank, hplain.unknown⟩
  · rw [Suited, hkind] at hsuited
    obtain ⟨s, hs⟩ := hsuited
    exact ⟨s, hs, (oneLine_of_mem_scanFrom h).text hkind s hs⟩

/-- A word that no category accepts, before a quoted text with a quote in it. -/
theorem suits_of_mem_scan_word :
    (⟨1, .text, "5x-gold", .text "5x-gold"⟩ : Token) ∈ scan "5x-gold \"a \\\"b".toList ∧
      (∀ c ∈ "5x-gold".toList, isBlank c = false) ∧
      ∀ category : Vocabulary.Category, category.read? (lowercase "5x-gold") = none := by
  have hmem : (⟨1, .text, "5x-gold", .text "5x-gold"⟩ : Token) ∈
      scan "5x-gold \"a \\\"b".toList := by decide +kernel
  obtain ⟨-, hplain, -⟩ := suits_of_mem_scan hmem
  obtain ⟨-, -, hblank, hunknown⟩ := hplain rfl
  exact ⟨hmem, hblank, hunknown⟩

end OrderFile.Token
