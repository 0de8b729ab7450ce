import OrderFile.Token.Prepared
import OrderFile.Token.Scan

/-!
How token streams end. Whatever a text holds, its tokens end with a line end and one end token, and
the prepared stream still does: `prepare_ended`.
-/

set_option autoImplicit false

namespace OrderFile.Token

/-- Tokens that end with a line end and an end token, and hold no other end token. `closed` says
that the token before them is a line end. -/
inductive Ended : Bool → List Token → Prop
  | eof {f : Token} (hf : f.kind = .eof) : Ended true [f]
  | cons {closed : Bool} {t : Token} {ts : List Token} (ht : t.kind ≠ .eof)
      (hts : Ended (t.kind == .eol) ts) : Ended closed (t :: ts)

/-- Tokens the last of which is a line end. -/
def EndsLine (ts : List Token) : Prop :=
  ∃ front e, ts = front ++ [e] ∧ e.kind = .eol

theorem EndsLine.append_left {ts : List Token} (h : EndsLine ts) (front : List Token) :
    EndsLine (front ++ ts) := by
  obtain ⟨middle, e, rfl, he⟩ := h
  exact ⟨front ++ middle, e, (List.append_assoc ..).symm, he⟩

theorem endsLine_singleton {e : Token} (he : e.kind = .eol) : EndsLine [e] :=
  ⟨[], e, rfl, he⟩

namespace Ended

/-- Tokens that end well with no line end before them do so after one as well. -/
theorem mono {closed : Bool} {ts : List Token} (h : Ended false ts) : Ended closed ts := by
  cases h with
  | cons ht hts => exact .cons ht hts

/-- What is left after the first token ends well. -/
theorem tail {closed : Bool} {t : Token} {ts : List Token} (hne : ts ≠ [])
    (h : Ended closed (t :: ts)) : Ended (t.kind == .eol) ts := by
  cases h with
  | eof => exact absurd rfl hne
  | cons _ hts => exact hts

/-- What comes after whole lines. -/
theorem drop {closed : Bool} {front ts : List Token} (hfront : EndsLine front)
    (h : Ended closed (front ++ ts)) : Ended true ts := by
  obtain ⟨before, e, rfl, he⟩ := hfront
  rw [List.append_assoc, List.singleton_append] at h
  induction before generalizing closed with
  | nil =>
    cases h with
    | eof hf => rw [he] at hf; cases hf
    | cons ht hts => rwa [he] at hts
  | cons t before ih => exact ih (h.tail (by simp))

/-- Nothing comes after an end token. -/
theorem eq_nil_of_eof {closed : Bool} {front ts : List Token} {f : Token} (hf : f.kind = .eof)
    (h : Ended closed (front ++ f :: ts)) : ts = [] := by
  induction front generalizing closed with
  | nil =>
    cases h with
    | eof => rfl
    | cons ht hts => exact absurd hf ht
  | cons t front ih => exact ih (h.tail (by simp))

/-- Tokens that end well still do without some that are no ends. -/
theorem filter {closed : Bool} {ts : List Token} {keep : Token → Bool}
    (heol : ∀ t, t.kind = .eol → keep t = true) (heof : ∀ t, t.kind = .eof → keep t = true)
    (h : Ended closed ts) : Ended closed (ts.filter keep) := by
  induction h with
  | @eof f hf =>
    rw [List.filter_cons_of_pos (heof f hf)]
    exact .eof hf
  | @cons closed t ts ht hts ih =>
    by_cases hkeep : keep t = true
    · rw [List.filter_cons_of_pos hkeep]
      exact .cons ht ih
    · have hother : (t.kind == .eol) = false := by
        rw [beq_eq_false_iff_ne]
        exact fun hkind ↦ hkeep (heol t hkind)
      rw [List.filter_cons_of_neg hkeep]
      rw [hother] at ih
      exact ih.mono

/-- Tokens that end well still do when repeated line ends are left out. -/
theorem collapseLinesFrom {closed : Bool} {ts : List Token} (h : Ended closed ts) :
    Ended closed (collapseLinesFrom closed ts) := by
  induction h with
  | @eof f hf =>
    rw [Token.collapseLinesFrom, if_neg (by simp [hf])]
    exact .eof hf
  | @cons closed t ts ht hts ih =>
    rw [Token.collapseLinesFrom]
    split
    · next heol =>
      rw [heol.1] at ih
      rw [heol.2]
      exact ih
    · exact .cons ht ih

end Ended

/-! ### The tokens of a text -/

/-- The kinds of words. -/
def Kind.words : List Kind :=
  [.text, .population, .resource, .research, .product, .depositId, .factoryGroupId, .mineGroupId]

/-- The kinds of numbers. -/
def Kind.numbers : List Kind := [.integer, .float, .percentage]

/-- Every word has one of the kinds of words. -/
theorem classify_mem_words (word : String) : (Vocabulary.classify word).1 ∈ Kind.words := by
  rw [Vocabulary.classify]
  cases h : Vocabulary.known? (lowercase word) with
  | none => simp [Kind.words]
  | some found =>
    simp only [Vocabulary.known?, Option.orElse_eq_orElse, Option.orElse_eq_or,
      Option.or_eq_some_iff, Option.map_eq_some_iff] at h
    rcases h with ⟨_, -, rfl⟩ | ⟨-, ⟨_, -, rfl⟩ | ⟨-, ⟨_, -, rfl⟩ | ⟨-, ⟨_, -, rfl⟩ |
      ⟨-, ⟨_, -, rfl⟩ | ⟨-, ⟨_, -, rfl⟩ | ⟨-, _, -, rfl⟩⟩⟩⟩⟩⟩ <;> simp [Kind.words]

theorem cutWord_mem_words (text : List Char) : (cutWord text).kind ∈ Kind.words :=
  classify_mem_words (String.ofList (text.takeWhile isWordChar))

theorem cutNumber?_mem_numbers {text : List Char} {k : Cut} (h : cutNumber? text = some k) :
    k.kind ∈ Kind.numbers := by
  simp only [cutNumber?, Option.filter_eq_some_iff] at h
  replace h := h.1
  split at h
  · obtain rfl := Option.some.inj h
    simp [Kind.numbers]
  · split at h
    · obtain ⟨n, -, rfl⟩ := Option.map_eq_some_iff.mp h
      simp [Kind.numbers]
    · obtain ⟨n, -, rfl⟩ := Option.map_eq_some_iff.mp h
      simp [Kind.numbers]

/-- A number or a word has one of their kinds. -/
theorem numberOrWord_mem (text : List Char) :
    ((cutNumber? text).getD (cutWord text)).kind ∈ Kind.numbers ++ Kind.words := by
  cases h : cutNumber? text with
  | none => exact List.mem_append_right _ (cutWord_mem_words text)
  | some k => exact List.mem_append_left _ (cutNumber?_mem_numbers h)

/-- Only the character that ends a line is cut off as a line end. -/
theorem cut_not_end {c : Char} (hc : c ≠ '\n') (text : List Char) :
    (cut c text).kind ≠ .eol ∧ (cut c text).kind ≠ .eof := by
  unfold cut
  rw [if_neg hc]
  split
  · simp
  split
  · simp
  split
  · simp
  split
  · simp [cutWhile]
  split
  · simp [cutQuoted]
  split
  · simp [cutWhile]
  have hkinds {k : Cut} (h : k.kind ∈ Kind.numbers ++ Kind.words) :
      k.kind ≠ .eol ∧ k.kind ≠ .eof :=
    ⟨fun heq ↦ absurd (heq ▸ h) (by decide), fun heq ↦ absurd (heq ▸ h) (by decide)⟩
  split
  · exact hkinds (numberOrWord_mem _)
  · exact hkinds (List.mem_append_right _ (cutWord_mem_words _))

/-- No text is cut as the end of all text. -/
theorem cut_kind_ne_eof (c : Char) (text : List Char) : (cut c text).kind ≠ .eof := by
  by_cases hc : c = '\n'
  · rw [cut, if_pos hc]
    simp
  · exact (cut_not_end hc text).2

/-- The tokens of a text end with a line end, and nothing but the end token after it. -/
theorem scanFrom_ended (line : UInt32) (closed : Bool) (text : List Char) :
    Ended closed (scanFrom line closed text) := by
  fun_induction scanFrom line closed text with
  | case1 line => exact .eof rfl
  | case2 line => exact .cons (by simp [impliedEol]) (.eof rfl)
  | case3 line closed c text k ih => exact .cons (cut_kind_ne_eof c text) ih

/-- Leaving out repeated line ends adds no tokens and moves none. -/
theorem collapseLinesFrom_sublist (after : Bool) (ts : List Token) :
    (collapseLinesFrom after ts).Sublist ts := by
  induction ts generalizing after with
  | nil => exact List.Sublist.refl _
  | cons t ts ih =>
    rw [collapseLinesFrom]
    split
    · exact (ih true).cons t
    · exact (ih _).cons_cons t

/-- What is prepared are the tokens that are neither comments nor spaces. -/
theorem prepare_eq (ts : List Token) :
    prepare ts = collapseLinesFrom false (ts.filter (!·.kind.isTrivia)) := by
  rw [prepare, collapseLines, withoutSpaces, withoutComments, List.filter_filter]
  congr 2
  ext t
  cases t.kind <;> rfl

/-- Preparing a stream adds no tokens and moves none. -/
theorem prepare_sublist (ts : List Token) : (prepare ts).Sublist ts := by
  rw [prepare_eq]
  exact (collapseLinesFrom_sublist false _).trans List.filter_sublist

/-- A prepared stream has no tokens of its own. -/
theorem mem_of_mem_prepare {t : Token} {ts : List Token} (h : t ∈ prepare ts) : t ∈ ts :=
  (prepare_sublist ts).subset h

/-- The prepared tokens of a text end with a line end and one end token. -/
theorem prepare_scan_ended (text : List Char) : Ended false (prepare (scan text)) := by
  have hscan : Ended false (scan text) := scanFrom_ended 1 false text
  have hkept : Ended false ((scan text).filter (!·.kind.isTrivia)) :=
    hscan.filter (by simp_all [Kind.isTrivia]) (by simp_all [Kind.isTrivia])
  rw [prepare_eq]
  exact hkept.collapseLinesFrom

end OrderFile.Token
