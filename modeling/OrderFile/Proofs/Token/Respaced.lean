import Mathlib.Data.List.Chain
import OrderFile.Proofs.Token.Blanked
import OrderFile.Proofs.Token.Recut

/-!
Tokens written with single spaces between them. A line of tokens that is written so is cut into the
same tokens again, on whatever line it stands: `words_spaced`. The tokens of a text allow this, since
a text whose quote is not closed comes last on its line: `chain_prepare_scan`.
-/

set_option autoImplicit false

namespace OrderFile.Token

section

variable {n : UInt32} {c : Char} {text other : List Char} {ts : List Token}

/-- The same token on another line. -/
def onLine (n : UInt32) (t : Token) : Token :=
  { t with line := n }

/-- The texts of some tokens with single spaces between them. -/
def spaced (ts : List Token) : List Char :=
  (String.intercalate " " (ts.map (·.lexeme))).toList

theorem spaced_cons_cons (s t : Token) (ts : List Token) :
    spaced (s :: t :: ts) = s.lexeme.toList ++ ' ' :: spaced (t :: ts) := by
  rw [spaced, List.map_cons, List.map_cons, String.intercalate_cons_cons, String.toList_append,
    String.toList_append, List.append_assoc]
  rfl

/-! ### What is written is cut again -/

/-- A token that stands alone comes first in its own text with more after it, and the words of the
rest follow. -/
theorem words_of_standsAlone {t : Token} (h : t.StandsAlone)
    (hother : other.head?.all (!isWordChar ·) = true) (hclosed : t.isUnclosed = true → other = []) :
    words n (t.lexeme.toList ++ other) = t.onLine n :: words n other := by
  obtain ⟨hkind, c, front, hlexeme, hcut⟩ := h
  rw [hlexeme, List.cons_append, words_cons, hcut other hother hclosed]
  dsimp only
  rw [hkind, if_neg Bool.false_ne_true, ← hlexeme, String.ofList_toList]
  rfl

/-- Tokens that stand alone are the tokens of their texts with single spaces between them. -/
theorem words_spaced (h : ∀ t ∈ ts, t.StandsAlone)
    (hclosed : ts.IsChain fun s _ ↦ s.isUnclosed = false) :
    words n (spaced ts) = ts.map (onLine n) := by
  induction ts with
  | nil => exact words_nil
  | cons t ts ih =>
    obtain ⟨ht, hothers⟩ := List.forall_mem_cons.mp h
    obtain ⟨hnext, hchain⟩ := List.isChain_cons.mp hclosed
    have hrest := ih hothers hchain
    cases ts with
    | nil =>
      have hlast : words n (t.lexeme.toList ++ []) = t.onLine n :: words n [] :=
        words_of_standsAlone ht rfl fun _ ↦ rfl
      rw [List.append_nil, words_nil] at hlast
      rw [spaced, List.map_singleton, String.intercalate_singleton, hlast, List.map_singleton]
    | cons s ts =>
      have hopen : t.isUnclosed = true → ' ' :: spaced (s :: ts) = [] :=
        fun hunclosed ↦ absurd ((hnext s rfl).symm.trans hunclosed) Bool.false_ne_true
      rw [spaced_cons_cons, words_of_standsAlone ht rfl hopen, words_space, hrest]
      rfl

/-! ### Texts without line ends -/

/-- What does not start with a newline holds none. -/
theorem not_mem_cut_lexeme (hc : c ≠ '\n') : '\n' ∉ (cut c text).lexeme := by
  have hline {front : List Char} (hfront : '\n' ∉ c :: front) : '\n' ∉ (cut c front).lexeme := by
    intro hmem
    refine hfront ?_
    rw [← cut_append c front]
    exact List.mem_append_left _ hmem
  by_cases hmem : '\n' ∈ text
  · obtain ⟨front, back, rfl, hfront⟩ := List.eq_append_cons_of_mem hmem
    have hwhole : '\n' ∉ c :: front := List.not_mem_cons_of_ne_of_not_mem hc.symm hfront
    rw [cut_line hwhole]
    exact hline hwhole
  · exact hline (List.not_mem_cons_of_ne_of_not_mem hc.symm hmem)

/-- Only a line end has a line end in its text. -/
theorem not_mem_lexeme_of_mem_scanFrom {closed : Bool} {t : Token} (h : t ∈ scanFrom n closed text)
    (heol : t.kind ≠ .eol) : '\n' ∉ t.lexeme.toList := by
  fun_induction scanFrom n closed text with
  | case1 n =>
    obtain rfl := List.mem_singleton.mp h
    exact List.not_mem_nil
  | case2 n closed =>
    rcases List.mem_cons.mp h with rfl | hlast
    · exact absurd rfl heol
    · obtain rfl := List.mem_singleton.mp hlast
      exact List.not_mem_nil
  | case3 n closed c text k ih =>
    rcases List.mem_cons.mp h with rfl | hrest
    · rw [String.toList_ofList]
      refine not_mem_cut_lexeme ?_
      rintro rfl
      exact heol rfl
    · exact ih hrest

theorem not_mem_spaced (h : ∀ t ∈ ts, '\n' ∉ t.lexeme.toList) : '\n' ∉ spaced ts := by
  induction ts with
  | nil => exact List.not_mem_nil
  | cons t ts ih =>
    obtain ⟨ht, hothers⟩ := List.forall_mem_cons.mp h
    cases ts with
    | nil => rwa [spaced, List.map_singleton, String.intercalate_singleton]
    | cons s ts =>
      rw [spaced_cons_cons]
      intro hmem
      rcases List.mem_append.mp hmem with hfirst | hrest
      · exact ht hfirst
      · exact ih hothers ((List.mem_cons.mp hrest).resolve_left (by decide))

/-! ### The tokens of a text -/

/-- A prepared stream has no comments and no spaces. -/
theorem not_isTrivia_of_mem_prepare {ts : List Token} {t : Token} (h : t ∈ prepare ts) :
    t.kind.isTrivia = false := by
  rw [prepare_eq] at h
  have hkept := List.mem_filter.mp ((collapseLinesFrom_sublist false _).subset h)
  simpa using hkept.2

/-- How tokens of a prepared stream follow each other: only a line end changes the line, and only a
line end comes after a text that is not closed. -/
def Follows (s t : Token) : Prop :=
  (s.isUnclosed = true → t.kind = .eol) ∧ (s.kind ≠ .eol → t.line = s.line)

theorem follows_of_eol {s t : Token} (hs : s.kind = .eol) : Follows s t :=
  ⟨fun h ↦ by simp [isUnclosed, hs] at h, fun h ↦ absurd hs h⟩

/-- The words of a line stand on that line, and one that is not closed is the last. -/
theorem chain_words (h : '\n' ∉ text) : (words n text).IsChain Follows := by
  fun_induction lineTokens n text with
  | case1 =>
    rw [words_nil]
    exact .nil
  | case2 c text ih =>
    have hrest := ih (not_mem_cut_rest h)
    rw [words_cons]
    split
    · exact hrest
    · refine List.isChain_cons.mpr ⟨fun t ht ↦ ?_, hrest⟩
      have hmem := List.mem_filter.mp (List.mem_of_mem_head? ht)
      have hline := lineTokens_spec (not_mem_cut_rest h) t hmem.1
      refine ⟨fun hopen ↦ ?_, fun _ ↦ hline.1⟩
      rw [rest_of_isUnclosed h hopen, words_nil] at ht
      cases ht

/-- Leaving out the ends of empty lines keeps tokens in this order. -/
theorem chain_collapseLinesFrom {s : Token} {after : Bool} (h : (s :: ts).IsChain Follows)
    (hs : after = true → s.kind = .eol) :
    (s :: collapseLinesFrom after ts).IsChain Follows := by
  induction ts generalizing s after with
  | nil => exact h
  | cons t ts ih =>
    obtain ⟨hnext, hrest⟩ := List.isChain_cons.mp h
    have hst := hnext t rfl
    by_cases ht : t.kind = .eol
    · have hlater : (t :: collapseLinesFrom true ts).IsChain Follows := ih hrest fun _ ↦ ht
      rw [collapseLinesFrom_eol ht]
      cases after with
      | true =>
        exact List.isChain_cons.mpr ⟨fun _ _ ↦ follows_of_eol (hs rfl), hlater.tail⟩
      | false => exact List.isChain_cons.mpr ⟨hnext, hlater⟩
    · have hlater : (t :: collapseLinesFrom false ts).IsChain Follows := 
        ih hrest (absurd · Bool.false_ne_true)
      rw [collapseLinesFrom_word ht]
      exact List.isChain_cons_cons.mpr ⟨hst, hlater⟩

/-- The words of a line and the line end after them. -/
theorem chain_line {e : Token} (h : '\n' ∉ text) (he : e.kind = .eol) (hline : e.line = n)
    (hrest : (e :: ts).IsChain Follows) : (words n text ++ e :: ts).IsChain Follows := by
  refine List.isChain_append.mpr ⟨chain_words h, hrest, fun s hs t ht ↦ ?_⟩
  obtain rfl := Option.some.inj ht
  have hmem := List.mem_filter.mp (List.mem_of_getLast? hs)
  exact ⟨fun _ ↦ he, fun _ ↦ hline.trans (lineTokens_spec h s hmem.1).1.symm⟩

/-- The tokens of a text follow each other like this over all its lines. -/
theorem chain_filter_scanFrom (n : UInt32) (closed : Bool) (text : List Char) :
    ((scanFrom n closed text).filter (!·.kind.isTrivia)).IsChain Follows := by
  induction text using induction_lines generalizing n closed with
  | last text h =>
    rw [filter_scanFrom_last h]
    split
    · next hend =>
      rw [hend.2, ← words, words_nil]
      exact .singleton _
    · exact chain_line h rfl rfl
        (List.isChain_cons_cons.mpr ⟨follows_of_eol rfl, .singleton _⟩)
  | line front back hfront ih =>
    rw [filter_scanFrom_line hfront]
    exact chain_line hfront rfl rfl
      (List.isChain_cons.mpr ⟨fun _ _ ↦ follows_of_eol rfl, ih (n + 1) true⟩)

/-- The prepared tokens of a text follow each other like this. -/
theorem chain_prepare_scan (text : List Char) : (prepare (scan text)).IsChain Follows := by
  rw [prepare_eq]
  -- A line end before the first token is no restriction on it.
  have hfirst : (impliedEol 0 :: (scan text).filter (!·.kind.isTrivia)).IsChain Follows :=
    List.isChain_cons.mpr ⟨fun _ _ ↦ follows_of_eol rfl, chain_filter_scanFrom 1 false text⟩
  exact (chain_collapseLinesFrom hfirst (Bool.false_ne_true · |>.elim)).tail

end

end OrderFile.Token
