import OrderFile.Proofs.Token.Blanked
import OrderFile.Reading

/-!
Token streams that were thinned out before they are read. Every filter takes out nothing but what
preparing takes out anyway, and of several line ends in a row it leaves the first. So preparing
absorbs all filters before it, and a stream reads the same before and after them:
`readTokens_filtered`.
-/

set_option autoImplicit false

namespace OrderFile

namespace Token

/-- A stream thinned out in several ways, one after another. -/
def filtered (filters : List Filter) (ts : List Token) : List Token :=
  filters.foldl (fun ts filter ↦ filter.apply ts) ts

/-- Leaving out the ends of empty lines before a filter that keeps line ends makes no difference if
they are left out afterwards. -/
theorem collapseLinesFrom_filter {keep : Token → Bool}
    (hkeep : ∀ t, t.kind = .eol → keep t = true) {inner after : Bool}
    (h : inner = true → after = true) (ts : List Token) :
    collapseLinesFrom after ((collapseLinesFrom inner ts).filter keep) =
      collapseLinesFrom after (ts.filter keep) := by
  induction ts generalizing inner after with
  | nil => rfl
  | cons t ts ih =>
    by_cases heol : t.kind = .eol
    · have hkept := hkeep t heol
      rw [collapseLinesFrom_eol heol, List.filter_cons_of_pos hkept, collapseLinesFrom_eol heol]
      cases inner with
      | true =>
        obtain rfl := h rfl
        exact ih fun _ ↦ rfl
      | false =>
        rw [if_neg Bool.false_ne_true, List.singleton_append, List.filter_cons_of_pos hkept,
          collapseLinesFrom_eol heol, ih fun _ ↦ rfl]
    · have hinner {after : Bool} : false = true → after = true :=
        fun h ↦ absurd h Bool.false_ne_true
      rw [collapseLinesFrom_word heol]
      by_cases hkept : keep t = true
      · rw [List.filter_cons_of_pos hkept, List.filter_cons_of_pos hkept,
          collapseLinesFrom_word heol, collapseLinesFrom_word heol, ih hinner]
      · rw [List.filter_cons_of_neg hkept, List.filter_cons_of_neg hkept]
        exact ih hinner

/-- A filter of tokens that keeps all but comments and spaces is absorbed. -/
theorem prepare_filter {keep : Token → Bool} (hkeep : ∀ t, t.kind.isTrivia = false → keep t = true)
    (ts : List Token) : prepare (ts.filter keep) = prepare ts := by
  rw [prepare_eq, prepare_eq, List.filter_filter]
  congr 2
  ext t
  cases htrivia : t.kind.isTrivia with
  | true => rfl
  | false => rw [hkeep t htrivia]; rfl

theorem prepare_collapseLines (ts : List Token) : prepare (collapseLines ts) = prepare ts := by
  rw [prepare_eq, prepare_eq, collapseLines]
  exact collapseLinesFrom_filter (by simp_all [Kind.isTrivia]) (fun h ↦ h) ts

/-- Preparing absorbs each filter. -/
theorem prepare_apply (filter : Filter) (ts : List Token) :
    prepare (filter.apply ts) = prepare ts := by
  have hcomments (ts : List Token) : prepare (withoutComments ts) = prepare ts :=
    prepare_filter (fun t ht ↦ bne_iff_ne.mpr fun heq ↦ by simp [heq, Kind.isTrivia] at ht) ts
  have hspaces (ts : List Token) : prepare (withoutSpaces ts) = prepare ts :=
    prepare_filter (fun t ht ↦ bne_iff_ne.mpr fun heq ↦ by simp [heq, Kind.isTrivia] at ht) ts
  cases filter with
  | comments => exact hcomments ts
  | spaces => exact hspaces ts
  | lines => exact prepare_collapseLines ts
  | prepared =>
    calc prepare (prepare ts)
        = prepare (withoutSpaces (withoutComments ts)) := prepare_collapseLines _
      _ = prepare (withoutComments ts) := hspaces _
      _ = prepare ts := hcomments ts

/-- Preparing absorbs any sequence of filters before it. -/
theorem prepare_filtered (filters : List Filter) (ts : List Token) :
    prepare (filtered filters ts) = prepare ts := by
  induction filters generalizing ts with
  | nil => rfl
  | cons filter filters ih => exact (ih (filter.apply ts)).trans (prepare_apply filter ts)

end Token

/-- Whatever filters a token stream went through, in any order and however often, it is prepared to
the same tokens and read in the same way. -/
theorem readTokens_filtered (filters : List Token.Filter) (tokens : List Token) :
    Token.prepare (Token.filtered filters tokens) = Token.prepare tokens ∧
      ∀ options,
        readTokens (Token.filtered filters tokens) options = readTokens tokens options := by
  have hprepare := Token.prepare_filtered filters tokens
  refine ⟨hprepare, fun options ↦ ?_⟩
  rw [readTokens, readTokens, parseTokens, parseTokens, hprepare]

end OrderFile
