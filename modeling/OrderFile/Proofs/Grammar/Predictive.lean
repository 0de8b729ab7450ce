import OrderFile.Grammar.Rules
import OrderFile.Proofs.Grammar.Fits

/-!
Patterns that one token of lookahead decides. A parse never comes back to a choice: where a pattern
leaves one, the next token settles it, and what is optional or repeated is taken whenever it can be.
That loses nothing as long as the kinds that start one way never start the other: `predictive` asks
for this throughout a pattern, and `front?_of_fits` says that then every list of trees that fits is
what the pattern reads off the tokens of the trees.
-/

set_option autoImplicit false

namespace OrderFile.Grammar.Pattern

open OrderFile.Tree (tokensOf)

/-! ### The kinds that come first -/

/-- The kinds that the next token can have where a pattern comes next and the given kinds come
after it. -/
def heads : Pattern → List Token.Kind → List Token.Kind
  | empty, after => after
  | token shape, _ => [shape.kind]
  | anyOf kinds, _ => kinds
  | oneWord _, _ => [.text]
  | integerIn _ _, _ => [.integer]
  | seq first second, after => first.heads (second.heads after)
  | choice first second, after => first.heads after ++ second.heads after
  | optional body, after | repeated body _, after => body.heads [] ++ after
  | rule _ body, after => body.heads after

/-- Whether a pattern takes a token that starts it, however it is followed. -/
def eager : Pattern → Bool
  | token _ | anyOf _ | oneWord _ | integerIn _ _ => true
  | seq first _ => first.eager
  | choice first second => first.eager && second.eager
  | rule _ body => body.eager
  | empty | optional _ | repeated _ _ => false

/-- Whether no kind is in both lists. -/
def apart (kinds others : List Token.Kind) : Bool :=
  kinds.all fun k ↦ !others.contains k

/-- Whether the next token decides every choice that a pattern leaves where the given kinds come
after it. A word that stops a repetition is one more thing that comes after the repeated pattern. -/
def predictive : Pattern → List Token.Kind → Bool
  | seq first second, after =>
    first.predictive (second.heads after) && second.predictive after
  | optional body, after =>
    body.eager && body.predictive after && apart (body.heads []) after
  | choice first second, after =>
    first.eager && first.predictive after && second.predictive after &&
      apart (first.heads []) (second.heads after)
  | repeated body _, after =>
    body.eager && body.predictive (body.heads [] ++ after) && apart (body.heads []) (.text :: after)
  | rule _ body, after => body.predictive after
  | _, _ => true

theorem predictive_seq_iff {first second : Pattern} {after : List Token.Kind} :
    (seq first second).predictive after = true ↔
      first.predictive (second.heads after) = true ∧ second.predictive after = true := by
  rw [predictive, Bool.and_eq_true]

/-- What is optional is decided by the next token if what it starts with cannot come after it. -/
theorem predictive_optional_iff {body : Pattern} {after : List Token.Kind} :
    (optional body).predictive after = true ↔
      body.eager = true ∧ body.predictive after = true ∧ apart (body.heads []) after = true := by
  rw [predictive, Bool.and_eq_true, Bool.and_eq_true, and_assoc]

/-- A choice is decided by the next token if its branches start differently. -/
theorem predictive_choice_iff {first second : Pattern} {after : List Token.Kind} :
    (choice first second).predictive after = true ↔
      first.eager = true ∧ first.predictive after = true ∧ second.predictive after = true ∧
        apart (first.heads []) (second.heads after) = true := by
  rw [predictive, Bool.and_eq_true, Bool.and_eq_true, Bool.and_eq_true, and_assoc, and_assoc]

/-- A repetition is decided by the next token if what it repeats starts differently from what ends
it. -/
theorem predictive_repeated_iff {body : Pattern} {stop : String} {after : List Token.Kind} :
    (repeated body stop).predictive after = true ↔
      body.eager = true ∧ body.predictive (body.heads [] ++ after) = true ∧
        apart (body.heads []) (.text :: after) = true := by
  rw [predictive, Bool.and_eq_true, Bool.and_eq_true, and_assoc]

/-- No token is of a kind in both of two lists that are apart. -/
theorem not_mem_of_apart {kinds others : List Token.Kind} {k : Token.Kind}
    (h : apart kinds others = true) (hk : k ∈ kinds) : k ∉ others := by
  intro hother
  have hnot := List.all_eq_true.mp h k hk
  rw [List.contains_iff_mem.mpr hother] at hnot
  cases hnot

/-- More ways to go on give more ways to start. -/
theorem heads_mono {pattern : Pattern} {after more : List Token.Kind} (h : after ⊆ more) :
    pattern.heads after ⊆ pattern.heads more := by
  induction pattern generalizing after more with
  | empty => exact h
  | token | anyOf | oneWord | integerIn => exact List.Subset.refl _
  | seq first second ihfirst ihsecond => exact ihfirst (ihsecond h)
  | choice first second ihfirst ihsecond =>
    exact List.append_subset.mpr
      ⟨List.subset_append_of_subset_left _ (ihfirst h),
        List.subset_append_of_subset_right _ (ihsecond h)⟩
  | optional body | repeated body =>
    exact List.append_subset.mpr
      ⟨List.subset_append_left _ _, List.subset_append_of_subset_right _ h⟩
  | rule name body ih => exact ih h

/-- A pattern starts with tokens of its own first kinds only. -/
theorem kind_mem_of_starts {pattern : Pattern} {t : Token} (h : pattern.starts t = true) :
    t.kind ∈ pattern.heads [] := by
  induction pattern with
  | empty | optional | repeated => cases h
  | token shape =>
    obtain ⟨hkind, -⟩ := (Bool.and_eq_true _ _).mp h
    exact List.mem_singleton.mpr (eq_of_beq hkind)
  | anyOf kinds => exact List.contains_iff_mem.mp h
  | oneWord words =>
    obtain ⟨w, -, hw⟩ := List.any_eq_true.mp h
    exact List.mem_singleton.mpr (Token.kind_of_spells hw)
  | integerIn low high => exact List.mem_singleton.mpr (eq_of_beq h)
  | seq first second ihfirst _ =>
    have hmore : first.heads [] ⊆ first.heads (second.heads []) := heads_mono (List.nil_subset _)
    exact hmore (ihfirst h)
  | choice first second ihfirst ihsecond =>
    rcases (Bool.or_eq_true _ _).mp h with hfirst | hsecond
    · exact List.mem_append_left _ (ihfirst hfirst)
    · exact List.mem_append_right _ (ihsecond hsecond)
  | rule name body ih => exact ih h

/-! ### The first token of what fits -/

/-- What fits a pattern of one token is a leaf that the pattern admits. -/
theorem starts_of_admits {pattern : Pattern} {t : Token} (h : admits t pattern = true) :
    pattern.starts t = true := by
  cases pattern with
  | token | anyOf | oneWord => exact h
  | integerIn low high =>
    obtain ⟨hkind, -⟩ := (Bool.and_eq_true _ _).mp h
    exact hkind
  | _ => cases h

/-- Trees that fit a pattern which takes something start as the pattern does. -/
theorem starts_of_fits {pattern : Pattern} {trees : List Tree} (heager : pattern.eager = true)
    (h : pattern.Fits trees) : ∃ t ts, tokensOf trees = t :: ts ∧ pattern.starts t = true := by
  induction pattern generalizing trees with
  | empty | optional | repeated => cases heager
  | token | anyOf | oneWord | integerIn =>
    obtain ⟨t, ht, rfl⟩ := h
    exact ⟨t, [], rfl, starts_of_admits ht⟩
  | seq first second ihfirst _ =>
    obtain ⟨front, back, hfirst, -, rfl⟩ := h
    obtain ⟨t, ts, hfront, hstarts⟩ := ihfirst heager hfirst
    refine ⟨t, ts ++ tokensOf back, ?_, hstarts⟩
    rw [Tree.tokensOf_append, hfront, List.cons_append]
  | choice first second ihfirst ihsecond =>
    obtain ⟨hfirst, hsecond⟩ := (Bool.and_eq_true _ _).mp heager
    rcases h with h | h
    · obtain ⟨t, ts, hts, hstarts⟩ := ihfirst hfirst h
      exact ⟨t, ts, hts, (Bool.or_eq_true _ _).mpr (.inl hstarts)⟩
    · obtain ⟨t, ts, hts, hstarts⟩ := ihsecond hsecond h
      exact ⟨t, ts, hts, (Bool.or_eq_true _ _).mpr (.inr hstarts)⟩
  | rule name body ih =>
    obtain ⟨children, hbody, rfl⟩ := h
    obtain ⟨t, ts, hts, hstarts⟩ := ih heager hbody
    exact ⟨t, ts, by simpa using hts, hstarts⟩

/-- The first token of trees that fit and of what comes after them is of a kind that can come
first. -/
theorem head_mem_of_fits {pattern : Pattern} {after : List Token.Kind} {trees : List Tree}
    {rest : List Token} (hpattern : pattern.predictive after = true) (h : pattern.Fits trees)
    (hrest : ∀ t ∈ rest.head?, t.kind ∈ after) :
    ∀ t ∈ (tokensOf trees ++ rest).head?, t.kind ∈ pattern.heads after := by
  -- What may come after a part changes with the part, so it is left open in the induction.
  induction pattern generalizing after trees rest with
  | empty =>
    obtain rfl : trees = [] := h
    exact hrest
  | token | anyOf | oneWord | integerIn =>
    obtain ⟨t, ht, rfl⟩ := h
    intro s hs
    obtain rfl := Option.some.inj hs
    exact heads_mono (List.nil_subset _) (kind_mem_of_starts (starts_of_admits ht))
  | seq first second ihfirst ihsecond =>
    obtain ⟨hfirst, hsecond⟩ := predictive_seq_iff.mp hpattern
    obtain ⟨front, back, hfront, hback, rfl⟩ := h
    rw [Tree.tokensOf_append, List.append_assoc]
    exact ihfirst hfirst hfront (ihsecond hsecond hback hrest)
  | choice first second ihfirst ihsecond =>
    obtain ⟨-, hfirst, hsecond, -⟩ := predictive_choice_iff.mp hpattern
    intro t ht
    rcases h with h | h
    · exact List.mem_append_left _ (ihfirst hfirst h hrest t ht)
    · exact List.mem_append_right _ (ihsecond hsecond h hrest t ht)
  | optional body _ =>
    obtain ⟨heager, -, -⟩ := predictive_optional_iff.mp hpattern
    intro t ht
    rcases h with rfl | hbody
    · exact List.mem_append_right _ (hrest t ht)
    · obtain ⟨first, ts, hts, hstarts⟩ := starts_of_fits heager hbody
      rw [hts] at ht
      obtain rfl := Option.some.inj ht
      exact List.mem_append_left _ (kind_mem_of_starts hstarts)
  | repeated body stop _ =>
    obtain ⟨heager, -, -⟩ := predictive_repeated_iff.mp hpattern
    obtain ⟨parts, hparts, rfl⟩ := h
    intro t ht
    cases parts with
    | nil => exact List.mem_append_right _ (hrest t ht)
    | cons part parts =>
      obtain ⟨hpart, -⟩ := List.forall_mem_cons.mp hparts
      obtain ⟨first, ts, hts, hstarts⟩ := starts_of_fits heager hpart
      rw [List.flatten_cons, Tree.tokensOf_append, hts] at ht
      obtain rfl := Option.some.inj ht
      exact List.mem_append_left _ (kind_mem_of_starts hstarts)
  | rule name body ih =>
    obtain ⟨children, hbody, rfl⟩ := h
    rw [Tree.tokensOf_cons, Tree.tokens_node, Tree.tokensOf_nil, List.append_nil]
    exact ih hpattern hbody hrest

/-! ### What comes after a pattern does not start it -/

/-- What comes after a pattern cannot start it, if the two are apart. -/
theorem not_starts_of_apart {pattern : Pattern} {after : List Token.Kind} {rest : List Token}
    (hapart : apart (pattern.heads []) after = true) (hrest : ∀ t ∈ rest.head?, t.kind ∈ after) :
    ¬ rest.head?.any (pattern.starts ·) = true := by
  intro hany
  obtain ⟨t, ht, hstarts⟩ := (Option.any_eq_true _ _).mp hany
  exact not_mem_of_apart hapart (kind_mem_of_starts hstarts) (hrest t ht)

/-- A pattern reads nothing where only something apart from it can come. -/
theorem front?_eq_none_of_apart {pattern : Pattern} {after : List Token.Kind} {rest : List Token}
    (heager : pattern.eager = true) (hapart : apart (pattern.heads []) after = true)
    (hrest : ∀ t ∈ rest.head?, t.kind ∈ after) : pattern.front? rest = none := by
  rw [Option.eq_none_iff_forall_ne_some]
  rintro ⟨trees, tail⟩ hfront
  obtain ⟨t, ts, hts, hstarts⟩ := starts_of_fits heager (fits_of_front? hfront)
  have hhead : rest.head? = some t := by rw [front?_append hfront, hts]; rfl
  exact not_mem_of_apart hapart (kind_mem_of_starts hstarts) (hrest t hhead)

theorem apart_tail {kinds others : List Token.Kind} {k : Token.Kind}
    (h : apart kinds (k :: others) = true) : apart kinds others = true := by
  refine List.all_eq_true.mpr fun kind hkind ↦ ?_
  have hother : kind ∉ others := fun hmem ↦
    not_mem_of_apart h hkind (List.mem_cons_of_mem k hmem)
  simpa using hother

/-! ### What fits is read -/

section Repetition

variable {body : Pattern} {stop : String} {after : List Token.Kind} {rest : List Token}

/-- A repetition ends where its parts end. -/
theorem frontUntil_of_after (heager : body.eager = true)
    (hapart : apart (body.heads []) after = true) (hrest : ∀ t ∈ rest.head?, t.kind ∈ after)
    (n : Nat) : frontUntil stop body.front? n rest = ([], rest) := by
  cases n with
  | zero => rfl
  | succ n =>
    rw [frontUntil, front?_eq_none_of_apart heager hapart hrest]
    exact ite_self _

/-- A repetition reads all its parts. Every part takes a token, so that the number of tokens bounds
the parts. -/
theorem frontUntil_of_parts (hpattern : (repeated body stop).predictive after = true)
    (hbody : ∀ part tail, body.Fits part → (∀ t ∈ tail.head?, t.kind ∈ body.heads [] ++ after) →
      body.front? (tokensOf part ++ tail) = some (part, tail))
    (hrest : ∀ t ∈ rest.head?, t.kind ∈ after) {parts : List (List Tree)}
    (hparts : ∀ part ∈ parts, body.Fits part) (n : Nat)
    (hfuel : (tokensOf parts.flatten ++ rest).length < n) :
    frontUntil stop body.front? n (tokensOf parts.flatten ++ rest) = (parts.flatten, rest) := by
  obtain ⟨heager, -, hapart⟩ := predictive_repeated_iff.mp hpattern
  induction parts generalizing n with
  | nil => exact frontUntil_of_after heager (apart_tail hapart) hrest n
  | cons part parts ih =>
    obtain ⟨hpart, hothers⟩ := List.forall_mem_cons.mp hparts
    obtain ⟨t, ts, hts, hstarts⟩ := starts_of_fits heager hpart
    have hkind := kind_mem_of_starts hstarts
    -- The repetition ends at a word, and no part of it starts with one.
    have htext : ¬ t.spells stop = true := by
      intro hspells
      refine not_mem_of_apart hapart hkind ?_
      rw [Token.kind_of_spells hspells]
      exact List.mem_cons_self
    have hnext := head_mem_of_fits hpattern ⟨parts, hothers, rfl⟩ hrest
    have hread := hbody part _ hpart hnext
    rw [List.flatten_cons, Tree.tokensOf_append, List.append_assoc] at hfuel ⊢
    cases n with
    | zero => omega
    | succ n =>
      have hhead : (tokensOf part ++ (tokensOf parts.flatten ++ rest)).head? = some t := by
        rw [hts]
        rfl
      rw [frontUntil, hread, hhead, Option.any_some, if_neg htext]
      have hshorter : (tokensOf parts.flatten ++ rest).length < n := by
        rw [hts] at hfuel
        simp only [List.length_append, List.length_cons] at hfuel ⊢
        omega
      dsimp only
      rw [ih hothers n hshorter]

end Repetition

/-- What fits a predictive pattern is what the pattern reads. -/
theorem front?_of_fits {pattern : Pattern} {after : List Token.Kind} {trees : List Tree}
    {rest : List Token} (hpattern : pattern.predictive after = true) (h : pattern.Fits trees)
    (hrest : ∀ t ∈ rest.head?, t.kind ∈ after) :
    pattern.front? (tokensOf trees ++ rest) = some (trees, rest) := by
  -- Each case shows which branch the next token takes, by `head_mem_of_fits` for what follows.
  induction pattern generalizing after trees rest with
  | empty =>
    obtain rfl : trees = [] := h
    rfl
  | token | anyOf | oneWord | integerIn =>
    obtain ⟨t, ht, rfl⟩ := h
    exact if_pos ht
  | seq first second ihfirst ihsecond =>
    obtain ⟨hfirst, hsecond⟩ := predictive_seq_iff.mp hpattern
    obtain ⟨front, back, hfront, hback, rfl⟩ := h
    have hmiddle := head_mem_of_fits hsecond hback hrest
    rw [Tree.tokensOf_append, List.append_assoc]
    exact andThen_of_eq_some (ihfirst hfirst hfront hmiddle) (ihsecond hsecond hback hrest)
  | optional body ih =>
    obtain ⟨heager, hbody, hapart⟩ := predictive_optional_iff.mp hpattern
    rw [front?]
    rcases h with rfl | h
    · exact if_neg (not_starts_of_apart hapart hrest)
    · obtain ⟨t, ts, hts, hstarts⟩ := starts_of_fits heager h
      rw [if_pos (by rw [hts]; exact hstarts)]
      exact ih hbody h hrest
  | choice first second ihfirst ihsecond =>
    obtain ⟨heager, hfirst, hsecond, hapart⟩ := predictive_choice_iff.mp hpattern
    rw [front?]
    rcases h with h | h
    · obtain ⟨t, ts, hts, hstarts⟩ := starts_of_fits heager h
      rw [if_pos (by rw [hts]; exact hstarts)]
      exact ihfirst hfirst h hrest
    · rw [if_neg (not_starts_of_apart hapart (head_mem_of_fits hsecond h hrest))]
      exact ihsecond hsecond h hrest
  | repeated body stop ih =>
    obtain ⟨-, hbody, -⟩ := predictive_repeated_iff.mp hpattern
    obtain ⟨parts, hparts, rfl⟩ := h
    rw [front?, frontUntil_of_parts hpattern (fun _ _ ↦ ih hbody) hrest hparts _ (by omega)]
  | rule name body ih =>
    obtain ⟨children, hbody, rfl⟩ := h
    rw [front?, Tree.tokensOf_cons, Tree.tokens_node, Tree.tokensOf_nil, List.append_nil,
      ih hpattern hbody hrest, Option.map_some]

end OrderFile.Grammar.Pattern

namespace OrderFile.Grammar

/-- Whatever comes after an order, one token of lookahead decides each of its choices. -/
theorem command_predictive (k : Keyword) : (command k).predictive Token.Kind.all = true := by
  cases k <;> decide

end OrderFile.Grammar
