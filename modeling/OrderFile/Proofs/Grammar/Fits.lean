import OrderFile.Proofs.Grammar.Front

/-!
The trees that fit a pattern, whatever decides between the choices that the pattern leaves.
`fits_of_front?` says that what is read by a pattern fits it. The other way needs that the next
token settles every choice.
-/

set_option autoImplicit false

namespace OrderFile.Grammar.Pattern

/-- Trees that fit a pattern. -/
def Fits : Pattern → List Tree → Prop
  | empty, trees => trees = []
  | token shape, trees => ∃ t, (token shape).admits t ∧ trees = [.leaf t]
  | anyOf kinds, trees => ∃ t, (anyOf kinds).admits t ∧ trees = [.leaf t]
  | oneWord words, trees => ∃ t, (oneWord words).admits t ∧ trees = [.leaf t]
  | integerIn low high, trees => ∃ t, (integerIn low high).admits t ∧ trees = [.leaf t]
  | seq first second, trees =>
    ∃ front back, first.Fits front ∧ second.Fits back ∧ trees = front ++ back
  | optional body, trees => trees = [] ∨ body.Fits trees
  | choice first second, trees => first.Fits trees ∨ second.Fits trees
  | repeated body _, trees =>
    ∃ parts : List (List Tree), (∀ part ∈ parts, body.Fits part) ∧ trees = parts.flatten
  | rule name body, trees => ∃ children, body.Fits children ∧ trees = [.node name children]

/-! ### What is read fits -/

/-- What is read by repeating a body fits the repetition if what the body reads fits the body. -/
theorem fits_frontUntil {stop : String} {body : Pattern}
    (hbody : ∀ ts trees rest, body.front? ts = some (trees, rest) → body.Fits trees) (n : Nat)
    (ts : List Token) : (repeated body stop).Fits (frontUntil stop body.front? n ts).1 := by
  induction n generalizing ts with
  | zero => exact ⟨[], by simp, rfl⟩
  | succ n ih =>
    rw [frontUntil]
    split
    · exact ⟨[], by simp, rfl⟩
    split
    · next trees rest hfront =>
      obtain ⟨parts, hparts, heq⟩ := ih rest
      refine ⟨trees :: parts, ?_, by rw [heq]; rfl⟩
      exact List.forall_mem_cons.mpr ⟨hbody _ _ _ hfront, hparts⟩
    · exact ⟨[], by simp, rfl⟩

/-- What is read by a pattern fits it. -/
theorem fits_of_front? {pattern : Pattern} {ts rest : List Token} {trees : List Tree}
    (h : pattern.front? ts = some (trees, rest)) : pattern.Fits trees := by
  induction pattern generalizing ts rest trees with
  | empty =>
    cases h
    rfl
  | token | anyOf | oneWord | integerIn =>
    obtain ⟨t, ht, rfl, -⟩ := frontToken?_eq_some h
    exact ⟨t, ht, rfl⟩
  | seq first second ihfirst ihsecond =>
    obtain ⟨front, middle, back, hfirst, hsecond, rfl⟩ := andThen_eq_some h
    exact ⟨front, back, ihfirst hfirst, ihsecond hsecond, rfl⟩
  | optional body ih =>
    rw [front?] at h
    split at h
    · exact .inr (ih h)
    · cases h
      exact .inl rfl
  | choice first second ihfirst ihsecond =>
    rw [front?] at h
    split at h
    · exact .inl (ihfirst h)
    · exact .inr (ihsecond h)
  | repeated body stop ih =>
    have hread : (frontUntil stop body.front? (ts.length + 1) ts).1 = trees :=
      congrArg Prod.fst (Option.some.inj h)
    rw [← hread]
    exact fits_frontUntil (fun _ _ _ ↦ ih) _ _
  | rule name body ih =>
    obtain ⟨⟨children, after⟩, hbody, heq⟩ := Option.map_eq_some_iff.mp h
    cases heq
    exact ⟨children, ih hbody, rfl⟩

/-! ### Sequences that fit, from the front -/

theorem fits_seq_cons_iff {first second : Pattern} {others : List Pattern} {trees : List Tree} :
    (sequence (seq first second :: others)).Fits trees ↔
      (sequence (first :: second :: others)).Fits trees := by
  constructor
  · rintro ⟨_, back, ⟨front, middle, hfirst, hsecond, rfl⟩, hback, rfl⟩
    exact ⟨front, _, hfirst, ⟨middle, back, hsecond, hback, rfl⟩, List.append_assoc ..⟩
  · rintro ⟨front, _, hfirst, ⟨middle, back, hsecond, hback, rfl⟩, rfl⟩
    exact ⟨_, back, ⟨front, middle, hfirst, hsecond, rfl⟩, hback, (List.append_assoc ..).symm⟩

/-- Either branch of a choice may come before the others. -/
theorem fits_choice_cons_iff {first second : Pattern} {others : List Pattern}
    {trees : List Tree} :
    (sequence (choice first second :: others)).Fits trees ↔
      (sequence (first :: others)).Fits trees ∨ (sequence (second :: others)).Fits trees := by
  constructor
  · rintro ⟨front, back, hfirst | hsecond, hback, rfl⟩
    · exact .inl ⟨front, back, hfirst, hback, rfl⟩
    · exact .inr ⟨front, back, hsecond, hback, rfl⟩
  · rintro (⟨front, back, hfirst, hback, rfl⟩ | ⟨front, back, hsecond, hback, rfl⟩)
    · exact ⟨front, back, .inl hfirst, hback, rfl⟩
    · exact ⟨front, back, .inr hsecond, hback, rfl⟩

/-- What is optional may be left out before the others. -/
theorem fits_optional_cons_iff {body : Pattern} {others : List Pattern} {trees : List Tree} :
    (sequence (optional body :: others)).Fits trees ↔
      (sequence others).Fits trees ∨ (sequence (body :: others)).Fits trees := by
  constructor
  · rintro ⟨front, back, rfl | hbody, hback, rfl⟩
    · exact .inl hback
    · exact .inr ⟨front, back, hbody, hback, rfl⟩
  · rintro (hback | ⟨front, back, hbody, hback, rfl⟩)
    · exact ⟨[], trees, .inl rfl, hback, rfl⟩
    · exact ⟨front, back, .inr hbody, hback, rfl⟩

/-- A pattern for one token takes the first tree of a sequence. -/
theorem fits_cons_iff {first : Pattern} {test : Token → Prop} {shape : Token → Tree}
    (hfirst : ∀ trees, first.Fits trees ↔ ∃ t, test t ∧ trees = [shape t])
    {others : List Pattern} {trees : List Tree} :
    (sequence (first :: others)).Fits trees ↔
      ∃ t back, trees = shape t :: back ∧ test t ∧ (sequence others).Fits back := by
  constructor
  · rintro ⟨_, back, hfront, hback, rfl⟩
    obtain ⟨t, ht, rfl⟩ := (hfirst _).mp hfront
    exact ⟨t, back, rfl, ht, hback⟩
  · rintro ⟨t, back, rfl, ht, hback⟩
    exact ⟨[shape t], back, (hfirst _).mpr ⟨t, ht, rfl⟩, hback, rfl⟩

theorem fits_kind_iff {k : Token.Kind} (trees : List Tree) :
    (kind k).Fits trees ↔ ∃ t, t.kind = k ∧ trees = [.leaf t] := by
  simp [kind, Fits, admits]

theorem fits_kind_cons_iff {k : Token.Kind} {others : List Pattern} {trees : List Tree} :
    (sequence (kind k :: others)).Fits trees ↔
      ∃ t back, trees = .leaf t :: back ∧ t.kind = k ∧ (sequence others).Fits back :=
  fits_cons_iff fits_kind_iff

theorem fits_word_cons_iff {w : String} {others : List Pattern} {trees : List Tree} :
    (sequence (word w :: others)).Fits trees ↔
      ∃ t back, trees = .leaf t :: back ∧ t.spells w = true ∧ (sequence others).Fits back :=
  fits_cons_iff fun _ ↦ Iff.rfl

theorem fits_oneWord_cons_iff {words : List String} {others : List Pattern} {trees : List Tree} :
    (sequence (oneWord words :: others)).Fits trees ↔
      ∃ t back, trees = .leaf t :: back ∧ words.any t.spells = true ∧
        (sequence others).Fits back :=
  fits_cons_iff fun _ ↦ Iff.rfl

theorem fits_anyOf_cons_iff {kinds : List Token.Kind} {others : List Pattern}
    {trees : List Tree} :
    (sequence (anyOf kinds :: others)).Fits trees ↔
      ∃ t back, trees = .leaf t :: back ∧ kinds.contains t.kind = true ∧
        (sequence others).Fits back :=
  fits_cons_iff fun _ ↦ Iff.rfl

/-- A rule of one token out of several kinds. -/
theorem fits_rule_anyOf_cons_iff {name : String} {kinds : List Token.Kind}
    {others : List Pattern} {trees : List Tree} :
    (sequence (rule name (anyOf kinds) :: others)).Fits trees ↔
      ∃ t back, trees = .node name [.leaf t] :: back ∧ kinds.contains t.kind = true ∧
        (sequence others).Fits back := by
  refine fits_cons_iff fun trees ↦ ⟨?_, ?_⟩
  · rintro ⟨_, ⟨t, ht, rfl⟩, rfl⟩
    exact ⟨t, ht, rfl⟩
  · rintro ⟨t, ht, rfl⟩
    exact ⟨_, ⟨t, ht, rfl⟩, rfl⟩

theorem fits_sequence_nil_iff {trees : List Tree} :
    (sequence []).Fits trees ↔ trees = [] := Iff.rfl

theorem fits_sequence_append_iff {first second : List Pattern} {trees : List Tree} :
    (sequence (first ++ second)).Fits trees ↔
      ∃ front back, (sequence first).Fits front ∧ (sequence second).Fits back ∧
        trees = front ++ back := by
  induction first generalizing trees with
  | nil =>
    constructor
    · intro h
      exact ⟨[], trees, rfl, h, rfl⟩
    · rintro ⟨_, back, rfl, hback, rfl⟩
      exact hback
  | cons pattern first ih =>
    constructor
    · rintro ⟨front, _, hfront, hrest, rfl⟩
      obtain ⟨middle, back, hmiddle, hback, rfl⟩ := ih.mp hrest
      exact ⟨front ++ middle, back, ⟨front, middle, hfront, hmiddle, rfl⟩, hback,
        (List.append_assoc ..).symm⟩
    · rintro ⟨_, back, ⟨front, middle, hfront, hmiddle, rfl⟩, hback, rfl⟩
      exact ⟨front, middle ++ back, hfront, ih.mpr ⟨middle, back, hmiddle, hback, rfl⟩,
        List.append_assoc ..⟩

/-- A repetition of what is one tree each time. -/
theorem fits_repeated_iff {body : Pattern} {stop : String} {trees : List Tree}
    (hbody : ∀ part, body.Fits part → ∃ tree, part = [tree]) :
    (repeated body stop).Fits trees ↔ ∀ tree ∈ trees, body.Fits [tree] := by
  constructor
  · rintro ⟨parts, hparts, rfl⟩ tree htree
    obtain ⟨part, hpart, hmem⟩ := List.mem_flatten.mp htree
    obtain ⟨other, rfl⟩ := hbody part (hparts part hpart)
    obtain rfl := List.mem_singleton.mp hmem
    exact hparts _ hpart
  · intro h
    refine ⟨trees.map fun tree ↦ [tree], by simpa using h, ?_⟩
    rw [← List.flatMap_def, List.flatMap_singleton']

/-! ### Patterns within a line -/

/-- Whether no token that a pattern asks for ends a line. -/
def inLine : Pattern → Bool
  | token shape => shape.kind != .eol
  | anyOf kinds => !kinds.contains .eol
  | seq first second | choice first second => first.inLine && second.inLine
  | optional body | repeated body _ | rule _ body => body.inLine
  | _ => true

/-- Trees that fit a pattern within a line hold no line end. -/
theorem ne_eol_of_fits {pattern : Pattern} {trees : List Tree} (hline : pattern.inLine = true)
    (h : pattern.Fits trees) : ∀ t ∈ Tree.tokensOf trees, t.kind ≠ .eol := by
  induction pattern generalizing trees with
  | empty =>
    obtain rfl : trees = [] := h
    simp
  | token shape =>
    obtain ⟨t, ht, rfl⟩ := h
    simp_all [inLine, admits, Shape.accepts]
  | anyOf kinds =>
    obtain ⟨t, ht, rfl⟩ := h
    have hkind : t.kind ≠ .eol := by
      intro heol
      rw [admits, heol] at ht
      rw [inLine, ht] at hline
      cases hline
    simpa using hkind
  | oneWord words =>
    obtain ⟨t, ht, rfl⟩ := h
    obtain ⟨w, -, hw⟩ := List.any_eq_true.mp ht
    simp_all [Token.spells]
  | integerIn low high =>
    obtain ⟨t, ht, rfl⟩ := h
    simp_all [admits]
  | seq first second ihfirst ihsecond =>
    obtain ⟨front, back, hfirst, hsecond, rfl⟩ := h
    obtain ⟨hline₁, hline₂⟩ := (Bool.and_eq_true _ _).mp hline
    rw [Tree.tokensOf_append]
    exact List.forall_mem_append.mpr ⟨ihfirst hline₁ hfirst, ihsecond hline₂ hsecond⟩
  | optional body ih =>
    rcases h with rfl | hbody
    · simp
    · exact ih hline hbody
  | choice first second ihfirst ihsecond =>
    obtain ⟨hline₁, hline₂⟩ := (Bool.and_eq_true _ _).mp hline
    exact h.elim (ihfirst hline₁) (ihsecond hline₂)
  | repeated body stop ih =>
    obtain ⟨parts, hparts, rfl⟩ := h
    induction parts with
    | nil => simp
    | cons part parts ihparts =>
      obtain ⟨hpart, hothers⟩ := List.forall_mem_cons.mp hparts
      rw [List.flatten_cons, Tree.tokensOf_append]
      exact List.forall_mem_append.mpr ⟨ih hline hpart, ihparts hothers⟩
  | rule name body ih =>
    obtain ⟨children, hbody, rfl⟩ := h
    simpa using ih hline hbody

end OrderFile.Grammar.Pattern
