import OrderFile.Grammar.Rules
import OrderFile.Grammar.Text
import OrderFile.Proofs.Grammar.Ebnf
import OrderFile.Proofs.Grammar.Fits

/-!
The published grammar and the patterns that orders are read by. The two are written down apart from
each other: `realizes` compares them expression by expression, and `derives_published_iff` says that
the published text derives from `orders` exactly the trees that fit the patterns.
-/

set_option autoImplicit false

namespace OrderFile.Grammar

open Ebnf (Expr Derives)

/-- The rules of the published text. The rule of unknown lines is prose: nothing is derived from the
names in it, and no other rule uses it. -/
def published : List (String × Expr) :=
  (Ebnf.read? text.toList).getD []

/-! ### Patterns that realize expressions -/

namespace Pattern

section

variable (rules : List (String × Expr))

/-- The kinds that an expression offers, if it stands for one token. -/
def kinds? : Expr → Option (List Token.Kind)
  | .name n => if (rules.lookup n).isSome then none else (Ebnf.terminal? n).map fun k ↦ [k]
  | .mark m => (Ebnf.punctuation? m).map fun k ↦ [k]
  | .either first second => do
    let kinds ← kinds? first
    let others ← kinds? second
    return kinds ++ others
  | _ => none

/-- The words that an expression offers, if it stands for one word. -/
def words? : Expr → Option (List String)
  | .word w => some [w]
  | .either first second => do
    let words ← words? first
    let others ← words? second
    return words ++ others
  | _ => none

def isEmpty : Pattern → Bool
  | empty => true
  | _ => false

/-- Whether a pattern says what an expression says. -/
def realizes : Pattern → Expr → Bool
  | empty, e =>
    match e with
    | .empty => true
    | _ => false
  | token shape, e =>
    match shape.word with
    | none => kinds? rules e == some [shape.kind]
    | some w => shape.kind == .text && words? e == some [w]
  | anyOf kinds, e => kinds? rules e == some kinds
  | oneWord words, e => words? e == some words
  | integerIn low high, e =>
    match e with
    | .range n least most =>
      Ebnf.terminal? n == some .integer && low.toInt == least && high.toInt == most
    | _ => false
  | seq first second, e =>
    (second.isEmpty && first.realizes e) ||
      match e with
      | .seq front back => first.realizes front && second.realizes back
      | _ => false
  | optional body, e =>
    match e with
    | .optional inner => body.realizes inner
    | _ => false
  | choice first second, e =>
    match e with
    | .either left right => first.realizes left && second.realizes right
    | _ => false
  | repeated body _, e =>
    match e with
    | .repeated inner => body.realizes inner
    | _ => false
  | rule name body, e =>
    match e with
    | .name n =>
      n == name && (Ebnf.terminal? n).isNone && (rules.lookup n).any fun inner ↦ body.realizes inner
    | _ => false

end

variable {rules : List (String × Expr)} {trees : List Tree}

/-- An expression for kinds of tokens derives one token of one of them. -/
theorem derives_iff_of_kinds? {e : Expr} {kinds : List Token.Kind}
    (h : kinds? rules e = some kinds) :
    Derives rules e trees ↔ ∃ t, kinds.contains t.kind = true ∧ trees = [.leaf t] := by
  induction e generalizing kinds with
  | name n =>
    rw [kinds?] at h
    split at h
    · cases h
    · next hrule =>
      obtain ⟨k, hk, rfl⟩ := Option.map_eq_some_iff.mp h
      rw [Ebnf.derives_terminal_iff (Option.not_isSome_iff_eq_none.mp hrule) hk]
      simp
  | mark m =>
    obtain ⟨k, hk, rfl⟩ := Option.map_eq_some_iff.mp h
    rw [Ebnf.derives_mark_iff hk]
    simp
  | either first second ihfirst ihsecond =>
    obtain ⟨kinds, hkinds, h⟩ := Option.bind_eq_some_iff.mp h
    obtain ⟨others, hothers, h⟩ := Option.bind_eq_some_iff.mp h
    cases h
    rw [Ebnf.derives_either_iff, ihfirst hkinds, ihsecond hothers, ← exists_or]
    refine exists_congr fun t ↦ ?_
    rw [List.contains_append, Bool.or_eq_true, or_and_right]
  | _ => cases h

/-- An expression for words derives one token that spells one of them. -/
theorem derives_iff_of_words? {e : Expr} {words : List String} (h : words? e = some words) :
    Derives rules e trees ↔ ∃ t, words.any t.spells = true ∧ trees = [.leaf t] := by
  induction e generalizing words with
  | word w =>
    cases h
    rw [Ebnf.derives_word_iff]
    simp
  | either first second ihfirst ihsecond =>
    obtain ⟨words, hwords, h⟩ := Option.bind_eq_some_iff.mp h
    obtain ⟨others, hothers, h⟩ := Option.bind_eq_some_iff.mp h
    cases h
    rw [Ebnf.derives_either_iff, ihfirst hwords, ihsecond hothers, ← exists_or]
    refine exists_congr fun t ↦ ?_
    rw [List.any_append, Bool.or_eq_true, or_and_right]
  | _ => cases h

theorem fits_of_isEmpty {first second : Pattern} (h : second.isEmpty = true) :
    (seq first second).Fits trees ↔ first.Fits trees := by
  cases second with
  | empty =>
    constructor
    · rintro ⟨front, _, hfirst, rfl, rfl⟩
      rwa [List.append_nil]
    · intro hfirst
      exact ⟨trees, [], hfirst, rfl, (List.append_nil _).symm⟩
  | _ => cases h

/-- A bounded integer is derived exactly if it fits the pattern with these bounds. -/
theorem derives_range_iff_fits {n : String} {low high : Int64} {least most : Nat}
    (hname : Ebnf.terminal? n = some .integer) (hlow : low.toInt = least)
    (hhigh : high.toInt = most) :
    Derives rules (.range n least most) trees ↔ (integerIn low high).Fits trees := by
  rw [Ebnf.derives_range_iff hname]
  refine exists_congr fun t ↦ ?_
  rw [admits, ← hlow, ← hhigh]
  cases hvalue : t.integer? with
  | none => simp
  | some value => simp [Int64.le_iff_toInt_le]

/-- An expression derives what fits the patterns that realize it. -/
theorem derives_iff_fits {pattern : Pattern} {e : Expr} (h : pattern.realizes rules e = true) :
    Derives rules e trees ↔ pattern.Fits trees := by
  -- By induction on the pattern: `realizes` lets just one form of expression stand for each, so all
  -- other forms are closed at once.
  induction pattern generalizing e trees with
  | empty =>
    cases e with
    | empty => exact Ebnf.derives_empty_iff
    | _ => cases h
  | token shape =>
    obtain ⟨k, word?⟩ := shape
    cases word? with
    | none =>
      rw [derives_iff_of_kinds? (eq_of_beq h)]
      simp [Fits, admits]
    | some w =>
      obtain ⟨hk, hw⟩ := (Bool.and_eq_true _ _).mp h
      obtain rfl := eq_of_beq hk
      rw [derives_iff_of_words? (eq_of_beq hw)]
      simp [Fits, admits, Shape.accepts, Token.spells]
  | anyOf kinds => exact derives_iff_of_kinds? (eq_of_beq h)
  | oneWord words => exact derives_iff_of_words? (eq_of_beq h)
  | integerIn low high =>
    cases e with
    | range n least most =>
      rw [realizes, Bool.and_eq_true, Bool.and_eq_true] at h
      obtain ⟨⟨hname, hlow⟩, hhigh⟩ := h
      exact derives_range_iff_fits (eq_of_beq hname) (eq_of_beq hlow) (eq_of_beq hhigh)
    | _ => cases h
  | seq first second ihfirst ihsecond =>
    rcases (Bool.or_eq_true _ _).mp h with h | h
    · obtain ⟨hempty, hfirst⟩ := (Bool.and_eq_true _ _).mp h
      rw [ihfirst hfirst, fits_of_isEmpty hempty]
    · cases e with
      | seq front back =>
        obtain ⟨hfirst, hsecond⟩ := (Bool.and_eq_true _ _).mp h
        rw [Ebnf.derives_seq_iff]
        simp only [ihfirst hfirst, ihsecond hsecond]
        rfl
      | _ => cases h
  | optional body ih =>
    cases e with
    | optional inner => rw [Ebnf.derives_optional_iff, ih h]; rfl
    | _ => cases h
  | choice first second ihfirst ihsecond =>
    cases e with
    | either left right =>
      obtain ⟨hfirst, hsecond⟩ := (Bool.and_eq_true _ _).mp h
      rw [Ebnf.derives_either_iff, ihfirst hfirst, ihsecond hsecond]
      rfl
    | _ => cases h
  | repeated body stop ih =>
    cases e with
    | repeated inner =>
      rw [Ebnf.derives_repeated_iff]
      simp only [ih h]
      rfl
    | _ => cases h
  | rule name body ih =>
    cases e with
    | name n =>
      rw [realizes, Bool.and_eq_true, Bool.and_eq_true] at h
      obtain ⟨⟨hn, hname⟩, hbody⟩ := h
      obtain rfl := eq_of_beq hn
      obtain ⟨inner, hrule, hbody⟩ := (Option.any_eq_true _ _).mp hbody
      rw [Ebnf.derives_rule_iff hrule (Option.isNone_iff_eq_none.mp hname)]
      simp only [ih hbody]
      rfl
    | _ => cases h

end Pattern

/-- Any of several orders. -/
def oneCommand : List Keyword → Pattern
  | [] => .anyOf []
  | [k] => command k
  | k :: others => .choice (command k) (oneCommand others)

def orderPattern : Pattern :=
  .rule "order" (oneCommand Keyword.all)

/-- One line: an order or an empty line. -/
def linePattern : Pattern :=
  .choice orderPattern (.kind .eol)

/-- A whole file of lines. Nothing stops the repetition before the end token. -/
def ordersPattern : Pattern :=
  .rule "orders" (.sequence [.repeated linePattern "", .kind .eof])

/-! ### The published text -/

/-- Lines of text as one list of characters. -/
def linesChars (lines : List String) : List Char :=
  lines.flatMap fun line ↦ line.toList ++ ['\n']

theorem linesChars_ofList_cons (chars : List Char) (lines : List String) :
    linesChars (String.ofList chars :: lines) = chars ++ '\n' :: linesChars lines := by
  simp [linesChars]

/-- The published text is its lines, each ended by a newline. -/
theorem toList_text : text.toList = linesChars textLines := by
  rw [text, String.toList_join, linesChars, List.flatMap_map]
  simp only [String.toList_append]
  rfl

/-- The pattern for whole files is the published one for orders, expression by expression. -/
theorem ordersPattern_realizes : ordersPattern.realizes published (.name "orders") = true := by
  rw [published, toList_text, textLines]
  -- A literal is the text of its characters, and only these are fit to be computed with.
  repeat rw [linesChars_ofList_cons]
  decide +kernel

/-! ### Whole files -/

/-- What fits one of several commands fits the command of one of the keywords. -/
theorem fits_oneCommand_iff {ks : List Keyword} {trees : List Tree} :
    (oneCommand ks).Fits trees ↔ ∃ k ∈ ks, (command k).Fits trees := by
  fun_induction oneCommand ks with
  | case1 => simp [Pattern.Fits, Pattern.admits]
  | case2 k => simp
  | case3 k others hothers ih =>
    rw [Pattern.Fits, ih]
    simp

/-- A line is an order or the end of an empty line. -/
theorem fits_linePattern_iff {trees : List Tree} :
    linePattern.Fits trees ↔
      (∃ k children, (command k).Fits children ∧ trees = [.node "order" children]) ∨
        ∃ e, e.kind = .eol ∧ trees = [.leaf e] := by
  rw [linePattern, Pattern.Fits, Pattern.fits_kind_iff]
  refine or_congr_left ?_
  constructor
  · rintro ⟨children, hchildren, rfl⟩
    obtain ⟨k, -, hk⟩ := fits_oneCommand_iff.mp hchildren
    exact ⟨k, children, hk, rfl⟩
  · rintro ⟨k, children, hk, rfl⟩
    exact ⟨children, fits_oneCommand_iff.mpr ⟨k, k.mem_all, hk⟩, rfl⟩

/-- A line is one tree. -/
theorem singleton_of_fits_linePattern {trees : List Tree} (h : linePattern.Fits trees) :
    ∃ line, trees = [line] := by
  rcases fits_linePattern_iff.mp h with ⟨k, children, -, rfl⟩ | ⟨e, -, rfl⟩
  · exact ⟨_, rfl⟩
  · exact ⟨_, rfl⟩

/-- Lines fit in a row exactly if each of them fits. -/
theorem fits_lines_iff {stop : String} {lines : List Tree} :
    (Pattern.repeated linePattern stop).Fits lines ↔ ∀ line ∈ lines, linePattern.Fits [line] :=
  Pattern.fits_repeated_iff fun _ ↦ singleton_of_fits_linePattern

/-- The published text derives lines and an end token. -/
theorem derives_published_iff {tree : Tree} :
    Derives published (.name "orders") [tree] ↔
      ∃ lines f, (∀ line ∈ lines, linePattern.Fits [line]) ∧ f.kind = .eof ∧
        tree = .node "orders" (lines ++ [.leaf f]) := by
  rw [Pattern.derives_iff_fits ordersPattern_realizes]
  constructor
  · rintro ⟨children, ⟨lines, back, hlines, hback, rfl⟩, heq⟩
    obtain ⟨f, _, rfl, hf, rfl⟩ := Pattern.fits_kind_cons_iff.mp hback
    exact ⟨lines, f, fits_lines_iff.mp hlines, hf, List.singleton_inj.mp heq⟩
  · rintro ⟨lines, f, hlines, hf, rfl⟩
    have hend : (Pattern.sequence [.kind .eof]).Fits [.leaf f] :=
      Pattern.fits_kind_cons_iff.mpr ⟨f, [], rfl, hf, rfl⟩
    exact ⟨_, ⟨lines, [.leaf f], fits_lines_iff.mpr hlines, hend, rfl⟩, rfl⟩

end OrderFile.Grammar
