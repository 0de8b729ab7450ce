import OrderFile.Proofs.Grammar.File
import OrderFile.Proofs.Grammar.Fits

/-!
The first line of an order. Whatever the keyword, what comes first is a sequence of patterns that
repeat nothing and ask for no line end, and then a line end: `operands_eq`. Only a setup order goes
on after it.
-/

set_option autoImplicit false

namespace OrderFile.Grammar

open OrderFile.Tree (tokensOf)
open Pattern

/-! ### Lines of tokens -/

/-- How many tokens come before the end of the line, or before the end of the file. -/
def lineLength (ts : List Token) : Nat :=
  (ts.takeWhile fun t ↦ t.kind ≠ .eol ∧ t.kind ≠ .eof).length

theorem lineLength_of_end {t : Token} (h : ¬ (t.kind ≠ .eol ∧ t.kind ≠ .eof))
    (ts : List Token) : lineLength (t :: ts) = 0 := by
  rw [lineLength, List.takeWhile_cons_of_neg (by simpa using h)]
  rfl

theorem lineLength_cons {t : Token} (h : t.kind ≠ .eol ∧ t.kind ≠ .eof) (ts : List Token) :
    lineLength (t :: ts) = lineLength ts + 1 := by
  rw [lineLength, List.takeWhile_cons_of_pos (by simpa using h)]
  rfl

/-- Tokens that end no line are counted with the line that they start. -/
theorem lineLength_append {front : List Token}
    (h : ∀ t ∈ front, t.kind ≠ .eol ∧ t.kind ≠ .eof) (rest : List Token) :
    lineLength (front ++ rest) = front.length + lineLength rest := by
  induction front with
  | nil => exact (Nat.zero_add _).symm
  | cons t front ih =>
    obtain ⟨ht, hothers⟩ := List.forall_mem_cons.mp h
    rw [List.cons_append, lineLength_cons ht, ih hothers, List.length_cons]
    omega

theorem lineLength_le (ts : List Token) : lineLength ts ≤ ts.length :=
  (List.takeWhile_sublist _).length_le

/-- What is skipped of a line, if the line ends. -/
theorem skipFront?_eq (ts : List Token) :
    skipFront? ts =
      if lineLength ts < ts.length then
        some ((ts.take (lineLength ts)).map Tree.leaf, ts.drop (lineLength ts))
      else none := by
  induction ts with
  | nil => rfl
  | cons t ts ih =>
    rw [skipFront?]
    by_cases hline : t.kind ≠ .eol ∧ t.kind ≠ .eof
    · have hlength : (lineLength ts + 1 < (t :: ts).length) = (lineLength ts < ts.length) := by simp
      rw [if_neg (by simpa using hline), ih, lineLength_cons hline]
      simp only [hlength]
      split <;> rfl
    · have hend : t.kind = .eol ∨ t.kind = .eof := by
        simpa [Decidable.imp_iff_not_or] using hline
      rw [if_pos (by simpa using hend), lineLength_of_end hline, if_pos (by simp)]
      rfl

theorem unknownFront?_append {ts rest : List Token} {trees : List Tree}
    (h : unknownFront? ts = some (trees, rest)) : ts = tokensOf trees ++ rest := by
  obtain ⟨skipped, e, hskip, -, rfl⟩ := unknownFront?_eq_some h
  simpa using skipFront?_append hskip

/-- A line that is kept as unknown is what comes before its end, and the line end. -/
theorem length_of_unknownFront? {ts rest : List Token} {trees : List Tree}
    (h : unknownFront? ts = some (trees, rest)) : ts.length = rest.length + lineLength ts + 1 := by
  obtain ⟨skipped, e, hskip, -, -⟩ := unknownFront?_eq_some h
  rw [skipFront?_eq] at hskip
  obtain ⟨hlt, heq⟩ := Option.ite_none_right_eq_some.mp hskip
  have hlength := congrArg List.length (congrArg Prod.snd (Option.some.inj heq))
  rw [List.length_drop, List.length_cons] at hlength
  omega

/-- Any tokens up to a line end can be read as an unknown line. -/
theorem unknownFront?_of_append {front : List Token} {e : Token}
    (h : ∀ t ∈ front, t.kind ≠ .eol ∧ t.kind ≠ .eof) (he : e.kind = .eol) (rest : List Token) :
    ∃ trees, unknownFront? (front ++ e :: rest) = some (trees, rest) := by
  have hlength : lineLength (front ++ e :: rest) = front.length := by
    rw [lineLength_append h, lineLength_of_end (by simp [he])]
    rfl
  have heol : eolFront? (e :: rest) = some ([.leaf e], rest) := if_pos (beq_iff_eq.mpr he)
  rw [unknownFront?, skipFront?_eq, hlength, if_pos (by simp), List.take_left, List.drop_left]
  exact ⟨_, congrArg (Option.map _) (andThen_of_eq_some rfl heol)⟩

namespace Pattern

/-! ### Patterns in one line -/

/-- Whether a pattern repeats nothing. -/
def straight : Pattern → Bool
  | seq first second | choice first second => first.straight && second.straight
  | optional body | rule _ body => body.straight
  | repeated _ _ => false
  | _ => true

/-- The kinds of the tokens that a pattern asks for. -/
def kinds : Pattern → List Token.Kind
  | empty => []
  | token shape => [shape.kind]
  | anyOf kinds => kinds
  | oneWord _ => [.text]
  | integerIn _ _ => [.integer]
  | seq first second | choice first second => first.kinds ++ second.kinds
  | optional body | repeated body _ | rule _ body => body.kinds

/-- Whether a pattern asks for no token that ends a line or the file. -/
def staysInLine (pattern : Pattern) : Bool :=
  pattern.kinds.all fun k ↦ k ≠ .eol ∧ k ≠ .eof

theorem staysInLine_seq {first second : Pattern} (h : (seq first second).staysInLine = true) :
    first.staysInLine = true ∧ second.staysInLine = true := by
  rw [staysInLine, kinds, List.all_append, Bool.and_eq_true] at h
  exact h

theorem repeatsRules_of_straight {pattern : Pattern} (h : pattern.straight = true) :
    pattern.repeatsRules = true := by
  induction pattern with
  | seq first second ihfirst ihsecond | choice first second ihfirst ihsecond =>
    obtain ⟨hfirst, hsecond⟩ := (Bool.and_eq_true _ _).mp h
    exact (Bool.and_eq_true _ _).mpr ⟨ihfirst hfirst, ihsecond hsecond⟩
  | optional body ih | rule name body ih => exact ih h
  | repeated => cases h
  | _ => rfl

/-- A pattern admits tokens of its own kinds only. -/
theorem kind_mem_of_admits {pattern : Pattern} {t : Token} (h : admits t pattern = true) :
    t.kind ∈ pattern.kinds := by
  cases pattern with
  | token shape =>
    obtain ⟨hkind, -⟩ := (Bool.and_eq_true _ _).mp h
    exact List.mem_singleton.mpr (eq_of_beq hkind)
  | anyOf kinds => exact List.contains_iff_mem.mp h
  | oneWord words =>
    obtain ⟨w, -, hw⟩ := List.any_eq_true.mp h
    exact List.mem_singleton.mpr (Token.kind_of_spells hw)
  | integerIn low high =>
    obtain ⟨hkind, -⟩ := (Bool.and_eq_true _ _).mp h
    exact List.mem_singleton.mpr (eq_of_beq hkind)
  | _ => cases h

/-- The tokens of trees that fit a pattern are of its kinds. -/
theorem kind_mem_of_fits {pattern : Pattern} {trees : List Tree} (h : pattern.Fits trees) :
    ∀ t ∈ tokensOf trees, t.kind ∈ pattern.kinds := by
  induction pattern generalizing trees with
  | empty =>
    obtain rfl : trees = [] := h
    exact List.forall_mem_nil _
  | token | anyOf | oneWord | integerIn =>
    obtain ⟨t, ht, rfl⟩ := h
    exact List.forall_mem_singleton.mpr (kind_mem_of_admits ht)
  | seq first second ihfirst ihsecond =>
    obtain ⟨front, back, hfirst, hsecond, rfl⟩ := h
    rw [Tree.tokensOf_append]
    exact List.forall_mem_append.mpr
      ⟨fun t ht ↦ List.mem_append_left _ (ihfirst hfirst t ht),
        fun t ht ↦ List.mem_append_right _ (ihsecond hsecond t ht)⟩
  | optional body ih =>
    rcases h with rfl | hbody
    · exact List.forall_mem_nil _
    · exact ih hbody
  | choice first second ihfirst ihsecond =>
    rcases h with hfirst | hsecond
    · exact fun t ht ↦ List.mem_append_left _ (ihfirst hfirst t ht)
    · exact fun t ht ↦ List.mem_append_right _ (ihsecond hsecond t ht)
  | repeated body stop ih =>
    obtain ⟨parts, hparts, rfl⟩ := h
    induction parts with
    | nil => exact List.forall_mem_nil _
    | cons part parts ihparts =>
      obtain ⟨hpart, hothers⟩ := List.forall_mem_cons.mp hparts
      rw [List.flatten_cons, Tree.tokensOf_append]
      exact List.forall_mem_append.mpr ⟨ih hpart, ihparts hothers⟩
  | rule name body ih =>
    obtain ⟨children, hbody, rfl⟩ := h
    rw [Tree.tokensOf_cons, Tree.tokens_node, Tree.tokensOf_nil, List.append_nil]
    exact ih hbody

/-- Trees that fit a pattern which stays on its line hold no line end. -/
theorem inLine_of_fits {pattern : Pattern} {trees : List Tree}
    (hline : pattern.staysInLine = true) (h : pattern.Fits trees) :
    ∀ t ∈ tokensOf trees, t.kind ≠ .eol ∧ t.kind ≠ .eof := by
  intro t ht
  exact of_decide_eq_true (List.all_eq_true.mp hline t.kind (kind_mem_of_fits h t ht))

/-- What a pattern in one line reads is the front of a line. -/
theorem lineLength_of_front? {pattern : Pattern} {ts rest : List Token} {trees : List Tree}
    (hline : pattern.staysInLine = true) (h : pattern.front? ts = some (trees, rest)) :
    lineLength ts = (tokensOf trees).length + lineLength rest := by
  rw [front?_append h]
  exact lineLength_append (inLine_of_fits hline (fits_of_front? h)) rest

/-! ### What an answer says about the reading -/

/-- A step that succeeds took what was read. -/
theorem Agrees.of_success {p : Parse} {result : Bool × Parse}
    {outcome : Option (List Tree × List Token)} (h : Agrees p result outcome)
    (happend : ∀ trees rest, outcome = some (trees, rest) → p.rest = tokensOf trees ++ rest)
    (hsuccess : result.1 = true) :
    ∃ trees, outcome = some (trees, result.2.rest) ∧ result.2.bare = p.bare.took trees := by
  cases outcome with
  | none => exact absurd (h.1.symm.trans hsuccess) Bool.false_ne_true
  | some read =>
    obtain ⟨trees, rest⟩ := read
    refine ⟨trees, ?_, h.2⟩
    rw [rest_of_took h.2 (happend trees rest rfl)]

/-- A parse that fails agrees with a reading that gives nothing. -/
theorem Agrees.of_failure {p : Parse} {result : Bool × Parse}
    {outcome : Option (List Tree × List Token)} (h : Agrees p result outcome)
    (hfailure : result.1 = false) : outcome = none := by
  cases outcome with
  | none => rfl
  | some read => exact absurd (hfailure.symm.trans h.1) Bool.false_ne_true

/-- What changes nothing when it fails leaves the tokens that were left. -/
theorem AgreesWhole.of_failure {p : Parse} {result : Bool × Parse}
    {outcome : Option (List Tree × List Token)} (h : AgreesWhole p result outcome)
    (hfailure : result.1 = false) : outcome = none ∧ result.2.bare = p.bare := by
  obtain rfl := h.agrees.of_failure hfailure
  exact ⟨rfl, h.2⟩

theorem rest_of_bare_eq {p later : Parse} (h : later.bare = p.bare) : later.rest = p.rest := by
  rw [← Parse.rest_bare later, h, Parse.rest_bare]

/-- Where a parse follows a pattern to its end, the pattern can be read off the tokens left. -/
theorem front?_of_follow {pattern : Pattern} (hstraight : pattern.straight = true) {p : Parse}
    (hopen : p.frames ≠ []) (h : (pattern.follow p).1 = true) :
    ∃ trees, pattern.front? p.rest = some (trees, (pattern.follow p).2.rest) ∧
      (pattern.follow p).2.bare = p.bare.took trees :=
  (follow_agrees_and (repeatsRules_of_straight hstraight) hopen).1.of_success
    (fun _ _ ↦ front?_append) h

/-- An attempt that succeeds takes the first of the tokens left. -/
theorem took_of_attempt {expected : String} {test : Token → Bool} {p : Parse}
    (h : (p.attempt expected test).1 = true) :
    ∃ t, test t = true ∧ p.rest = t :: (p.attempt expected test).2.rest ∧
      (p.attempt expected test).2.bare = p.bare.took [.leaf t] := by
  have hagrees := (attempt_agreesWhole expected test p).agrees
  have happend (trees : List Tree) (rest : List Token)
      (hfront : frontToken? test p.rest = some (trees, rest)) :
      p.rest = tokensOf trees ++ rest := by
    obtain ⟨t, -, rfl, hts⟩ := frontToken?_eq_some hfront
    exact hts
  obtain ⟨trees, hfront, hbare⟩ := hagrees.of_success happend h
  obtain ⟨t, ht, rfl, hts⟩ := frontToken?_eq_some hfront
  exact ⟨t, ht, hts, hbare⟩

theorem rest_of_attempt {expected : String} {test : Token → Bool} {p : Parse}
    (h : (p.attempt expected test).1 = true) :
    ∃ t, test t = true ∧ p.rest = t :: (p.attempt expected test).2.rest := by
  obtain ⟨t, ht, hts, -⟩ := took_of_attempt h
  exact ⟨t, ht, hts⟩

/-- A kind that is accepted takes the next token. -/
theorem took_of_acceptKind {k : Token.Kind} {p : Parse} (h : (p.acceptKind k).1 = true) :
    ∃ t, t.kind = k ∧ p.rest = t :: (p.acceptKind k).2.rest ∧
      (p.acceptKind k).2.bare = p.bare.took [.leaf t] := by
  obtain ⟨t, ht, htook⟩ := took_of_attempt h
  rw [accepts_kind] at ht
  exact ⟨t, eq_of_beq ht, htook⟩

/-! ### Sequences in two parts -/

theorem onSuccess_of_failure {next : Parse → Bool × Parse} {result : Bool × Parse}
    (h : result.1 = false) : onSuccess next result = (false, result.2) := by
  obtain ⟨success, p⟩ := result
  obtain rfl : success = false := h
  rfl

/-- Of three steps, each after a success, it does not matter which two are taken together. -/
theorem onSuccess_assoc (next last : Parse → Bool × Parse) (result : Bool × Parse) :
    onSuccess last (onSuccess next result) =
      onSuccess (fun p ↦ onSuccess last (next p)) result := by
  obtain ⟨success, p⟩ := result
  cases success <;> rfl

/-- Two sequences one after the other. -/
theorem follow_sequence_append (first second : List Pattern) (p : Parse) :
    (sequence (first ++ second)).follow p =
      onSuccess (sequence second).follow ((sequence first).follow p) := by
  induction first generalizing p with
  | nil => rfl
  | cons pattern first ih =>
    change onSuccess (sequence (first ++ second)).follow (pattern.follow p) =
      onSuccess (sequence second).follow (onSuccess (sequence first).follow (pattern.follow p))
    rw [onSuccess_assoc, funext ih]

end Pattern

/-! ### The first line of an order -/

/-- What an order asks for in its first line, after the keyword and up to the line end. -/
def header (k : Keyword) : List Pattern :=
  (operands k).takeWhile staysInLine

/-- What an order asks for after its first line: only a setup order asks for more. -/
def laterLines : Keyword → List Pattern
  | .setup => [repeated transferDetail "end", word "end", kind .eol]
  | _ => []

/-- The operands of an order are its first line, and what a setup order goes on with. -/
theorem operands_eq (k : Keyword) : operands k = header k ++ kind .eol :: laterLines k := by
  cases k <;> rfl

/-- Only a setup order goes on after its first line. -/
theorem laterLines_of_ne {k : Keyword} (h : k ≠ .setup) : laterLines k = [] := by
  cases k
  case setup => exact absurd rfl h
  all_goals rfl

/-- The keyword and the header are asked for in one line, each token once. -/
theorem header_inLine (k : Keyword) :
    (sequence (word k.word :: header k)).straight = true ∧
      (sequence (word k.word :: header k)).staysInLine = true := by
  cases k <;> exact ⟨rfl, rfl⟩

/-- An order is its first line, and for a setup order what comes after that. -/
theorem follow_command_body (k : Keyword) (p : Parse) :
    (sequence (word k.word :: operands k)).follow p =
      onSuccess
        (fun q ↦ onSuccess (sequence (laterLines k)).follow (q.acceptKind .eol))
        ((sequence (word k.word :: header k)).follow p) := by
  rw [operands_eq, ← List.cons_append, follow_sequence_append]
  rfl

end OrderFile.Grammar
