import OrderFile.Proofs.Text.Lossy
import OrderFile.Proofs.Token.Respaced

/-!
Nothing of a file is lost in its tokens. The texts of the tokens of a file, one after another, are
the text of its bytes. Only the end has no text, and the line end before it if the file does not
have one there: `ofBytes_lossless`.
-/

set_option autoImplicit false

namespace OrderFile.Token

section

variable {c : Char} {text : List Char}

/-! ### Replaced bytes -/

/-- Bytes that are not text are no part of a number or a word. -/
theorem kind_of_replacement_mem (h : Utf8.replacement ∈ (cut c text).lexeme) :
    (cut c text).kind.isTrivia = true ∨ (cut c text).kind = .quotedText := by
  have hreplacement : isWordChar Utf8.replacement = false := by decide
  rcases cut_cases c with ⟨kind, -, htrivia, hcut⟩ | ⟨kind, inClass, htrivia, -, hcut⟩ | ⟨-, hcut⟩ |
    ⟨-, hcut⟩
  · rw [hcut text] at h
    obtain rfl := List.mem_singleton.mp h
    have hspaces : kind = .spaces := (congrArg Cut.kind (hcut [])).symm
    rw [hspaces] at htrivia
    cases htrivia
  · rw [hcut]
    exact .inl htrivia
  · rw [hcut]
    exact .inr rfl
  · have hword : ∀ d ∈ (cut c text).lexeme, isWordChar d = true := by
      rw [hcut]
      split
      · next hstart =>
        cases hnumber : cutNumber? (c :: text) with
        | none => exact isWordChar_of_mem_cutWord _
        | some k => exact (cutNumber?_again hstart hnumber).2.1
      · exact isWordChar_of_mem_cutWord _
    exact absurd (hreplacement.symm.trans (hword _ h)) Bool.false_ne_true

/-! ### Tokens cut off a text -/

/-- What holds of the tokens that are cut off a text. -/
structure IsCut (t : Token) : Prop where
  kind : t.kind ≠ .eof
  ne_nil : t.lexeme ≠ ""
  newline : t.kind = .eol → t.lexeme = "\n"
  line : t.kind ≠ .eol → '\n' ∉ t.lexeme.toList
  replaced : Utf8.replacement ∈ t.lexeme.toList → t.kind.isTrivia = true ∨ t.kind = .quotedText

/-- What is cut off a text is a token of it. -/
theorem isCut_cut (n : UInt32) (c : Char) (text : List Char) : ((cut c text).token n).IsCut where
  kind := cut_kind_ne_eof c text
  ne_nil h := by
    refine cut_lexeme_ne_nil c text ?_
    rw [← @String.toList_ofList (cut c text).lexeme]
    exact congrArg String.toList h
  newline heol := by
    by_cases hc : c = '\n'
    · subst hc
      rfl
    · exact absurd heol (cut_not_end hc text).1
  line heol := by
    rw [Cut.token, String.toList_ofList]
    refine not_mem_cut_lexeme ?_
    rintro rfl
    exact heol rfl
  replaced h := by
    rw [Cut.token, String.toList_ofList] at h
    exact kind_of_replacement_mem h

/-- The texts of tokens, one after another. -/
def lexemes (ts : List Token) : List Char :=
  ts.flatMap (·.lexeme.toList)

theorem lexemes_append (ts others : List Token) :
    lexemes (ts ++ others) = lexemes ts ++ lexemes others :=
  List.flatMap_append

/-- The tokens cut off a text, and the end, with a line end before it if the last token is none. -/
theorem exists_scanFrom_eq (line : UInt32) (closed : Bool) (text : List Char) :
    ∃ body last, (∀ t ∈ body, t.IsCut) ∧ lexemes body = text ∧
      scanFrom line closed text = body ++
        if body.getLast?.elim closed (·.kind == .eol) then [eof last]
        else [impliedEol last, eof last] := by
  fun_induction scanFrom line closed text with
  | case1 line => exact ⟨[], line, List.forall_mem_nil _, rfl, rfl⟩
  | case2 line closed hopen => exact ⟨[], line, List.forall_mem_nil _, rfl, by simp [hopen]⟩
  | case3 line closed c text k ih =>
    obtain ⟨body, last, hbody, htext, hscan⟩ := ih
    refine ⟨k.token line :: body, last, List.forall_mem_cons.mpr ⟨isCut_cut line c text, hbody⟩,
      ?_, ?_⟩
    · have hfirst : (k.token line).lexeme.toList = k.lexeme := String.toList_ofList
      rw [lexemes, List.flatMap_cons, hfirst, ← lexemes, htext, cut_append]
    · have hlast : (k.token line :: body).getLast?.elim closed (·.kind == .eol) =
          body.getLast?.elim (k.kind == .eol) (·.kind == .eol) := by
        rw [List.getLast?_cons]
        cases body.getLast? <;> rfl
      rw [dite_eq_ite] at hscan
      rw [hscan, hlast]
      rfl

/-- A text ends with a line end exactly if its last token is one. -/
theorem getLast?_lexemes_iff {body : List Token} (h : ∀ t ∈ body, t.IsCut) :
    (lexemes body).getLast? = some '\n' ↔ body.getLast?.elim false (·.kind == .eol) = true := by
  cases body using List.reverseRec with
  | nil => simp [lexemes]
  | append_singleton before t =>
    have ht := h t (by simp)
    have hlexeme : lexemes [t] = t.lexeme.toList := List.flatMap_singleton ..
    have hne : t.lexeme.toList ≠ [] := fun hnil ↦ ht.ne_nil (String.toList_eq_nil_iff.mp hnil)
    rw [lexemes_append, hlexeme, List.getLast?_append_of_ne_nil _ hne, List.getLast?_concat,
      Option.elim_some, beq_iff_eq]
    constructor
    · intro hline
      by_contra heol
      exact ht.line heol (List.mem_of_getLast? hline)
    · intro heol
      rw [ht.newline heol]
      rfl

/-- What comes after the tokens that are cut off a text has no text. -/
theorem lexemes_end (closed : Bool) (n : UInt32) :
    lexemes (if closed then [eof n] else [impliedEol n, eof n]) = [] := by
  cases closed <;> rfl

/-- The texts of the tokens of a text are the text. -/
theorem lexemes_scan (text : List Char) : lexemes (scan text) = text := by
  obtain ⟨body, last, -, htext, hscan⟩ := exists_scanFrom_eq 1 false text
  rw [scan, hscan, lexemes_append, lexemes_end, List.append_nil, htext]

/-- The last two tokens of a text are a line end and the end. -/
theorem exists_scan_eq (text : List Char) :
    ∃ body e f, scan text = body ++ [e, f] ∧ (∀ t ∈ body, t.IsCut) ∧ e.kind = .eol ∧
      e.lexeme = (if text.getLast? = some '\n' then "\n" else "") ∧ f.kind = .eof ∧
      f.lexeme = "" := by
  obtain ⟨body, last, hbody, rfl, hscan⟩ := exists_scanFrom_eq 1 false text
  rw [scan, hscan]
  by_cases hline : (lexemes body).getLast? = some '\n'
  · have hclosed := (getLast?_lexemes_iff hbody).mp hline
    rw [if_pos hclosed, if_pos hline]
    cases body using List.reverseRec with
    | nil => cases hclosed
    | append_singleton before e =>
      obtain ⟨hbefore, he⟩ := List.forall_mem_append.mp hbody
      have hkind : e.kind = .eol := by simpa using hclosed
      have hnewline := (he e List.mem_cons_self).newline hkind
      exact ⟨before, e, eof last, List.append_assoc .., hbefore, hkind, hnewline, rfl, rfl⟩
  · rw [if_neg (mt (getLast?_lexemes_iff hbody).mpr hline), if_neg hline]
    exact ⟨body, impliedEol last, eof last, rfl, hbody, rfl, rfl, rfl, rfl⟩

end

/-- The tokens of a file say its text, and no other text is one of its bytes. They are tokens with
some text each, a line end, whose text is empty if the file does not end with one, and the end.
Bytes that are no text are in comments, quoted texts and spaces only. -/
theorem ofBytes_lossless (bytes : List UInt8) :
    (∀ text, Utf8.Lossy bytes text ↔ text = lexemes (ofBytes bytes)) ∧
      (∃ body e f, ofBytes bytes = body ++ [e, f] ∧ (∀ t ∈ body, t.kind ≠ .eof ∧ t.lexeme ≠ "") ∧
        e.kind = .eol ∧
        e.lexeme = (if (lexemes (ofBytes bytes)).getLast? = some '\n' then "\n" else "") ∧
        f.kind = .eof ∧ f.lexeme = "") ∧
      ∀ t ∈ ofBytes bytes, Utf8.replacement ∈ t.lexeme.toList →
        t.kind = .comment ∨ t.kind = .quotedText ∨ t.kind = .spaces := by
  have htext : lexemes (ofBytes bytes) = Utf8.decode bytes := lexemes_scan _
  obtain ⟨body, e, f, hscan, hbody, heol, hnewline, heof, hend⟩ :=
    exists_scan_eq (Utf8.decode bytes)
  rw [htext]
  refine ⟨fun text ↦ Utf8.lossy_iff, ⟨body, e, f, hscan, fun t ht ↦ ?_, heol, hnewline, heof, hend⟩,
    fun t ht hmem ↦ ?_⟩
  · exact ⟨(hbody t ht).kind, (hbody t ht).ne_nil⟩
  · rw [ofBytes, hscan, List.mem_append, List.mem_cons, List.mem_singleton] at ht
    rcases ht with hfront | rfl | rfl
    · rcases (hbody t hfront).replaced hmem with htrivia | hquoted
      · cases hkind : t.kind <;> rw [hkind] at htrivia <;> simp [Kind.isTrivia] at htrivia ⊢
      · exact .inr (.inl hquoted)
    · rw [hnewline] at hmem
      split at hmem <;> exact absurd hmem (by decide)
    · rw [hend] at hmem
      cases hmem

end OrderFile.Token
