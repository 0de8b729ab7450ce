import OrderFile.Keyword
import OrderFile.Parse
import OrderFile.Token.Prepared

/-!
Tokens that are told in other words. A change of tokens that keeps their kinds, their integers and
what their words spell in any case is one that no shape, no keyword and no preparation of a stream
can tell.
-/

set_option autoImplicit false

namespace OrderFile

/-- A change of tokens that keeps kinds, integers and what words spell in any case. -/
structure Token.Rewords (f : Token → Token) : Prop where
  kind (t : Token) : (f t).kind = t.kind
  integer? (t : Token) : (f t).integer? = t.integer?
  word (t : Token) : t.kind = .text → lowercase (f t).lexeme = lowercase t.lexeme

/-- The payload with its text in other words. -/
def Payload.mapText (said : String → String) : Payload → Payload
  | text s => text (said s)
  | other => other

namespace Token

/-- The token with its text in other words. -/
def mapText (said : String → String) (t : Token) : Token :=
  { t with lexeme := said t.lexeme, payload := t.payload.mapText said }

section

variable (said : String → String) (t : Token)

theorem integer?_mapText : (t.mapText said).integer? = t.integer? := by
  rw [mapText, integer?, integer?]
  cases t.payload <;> rfl

theorem number?_mapText : (t.mapText said).number? = t.number? := by
  rw [mapText, number?, number?]
  cases t.payload <;> rfl

theorem material?_mapText : (t.mapText said).material? = t.material? := by
  rw [mapText, material?, material?]
  cases t.payload <;> rfl

/-- Only the text that a token carries is told in other words. -/
theorem text?_mapText : (t.mapText said).text? = t.text?.map said := by
  rw [mapText, text?, text?]
  cases t.payload <;> rfl

end

end Token

/-- Whether a shape asks for words of plain text only. -/
def Shape.isPlain (shape : Shape) : Bool :=
  shape.word.isNone || shape.kind == .text

namespace Token.Rewords

variable {f : Token → Token} (hf : Rewords f)

include hf

/-- A text spells the same words after the change, in any case. -/
theorem sameWord_lexeme {t : Token} (h : t.kind = .text) (word : String) :
    sameWord (f t).lexeme word = sameWord t.lexeme word := by
  rw [sameWord, sameWord, hf.word t h]

/-- A shape that asks for no text accepts the same tokens. -/
theorem accepts {shape : Shape} (h : shape.isPlain = true) (t : Token) :
    shape.accepts (f t) = shape.accepts t := by
  obtain ⟨kind, word⟩ := shape
  rw [Shape.accepts, Shape.accepts, hf.kind]
  cases word with
  | none => rfl
  | some w =>
    have hkind : kind = .text := eq_of_beq h
    subst hkind
    by_cases ht : t.kind = .text
    · simp only [Option.all_some, hf.sameWord_lexeme ht]
    · rw [beq_false_of_ne ht, Bool.false_and, Bool.false_and]

theorem spells (t : Token) (word : String) : (f t).spells word = t.spells word := by
  have hshape : (Shape.keyword word).accepts (f t) = (Shape.keyword word).accepts t :=
    hf.accepts rfl t
  exact hshape

/-- A token is the same keyword after the change, or none. -/
theorem ofToken? (t : Token) : Keyword.ofToken? (f t) = Keyword.ofToken? t := by
  rw [Keyword.ofToken?, Keyword.ofToken?, hf.kind]
  split
  · next ht => simp only [Keyword.ofWord?, sameWord, hf.word t ht]
  · rfl

/-! ### Streams -/

theorem collapseLinesFrom_map (after : Bool) (ts : List Token) :
    collapseLinesFrom after (ts.map f) = (collapseLinesFrom after ts).map f := by
  induction ts generalizing after with
  | nil => rfl
  | cons t ts ih =>
    rw [List.map_cons, collapseLinesFrom, collapseLinesFrom, hf.kind, ih, ih]
    split <;> rfl

/-- Preparing a stream commutes with the change. -/
theorem prepare_map (ts : List Token) : prepare (ts.map f) = (prepare ts).map f := by
  have hfilter (keep : Kind → Bool) (ts : List Token) :
      (ts.map f).filter (keep ·.kind) = (ts.filter (keep ·.kind)).map f := by
    rw [List.filter_map]
    refine congrArg (List.map f) (List.filter_congr fun t _ ↦ ?_)
    rw [Function.comp_apply, hf.kind]
  rw [prepare, prepare, withoutComments, withoutComments, hfilter (· != .comment), withoutSpaces,
    withoutSpaces, hfilter (· != .spaces), collapseLines, collapseLines, hf.collapseLinesFrom_map]

end Token.Rewords

end OrderFile
