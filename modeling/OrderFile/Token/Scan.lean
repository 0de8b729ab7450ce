import OrderFile.Token.Cut

/-!
The tokens of a whole text, with their lines. The text may be read one token at a time by a
scanner, or at once by `scan`, which also closes the last line if the text leaves it open.
-/

set_option autoImplicit false

namespace OrderFile

/-- A place in a text. -/
structure Scanner where
  rest : List Char
  line : UInt32

/-- The start of a text. -/
def Scanner.start (text : List Char) : Scanner := ⟨text, 1⟩

/-- The next token and the place after it. At the end this is the same end token for ever. -/
def Scanner.next (s : Scanner) : Token × Scanner :=
  match s.rest with
  | [] => (Token.eof s.line, s)
  | c :: text =>
    let k := Token.cut c text
    (⟨s.line, k.kind, String.ofList k.lexeme, k.payload⟩,
      ⟨k.rest, if k.kind = .eol then s.line + 1 else s.line⟩)

namespace Token

/-- The tokens of the text from a line on. `closed` says that the token before the text ended a
line; if no token does at the end, an implied line end comes before the end token. -/
def scanFrom (line : UInt32) (closed : Bool) (text : List Char) : List Token :=
  match text with
  | [] => if closed then [eof line] else [impliedEol line, eof line]
  | c :: text =>
    let k := cut c text
    ⟨line, k.kind, String.ofList k.lexeme, k.payload⟩ ::
      scanFrom (if k.kind = .eol then line + 1 else line) (k.kind == .eol) k.rest
termination_by text.length
decreasing_by exact cut_rest_length_lt c text

/-- The tokens of a text. -/
def scan (text : List Char) : List Token :=
  scanFrom 1 false text

/-- The tokens of a byte sequence. -/
def ofBytes (bytes : List UInt8) : List Token :=
  scan (Utf8.decode bytes)

end Token

end OrderFile
