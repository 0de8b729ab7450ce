/-!
Bytes as text. A byte sequence that is not UTF-8 still has a text: every longest start of a
character that cannot be completed, and every byte that cannot start one, is read as one
replacement character.
-/

set_option autoImplicit false

namespace OrderFile.Utf8

/-- The character that stands for bytes that are not text. -/
def replacement : Char := '\uFFFD'

/-- A character whose first bytes have been read. -/
structure Pending where
  /-- How many bytes must follow the next one. -/
  more : Nat
  /-- The least value the next byte may have. -/
  low : UInt8
  /-- The greatest value the next byte may have. -/
  high : UInt8
  /-- The bits of the code point read so far. -/
  bits : Nat

/-- What a byte above `0x7F` starts, if it starts anything. The ranges leave out overlong forms,
surrogates and code points above `0x10FFFF`. -/
def lead? (b : UInt8) : Option Pending :=
  if 0xC2 ≤ b ∧ b ≤ 0xDF then some ⟨0, 0x80, 0xBF, b.toNat % 32⟩
  else if b = 0xE0 then some ⟨1, 0xA0, 0xBF, 0⟩
  else if b = 0xED then some ⟨1, 0x80, 0x9F, 13⟩
  else if 0xE1 ≤ b ∧ b ≤ 0xEF then some ⟨1, 0x80, 0xBF, b.toNat % 16⟩
  else if b = 0xF0 then some ⟨2, 0x90, 0xBF, 0⟩
  else if 0xF1 ≤ b ∧ b ≤ 0xF3 then some ⟨2, 0x80, 0xBF, b.toNat % 8⟩
  else if b = 0xF4 then some ⟨2, 0x80, 0x8F, 4⟩
  else none

/-- One byte between characters: the text it gives at once and the character it starts. -/
def begin (b : UInt8) : List Char × Option Pending :=
  if b ≤ 0x7F then ([Char.ofNat b.toNat], none)
  else match lead? b with
    | some pending => ([], some pending)
    | none => ([replacement], none)

/-- One byte. A byte that cannot continue the pending character ends it and is read afresh. -/
def step : Option Pending → UInt8 → List Char × Option Pending
  | none, b => begin b
  | some p, b =>
    if p.low ≤ b ∧ b ≤ p.high then
      let bits := p.bits * 64 + b.toNat % 64
      match p.more with
      | 0 => ([Char.ofNat bits], none)
      | n + 1 => ([], some ⟨n, 0x80, 0xBF, bits⟩)
    else (replacement :: (begin b).1, (begin b).2)

/-- The text of the bytes that follow a pending character. -/
def decodeFrom : Option Pending → List UInt8 → List Char
  | none, [] => []
  | some _, [] => [replacement]
  | pending, b :: bs => (step pending b).1 ++ decodeFrom (step pending b).2 bs

/-- The text of a byte sequence. -/
def decode (bytes : List UInt8) : List Char :=
  decodeFrom none bytes

end OrderFile.Utf8
