/-!
Decimal digits as numbers, and numbers as machine words where they fit.
-/

set_option autoImplicit false

namespace OrderFile

/-- The value of a run of decimal digits. -/
def digitsValue (digits : List Char) : Nat :=
  digits.foldl (fun n d ↦ 10 * n + (d.toNat - '0'.toNat)) 0

/-- The value of a text of one or more decimal digits and nothing else. -/
def numeral? (text : List Char) : Option Nat :=
  if text ≠ [] ∧ text.all Char.isDigit then some (digitsValue text) else none

/-- The number as a signed word of 64 bits. -/
def int64? (n : Int) : Option Int64 :=
  if Int64.minValue.toInt ≤ n ∧ n ≤ Int64.maxValue.toInt then some (.ofInt n) else none

/-- The number as an unsigned word of 32 bits. -/
def uint32? (n : Nat) : Option UInt32 :=
  if n < UInt32.size then some (.ofNat n) else none

end OrderFile
