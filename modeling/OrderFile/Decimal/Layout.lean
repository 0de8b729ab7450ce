import OrderFile.Decimal.Shortest

/-!
How a floating point number is written: where plain notation ends, what marks a whole number, and
which way a tie between two shortest decimals goes.
-/

set_option autoImplicit false

namespace OrderFile

/-- The choices that a way of writing numbers makes. -/
structure Decimal.Layout where
  tie : Decimal.Tie
  /-- The places of the first digit that are written in plain notation; all, if there are no
  bounds. -/
  plain : Option (Int × Int)
  /-- What follows a whole number in plain notation. -/
  wholeMark : String
  /-- The texts of the numbers that are not finite, if they have one. -/
  infinity : Option String
  notANumber : Option String

namespace Decimal

/-- Plain notation. -/
def plainText (wholeMark : String) (digits : String) (exponent : Int) : String :=
  let digits := digits.toList
  if 0 ≤ exponent then
    String.ofList (digits ++ List.replicate exponent.toNat '0') ++ wholeMark
  else
    let places := (-exponent).toNat
    let padded := List.replicate (places + 1 - digits.length) '0' ++ digits
    let whole := padded.length - places
    String.ofList (padded.take whole ++ '.' :: padded.drop whole)

/-- Scientific notation: one digit, the other digits after a point if there are any, and a signed
exponent. -/
def scientificText (digits : String) (place : Int) : String :=
  let mantissa := match digits.toList with
    | [] => ""
    | [d] => String.ofList [d]
    | d :: more => String.ofList (d :: '.' :: more)
  mantissa ++ "e" ++ (if 0 ≤ place then "+" ++ toString place else toString place)

/-- A decimal written in a layout. -/
def Layout.write (layout : Layout) (d : Decimal) : String :=
  let digits := String.ofList (Nat.toDigits 10 d.coefficient)
  let place := d.exponent + digits.length - 1
  let isPlain := match layout.plain with
    | none => true
    | some (low, high) => low ≤ place && place ≤ high
  if isPlain then plainText layout.wholeMark digits d.exponent else scientificText digits place

/-- A floating point number written in a layout, sign of zero included. -/
def Layout.text? (layout : Layout) (x : Float) : Option String :=
  let sign := if x.toBits >>> 63 = 1 then "-" else ""
  if x.isNaN then layout.notANumber
  else if x.isInf then layout.infinity.map (sign ++ ·)
  else some (sign ++ layout.write (ofFloat x layout.tie))

/-- Numbers in messages and listings: always plain, the greater of two shortest decimals on a tie,
no mark on whole numbers. -/
def listing : Layout where
  tie := .greater
  plain := none
  wholeMark := ""
  infinity := some "inf"
  notANumber := some "NaN"

/-- Numbers in JSON: plain from `0.00001` up to sixteen digits before the point, the even one of
two shortest decimals on a tie, and `.0` on whole numbers in plain notation. Numbers that are not
finite have no text. -/
def json : Layout where
  tie := .even
  plain := some (-5, 15)
  wholeMark := ".0"
  infinity := none
  notANumber := none

/-- A number as messages and listings show it. -/
def display (x : Float) : String :=
  (listing.text? x).getD ""

end Decimal

end OrderFile
