/-!
The shortest decimal that reads back as a given binary floating point number. A finite number is
`m * 2 ^ q`, and the reals that round to it form an interval around it, ends included exactly when
`m` is even. On the decimal grids of one digit, two digits and so on, the first grid with a point
in the interval gives the digits: if any of its points lies in the interval, one of the two
neighbours of the number does, and of two such neighbours the nearer is taken.
-/

set_option autoImplicit false

namespace OrderFile

/-- The number `coefficient * 10 ^ exponent`. -/
structure Decimal where
  coefficient : Nat
  exponent : Int
  deriving DecidableEq

namespace Decimal

/-- A nonnegative number `mantissa * 2 ^ exponent`, with its distance to the number below. -/
structure Binary where
  mantissa : Nat
  exponent : Int
  /-- The mantissa is the least of its exponent, so that the number below is twice as near. -/
  narrowBelow : Bool

/-- The absolute value of a finite number, from its sign, exponent and fraction bits. -/
def Binary.ofBits (bits : UInt64) : Binary :=
  let fraction := (bits &&& 0xFFFFFFFFFFFFF).toNat
  let exponent := (bits >>> 52 &&& 0x7FF).toNat
  if exponent = 0 then ⟨fraction, -1074, false⟩
  else ⟨0x10000000000000 + fraction, (exponent : Int) - 1075, fraction == 0 && exponent != 1⟩

/-- A quotient of naturals in an interval of such quotients, all over one denominator. -/
structure Interval where
  below : Nat
  value : Nat
  above : Nat
  denominator : Nat
  /-- Both ends belong to the interval. -/
  closed : Bool

/-- The reals that round to a number, in quarters of its last binary place. -/
def Binary.interval (b : Binary) : Interval :=
  let places := (b.exponent - 2).toNat
  { below := (4 * b.mantissa - (if b.narrowBelow then 1 else 2)) <<< places
    value := (4 * b.mantissa) <<< places
    above := (4 * b.mantissa + 2) <<< places
    denominator := 1 <<< (2 - b.exponent).toNat
    closed := b.mantissa % 2 = 0 }

/-- The interval measured in units of `10 ^ place`. -/
def Interval.inUnitsOf (i : Interval) (place : Int) : Interval :=
  let up := Nat.pow 10 (-place).toNat
  { i with
    below := i.below * up
    value := i.value * up
    above := i.above * up
    denominator := i.denominator * Nat.pow 10 place.toNat }

def Interval.contains (i : Interval) (n : Nat) : Bool :=
  let scaled := n * i.denominator
  if i.closed then i.below ≤ scaled && scaled ≤ i.above
  else i.below < scaled && scaled < i.above

/-- Which of two equally near neighbours is taken. -/
inductive Tie where
  | even
  | greater
  deriving DecidableEq

/-- The neighbour of the value that lies in the interval, the nearer one if both do. -/
def Interval.neighbour? (i : Interval) (tie : Tie) : Option Nat :=
  let low := i.value / i.denominator
  let twice := 2 * (i.value % i.denominator)
  match i.contains low, i.contains (low + 1) with
  | false, false => none
  | true, false => some low
  | false, true => some (low + 1)
  | true, true =>
    if twice < i.denominator then some low
    else if twice = i.denominator ∧ tie = .even ∧ low % 2 = 0 then some low
    else some (low + 1)

/-- The number of decimal digits of a natural number. -/
def digitCount (n : Nat) : Nat :=
  (Nat.toDigits 10 n).length

/-- The decimal place of the first digit of a positive quotient. -/
def leadingPlace (numerator denominator : Nat) : Int :=
  if denominator ≤ numerator then digitCount (numerator / denominator) - 1
  else -(digitCount ((denominator - 1) / numerator) : Int)

/-- The shortest decimal in the interval of a positive number. Seventeen digits always suffice. A
first digit that rounds up to ten is a one in the next place. -/
def Binary.shortest (b : Binary) (tie : Tie) : Decimal :=
  let interval := b.interval
  let place := leadingPlace interval.value interval.denominator
  let found := (List.range 17).findSome? fun (n : Nat) ↦
    ((interval.inUnitsOf (place - n)).neighbour? tie).map fun c ↦ (⟨c, place - n⟩ : Decimal)
  match found with
  | some ⟨10, exponent⟩ => ⟨1, exponent + 1⟩
  | some decimal => decimal
  | none => ⟨0, 0⟩

/-- The shortest decimal that reads back as the absolute value of a finite number. -/
def ofFloat (x : Float) (tie : Tie) : Decimal :=
  let b := Binary.ofBits x.toBits
  if b.mantissa = 0 then ⟨0, 0⟩ else b.shortest tie

end Decimal

end OrderFile
