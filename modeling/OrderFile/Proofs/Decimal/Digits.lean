import OrderFile.Token.Cut

/-!
Numbers written in decimal digits and read back. A machine word is written as a sign, if it has one,
and the digits of its size, and these stand for the word and no other.
-/

set_option autoImplicit false

namespace OrderFile

theorem isDigit_of_mem_toDigits {n : Nat} {c : Char} (h : c ∈ Nat.toDigits 10 n) :
    c.isDigit = true :=
  Nat.isDigit_of_mem_toDigits (by decide) (by decide) h

/-- The digits of a number have its value. -/
theorem digitsValue_toDigits (n : Nat) : digitsValue (Nat.toDigits 10 n) = n :=
  Nat.ofDigitChars_ten_toDigits

theorem numeral?_toDigits (n : Nat) : numeral? (Nat.toDigits 10 n) = some n := by
  have hdigits : Nat.toDigits 10 n ≠ [] ∧ (Nat.toDigits 10 n).all Char.isDigit = true :=
    ⟨Nat.toDigits_ne_nil, List.all_eq_true.mpr fun _ ↦ isDigit_of_mem_toDigits⟩
  rw [numeral?, if_pos hdigits, digitsValue_toDigits]

/-- A numeral is one digit or more, and stands for their value. -/
theorem numeral?_eq_some_iff {text : List Char} {n : Nat} :
    numeral? text = some n ↔
      text ≠ [] ∧ (∀ d ∈ text, d.isDigit = true) ∧ digitsValue text = n := by
  rw [numeral?, Option.ite_none_right_eq_some, List.all_eq_true, and_assoc, Option.some.injEq]

/-- A signed word fits into its own size. -/
theorem int64?_toInt (n : Int64) : int64? n.toInt = some n := by
  have hrange : Int64.minValue.toInt ≤ n.toInt ∧ n.toInt ≤ Int64.maxValue.toInt :=
    ⟨Int64.minValue_le_toInt n, Int64.toInt_le n⟩
  rw [int64?, if_pos hrange, Int64.ofInt_toInt]

theorem toInt_of_int64? {n : Int} {value : Int64} (h : int64? n = some value) :
    value.toInt = n := by
  unfold int64? at h
  split at h
  · next hrange =>
    obtain rfl := Option.some.inj h
    have hmax : Int64.maxValue.toInt + 1 = 2 ^ 63 := by decide
    exact Int64.toInt_ofInt_of_le hrange.1 (hmax ▸ Int.lt_add_one_of_le hrange.2)
  · cases h

theorem uint32?_toNat (n : UInt32) : uint32? n.toNat = some n := by
  rw [uint32?, if_pos n.toNat_lt_size, UInt32.ofNat_toNat]

/-- A number fits into an unsigned word exactly if the word is that number. -/
theorem uint32?_eq_some_iff {n : Nat} {value : UInt32} :
    uint32? n = some value ↔ n = value.toNat := by
  constructor
  · intro h
    obtain ⟨hsize, heq⟩ := Option.ite_none_right_eq_some.mp h
    rw [← Option.some.inj heq]
    exact (UInt32.toNat_ofNat_of_lt' hsize).symm
  · rintro rfl
    exact uint32?_toNat value

/-- The sign that a number is written with. -/
def signOf (n : Int64) : List Char :=
  if 0 ≤ n.toInt then [] else ['-']

/-- The digits that a number is written with. -/
def digitsOf (n : Int64) : List Char :=
  Nat.toDigits 10 n.toInt.natAbs

/-- A signed word prints as its sign and digits. -/
theorem toList_toString (n : Int64) : (toString n).toList = signOf n ++ digitsOf n := by
  have hrepr : toString n = n.toInt.repr := rfl
  rw [hrepr, Int.repr_eq_if, signOf, digitsOf]
  by_cases hsign : 0 ≤ n.toInt
  · rw [if_pos hsign, if_pos hsign, Nat.toList_repr, List.nil_append]
    congr 1
    omega
  · rw [if_neg hsign, if_neg hsign, String.toList_append, Nat.toList_repr]
    congr 2
    omega

/-- What a signed word prints is read as this word. -/
theorem integerValue?_signOf (n : Int64) : Token.integerValue? (signOf n) (digitsOf n) = some n := by
  have hvalue : (if signOf n = ['-'] then -(digitsValue (digitsOf n) : Int)
      else digitsValue (digitsOf n)) = n.toInt := by
    rw [digitsOf, digitsValue_toDigits, signOf]
    by_cases hsign : 0 ≤ n.toInt
    · rw [if_pos hsign, if_neg (by simp)]
      omega
    · rw [if_neg hsign, if_pos rfl]
      omega
  rw [Token.integerValue?, hvalue, int64?_toInt]

end OrderFile
