import OrderFile.Text.Utf8

/-!
Texts as bytes. The bytes of a character are read as this character whatever comes after them, so
the bytes of a text are read as this text: `decode_toUTF8`.
-/

set_option autoImplicit false

namespace OrderFile.Utf8

deriving instance DecidableEq for Pending

/-! ### Characters byte by byte -/

/-- A byte that goes on with a character gives six bits. -/
theorem step_continuation (more bits : Nat) {y : Nat} (hy : y < 64) :
    step (some ⟨more, 0x80, 0xBF, bits⟩) (UInt8.ofNat (y + 128)) =
      match more with
      | 0 => ([Char.ofNat (bits * 64 + y)], none)
      | n + 1 => ([], some ⟨n, 0x80, 0xBF, bits * 64 + y⟩) := by
  have hbyte : ∀ y < 64, (0x80 ≤ UInt8.ofNat (y + 128) ∧ UInt8.ofNat (y + 128) ≤ 0xBF) ∧
      (UInt8.ofNat (y + 128)).toNat % 64 = y := by decide +kernel
  obtain ⟨hrange, hbits⟩ := hbyte y hy
  rw [step]
  dsimp only
  cases more <;> simp only [if_pos hrange, hbits]

/-- The first byte of a character of two. -/
theorem step_two {x : Nat} (hlow : 2 ≤ x) (hhigh : x < 32) :
    step none (UInt8.ofNat (x + 192)) = ([], some ⟨0, 0x80, 0xBF, x⟩) := by
  have hall : ∀ x < 32, 2 ≤ x →
      step none (UInt8.ofNat (x + 192)) = ([], some ⟨0, 0x80, 0xBF, x⟩) := by decide +kernel
  exact hall x hhigh hlow

/-- The first two bytes of a character of three. They are not more than needed, and do not start a
surrogate. -/
theorem steps_three {x y : Nat} (hx : x < 16) (hy : y < 64) (hlong : x = 0 → 32 ≤ y)
    (hpair : x = 13 → y < 32) :
    ∃ p, step none (UInt8.ofNat (x + 224)) = ([], some p) ∧
      step (some p) (UInt8.ofNat (y + 128)) = ([], some ⟨0, 0x80, 0xBF, x * 64 + y⟩) := by
  have hfirst : ∀ x < 16, step none (UInt8.ofNat (x + 224)) =
      ([], (step none (UInt8.ofNat (x + 224))).2) ∧
        (step none (UInt8.ofNat (x + 224))).2.isSome = true := by decide +kernel
  have hsecond : ∀ x < 16, ∀ y < 64, x = 0 ∧ y < 32 ∨ x = 13 ∧ 32 ≤ y ∨
      step (step none (UInt8.ofNat (x + 224))).2 (UInt8.ofNat (y + 128)) =
        ([], some ⟨0, 0x80, 0xBF, x * 64 + y⟩) := by decide +kernel
  obtain ⟨hopen, hsome⟩ := hfirst x hx
  obtain ⟨p, hp⟩ := Option.isSome_iff_exists.mp hsome
  rw [hp] at hopen
  refine ⟨p, hopen, hp ▸ ((hsecond x hx y hy).resolve_left ?_).resolve_left ?_⟩
  · rintro ⟨hzero, hshort⟩
    exact absurd (hlong hzero) (by omega)
  · rintro ⟨hsurrogate, hhigh⟩
    exact absurd (hpair hsurrogate) (by omega)

/-- The first two bytes of a character of four. They are not more than needed, and start no code
point that is too large. -/
theorem steps_four {x y : Nat} (hx : x < 5) (hy : y < 64) (hlong : x = 0 → 16 ≤ y)
    (hlast : x = 4 → y < 16) :
    ∃ p, step none (UInt8.ofNat (x + 240)) = ([], some p) ∧
      step (some p) (UInt8.ofNat (y + 128)) = ([], some ⟨1, 0x80, 0xBF, x * 64 + y⟩) := by
  have hfirst : ∀ x < 5, step none (UInt8.ofNat (x + 240)) =
      ([], (step none (UInt8.ofNat (x + 240))).2) ∧
        (step none (UInt8.ofNat (x + 240))).2.isSome = true := by decide +kernel
  have hsecond : ∀ x < 5, ∀ y < 64, x = 0 ∧ y < 16 ∨ x = 4 ∧ 16 ≤ y ∨
      step (step none (UInt8.ofNat (x + 240))).2 (UInt8.ofNat (y + 128)) =
        ([], some ⟨1, 0x80, 0xBF, x * 64 + y⟩) := by decide +kernel
  obtain ⟨hopen, hsome⟩ := hfirst x hx
  obtain ⟨p, hp⟩ := Option.isSome_iff_exists.mp hsome
  rw [hp] at hopen
  refine ⟨p, hopen, hp ▸ ((hsecond x hx y hy).resolve_left ?_).resolve_left ?_⟩
  · rintro ⟨hzero, hshort⟩
    exact absurd (hlong hzero) (by omega)
  · rintro ⟨hfour, hhigh⟩
    exact absurd (hlast hfour) (by omega)

/-- Bytes are read one after another, each with what is pending before it. -/
theorem decodeFrom_of_step {pending next : Option Pending} {b : UInt8} {text : List Char}
    (h : step pending b = (text, next)) (bytes : List UInt8) :
    decodeFrom pending (b :: bytes) = text ++ decodeFrom next bytes := by
  cases pending <;> rw [decodeFrom, h]

/-! ### Whole texts -/

/-- The bytes of a character are read as this character. -/
theorem decode_utf8EncodeChar (c : Char) (bytes : List UInt8) :
    decode (String.utf8EncodeChar c ++ bytes) = c :: decode bytes := by
  have hvalid : c.toNat < 0xD800 ∨ 0xDFFF < c.toNat ∧ c.toNat < 0x110000 := c.valid
  have hread {n : Nat} (hn : n = c.toNat) (rest : List Char) :
      [Char.ofNat n] ++ rest = c :: rest := by
    rw [hn, Char.ofNat_toNat]
    rfl
  rw [String.utf8EncodeChar, ← Char.toNat]
  -- The four lengths of an encoding in turn. Each byte is one step, and what the steps have put
  -- together is the code point by division with remainder.
  generalize c.toNat = v at hvalid hread
  rw [decode]
  split
  · next hone =>
    have hbyte : (UInt8.ofNat v).toNat = v := by
      rw [UInt8.toNat_ofNat']
      omega
    have hlow : UInt8.ofNat v ≤ 0x7F := UInt8.le_iff_toNat_le.mpr (by rw [hbyte]; exact hone)
    have hbegin : step none (UInt8.ofNat v) = ([Char.ofNat v], none) := by
      rw [step, begin, if_pos hlow, hbyte]
    rw [List.singleton_append, decodeFrom_of_step hbegin]
    exact hread rfl _
  split
  · next hone htwo =>
    have hquotient : v / 64 % 32 = v / 64 := by omega
    have hfirst := step_two (x := v / 64) (by omega) (by omega)
    have hsecond := step_continuation 0 (v / 64) (y := v % 64) (by omega)
    rw [hquotient, List.cons_append, decodeFrom_of_step hfirst, List.singleton_append,
      decodeFrom_of_step hsecond]
    exact hread (by omega) _
  split
  · next hone htwo hthree =>
    have hquotient : v / 4096 % 16 = v / 4096 := by omega
    obtain ⟨p, hfirst, hsecond⟩ := steps_three (x := v / 4096) (y := v / 64 % 64)
      (by omega) (by omega) (by omega) (by omega)
    have hthird := step_continuation 0 (v / 4096 * 64 + v / 64 % 64) (y := v % 64) (by omega)
    rw [hquotient, List.cons_append, decodeFrom_of_step hfirst, List.cons_append,
      decodeFrom_of_step hsecond, List.singleton_append, decodeFrom_of_step hthird]
    exact hread (by omega) _
  · next hone htwo hthree =>
    have hquotient : v / 262144 % 8 = v / 262144 := by omega
    obtain ⟨p, hfirst, hsecond⟩ := steps_four (x := v / 262144) (y := v / 4096 % 64)
      (by omega) (by omega) (by omega) (by omega)
    have hthird := step_continuation 1 (v / 262144 * 64 + v / 4096 % 64) (y := v / 64 % 64)
      (by omega)
    have hfourth := step_continuation 0 ((v / 262144 * 64 + v / 4096 % 64) * 64 + v / 64 % 64)
      (y := v % 64) (by omega)
    rw [hquotient, List.cons_append, decodeFrom_of_step hfirst, List.cons_append,
      decodeFrom_of_step hsecond, List.cons_append, decodeFrom_of_step hthird,
      List.singleton_append, decodeFrom_of_step hfourth]
    exact hread (by omega) _

/-- The bytes of a text are read as this text. -/
theorem decode_toUTF8 (text : String) : decode text.toUTF8.data.toList = text.toList := by
  have hbytes : text.toUTF8.data.toList = text.toList.flatMap String.utf8EncodeChar := by
    rw [String.toUTF8, ← String.ofList_toList (s := text), String.toByteArray_ofList,
      String.toList_ofList, List.utf8Encode, List.data_toByteArray]
  rw [hbytes]
  induction text.toList with
  | nil => rfl
  | cons c chars ih => rw [List.flatMap_cons, decode_utf8EncodeChar, ih]

end OrderFile.Utf8
