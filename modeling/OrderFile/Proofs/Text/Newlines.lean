import OrderFile.Text.Utf8

/-!
Line ends in bytes and in text. The bytes of a character of several bytes are all above `0x7F` and
so is the character, so a text has as many line ends as its bytes: `count_newline_decode`.
-/

set_option autoImplicit false

namespace OrderFile.Utf8

/-- Whatever completes a pending character gives one above `0x7F`: the bits read so far are enough,
or the next byte, which is not the last one, adds enough of them. -/
def Pending.Wide (p : Pending) : Prop :=
  0x80 ≤ p.low.toNat ∧ p.high.toNat ≤ 0xBF ∧
    (2 ≤ p.bits ∨ 0 < p.more ∧ (1 ≤ p.bits ∨ 0x90 ≤ p.low.toNat))

/-- What a lead byte leaves pending is a character above `0x7F`. -/
theorem wide_of_lead? {b : UInt8} {p : Pending} (h : lead? b = some p) : p.Wide := by
  unfold lead? at h
  repeat' split at h
  all_goals cases h
  all_goals simp_all [Pending.Wide, UInt8.le_iff_toNat_le]
  all_goals omega

theorem eq_of_ofNat_eq_newline {n : Nat} (h : Char.ofNat n = '\n') : n = 10 := by
  by_cases hvalid : n.isValidChar
  · rw [Char.ofNat, dif_pos hvalid] at h
    exact congrArg Char.toNat h
  · rw [Char.ofNat, dif_neg hvalid] at h
    exact absurd h (by decide)

theorem count_newline_of_ne {c : Char} {b : UInt8} (hc : c ≠ '\n') (hb : b ≠ 0x0A) :
    [c].count '\n' = [b].count 0x0A := by
  rw [List.count_singleton, List.count_singleton, if_neg (by simpa using hc),
    if_neg (by simpa using hb)]

/-- A byte that stands between characters is a line end exactly if its character is. -/
theorem begin_newline (b : UInt8) :
    (begin b).1.count '\n' = [b].count 0x0A ∧ ∀ p ∈ (begin b).2, p.Wide := by
  unfold begin
  by_cases hascii : b ≤ 0x7F
  · rw [if_pos hascii]
    refine ⟨?_, fun p hp ↦ absurd hp (Option.not_mem_none p)⟩
    by_cases hb : b = 0x0A
    · rw [hb]
      rfl
    · refine count_newline_of_ne (fun h ↦ hb ?_) hb
      exact UInt8.toNat_inj.mp (eq_of_ofNat_eq_newline h)
  · have hb : b ≠ 0x0A := by
      rintro rfl
      exact hascii (by decide)
    rw [if_neg hascii]
    cases hlead : lead? b with
    | none =>
      exact ⟨count_newline_of_ne (by decide) hb, fun p hp ↦ absurd hp (Option.not_mem_none p)⟩
    | some p =>
      refine ⟨?_, fun q hq ↦ ?_⟩
      · rw [List.count_singleton, if_neg (by simpa using hb)]
        rfl
      · cases hq
        exact wide_of_lead? hlead

/-- The same for a byte after the first bytes of a character. -/
theorem step_newline {pending : Option Pending} (hpending : ∀ p ∈ pending, p.Wide) (b : UInt8) :
    (step pending b).1.count '\n' = [b].count 0x0A ∧ ∀ p ∈ (step pending b).2, p.Wide := by
  cases pending with
  | none => exact begin_newline b
  | some p =>
    obtain ⟨hlow, hhigh, hbits⟩ := hpending p rfl
    rw [step]
    by_cases hrange : p.low ≤ b ∧ b ≤ p.high
    · have htail : p.low.toNat ≤ b.toNat ∧ b.toNat ≤ p.high.toNat := hrange
      have hb : b ≠ 0x0A := by
        rintro rfl
        change p.low.toNat ≤ 10 ∧ _ at htail
        omega
      rw [if_pos hrange]
      cases hmore : p.more with
      | zero =>
        refine ⟨count_newline_of_ne (fun h ↦ ?_) hb, fun p hp ↦ absurd hp (Option.not_mem_none p)⟩
        have hten := eq_of_ofNat_eq_newline h
        omega
      | succ n =>
        refine ⟨?_, fun q hq ↦ ?_⟩
        · rw [List.count_singleton, if_neg (by simpa using hb)]
          rfl
        · cases hq
          exact ⟨Nat.le_refl _, Nat.le_refl _, .inl (by dsimp only; omega)⟩
    · rw [if_neg hrange, List.count_cons_of_ne (by decide)]
      exact begin_newline b

/-- Reading bytes is reading the first one and then the others. -/
theorem decodeFrom_cons (pending : Option Pending) (b : UInt8) (bytes : List UInt8) :
    decodeFrom pending (b :: bytes) =
      (step pending b).1 ++ decodeFrom (step pending b).2 bytes := by
  cases pending <;> rfl

theorem count_newline_decodeFrom {pending : Option Pending} (hpending : ∀ p ∈ pending, p.Wide)
    (bytes : List UInt8) : (decodeFrom pending bytes).count '\n' = bytes.count 0x0A := by
  induction bytes generalizing pending with
  | nil => cases pending <;> rfl
  | cons b bytes ih =>
    have hstep := step_newline hpending b
    rw [decodeFrom_cons, List.count_append, hstep.1, ih hstep.2, ← List.count_append,
      List.singleton_append]

/-- A text has as many newlines as its bytes. -/
theorem count_newline_decode (bytes : List UInt8) :
    (decode bytes).count '\n' = bytes.count 0x0A :=
  count_newline_decodeFrom (by simp) bytes

/-- A line end completes no character, and what follows it is read afresh. -/
theorem exists_step_newline {pending : Option Pending} (hpending : ∀ p ∈ pending, p.Wide) :
    ∃ text, step pending 0x0A = (text ++ ['\n'], none) := by
  cases pending with
  | none => exact ⟨[], rfl⟩
  | some p =>
    obtain ⟨hlow, -⟩ := hpending p rfl
    have hout : ¬ (p.low ≤ 0x0A ∧ 0x0A ≤ p.high) := by
      rintro ⟨hrange, -⟩
      change p.low.toNat ≤ 10 at hrange
      omega
    exact ⟨[replacement], if_neg hout⟩

/-- A newline in bytes completes nothing, so what comes after it is read as if it came first. -/
theorem exists_decodeFrom_append {pending : Option Pending} (hpending : ∀ p ∈ pending, p.Wide)
    (front : List UInt8) :
    ∃ text, ∀ back, decodeFrom pending (front ++ 0x0A :: back) = text ++ '\n' :: decode back := by
  induction front generalizing pending with
  | nil =>
    obtain ⟨text, hstep⟩ := exists_step_newline hpending
    refine ⟨text, fun back ↦ ?_⟩
    rw [List.nil_append, decodeFrom_cons, hstep, List.append_assoc]
    rfl
  | cons b front ih =>
    obtain ⟨text, htext⟩ := ih (step_newline hpending b).2
    refine ⟨(step pending b).1 ++ text, fun back ↦ ?_⟩
    rw [List.cons_append, decodeFrom_cons, htext, List.append_assoc]

/-- The text of bytes that end with a line end, and of what comes after them. -/
theorem decode_append {front : List UInt8} (h : front = [] ∨ front.getLast? = some 0x0A) :
    (decode front = [] ∨ (decode front).getLast? = some '\n') ∧
      ∀ back, decode (front ++ back) = decode front ++ decode back := by
  rcases h with rfl | hlast
  · exact ⟨.inl rfl, fun _ ↦ rfl⟩
  · obtain ⟨before, rfl⟩ := List.getLast?_eq_some_iff.mp hlast
    obtain ⟨text, htext⟩ := @exists_decodeFrom_append none (by simp) before
    have hfront : decode (before ++ [0x0A]) = text ++ ['\n'] := htext []
    rw [hfront]
    refine ⟨.inr (by simp), fun back ↦ ?_⟩
    rw [List.append_assoc, List.singleton_append, List.append_assoc]
    exact htext back

end OrderFile.Utf8
