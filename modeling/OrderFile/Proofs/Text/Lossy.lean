import Mathlib.Algebra.Group.Nat.Defs
import Mathlib.Tactic.ByContra
import OrderFile.Proofs.Text.Encoded

/-!
What the text of bytes is that are not all text. Where no character is at the front of the bytes, as
many of them are replaced as could start one, and one if none could (`Lossy`). Reading byte by byte
comes to this text and no other: `lossy_iff`.
-/

set_option autoImplicit false

namespace OrderFile.Utf8

open String (utf8EncodeChar)

/-- Whether the bytes of some character start with these. -/
def StartsChar (part : List UInt8) : Prop :=
  ∃ c, part <+: utf8EncodeChar c

/-- A front of some bytes that could be replaced: one byte, or some that start a character. -/
structure IsSubpart (part bytes : List UInt8) : Prop where
  front : part <+: bytes
  ne_nil : part ≠ []
  single_or_start : part.length = 1 ∨ StartsChar part

/-- What is replaced in bytes that do not start with a whole character. -/
structure IsReplaced (part bytes : List UInt8) : Prop where
  no_char : ∀ c, ¬ utf8EncodeChar c <+: bytes
  subpart : IsSubpart part bytes
  longest : ∀ other, IsSubpart other bytes → other.length ≤ part.length

/-- The text of bytes: the characters whose bytes they are, and one replacement character for each
front that is replaced. -/
inductive Lossy : List UInt8 → List Char → Prop
  | nil : Lossy [] []
  | char (c : Char) {bytes : List UInt8} {text : List Char} (h : Lossy bytes text) :
    Lossy (utf8EncodeChar c ++ bytes) (c :: text)
  | replaced {part bytes : List UInt8} {text : List Char} (hpart : IsReplaced part (part ++ bytes))
    (h : Lossy bytes text) : Lossy (part ++ bytes) (replacement :: text)

/-! ### Characters as bytes -/

/-- The bytes of a character are read as this character. -/
theorem decode_encode (c : Char) : decode (utf8EncodeChar c) = [c] := by
  have h := decode_utf8EncodeChar c []
  rwa [List.append_nil] at h

/-- A byte that starts nothing is replaced. -/
theorem step_of_lead? {b : UInt8} (hb : ¬ b ≤ 0x7F) (h : lead? b = none) :
    step none b = ([replacement], none) := by
  rw [step, begin, if_neg hb, h]

/-- A byte that does not go on with a character ends it. -/
theorem step_outside {p : Pending} {b : UInt8} (h : ¬ (p.low ≤ b ∧ b ≤ p.high)) :
    step (some p) b = (replacement :: (begin b).1, (begin b).2) :=
  if_neg h

/-- No byte is lost without a character for it. -/
theorem isSome_step {pending : Option Pending} {b : UInt8} (h : (step pending b).1 = []) :
    (step pending b).2.isSome = true := by
  have hbegin (hnone : (begin b).1 = []) : (begin b).2.isSome = true := by
    unfold begin at hnone ⊢
    split at hnone
    · cases hnone
    · next hb =>
      rw [if_neg hb]
      cases hlead : lead? b with
      | none => simp [hlead] at hnone
      | some p => rfl
  cases pending with
  | none => exact hbegin h
  | some p =>
    rw [step] at h ⊢
    split at h
    · next hrange =>
      rw [if_pos hrange]
      cases hmore : p.more with
      | zero => simp [hmore] at h
      | succ n => rfl
    · cases h

/-- Where there are bytes, or some are pending, there is text. -/
theorem decodeFrom_ne_nil {pending : Option Pending} {bytes : List UInt8}
    (h : pending.isSome = true ∨ bytes ≠ []) : decodeFrom pending bytes ≠ [] := by
  induction bytes generalizing pending with
  | nil =>
    obtain ⟨p, rfl⟩ := Option.isSome_iff_exists.mp (h.resolve_right (· rfl))
    simp [decodeFrom]
  | cons b bytes ih =>
    rw [decodeFrom_of_step rfl]
    intro hnil
    obtain ⟨hstep, hrest⟩ := List.append_eq_nil_iff.mp hnil
    exact ih (.inl (isSome_step hstep)) hrest

theorem decode_eq_nil_iff {bytes : List UInt8} : decode bytes = [] ↔ bytes = [] := by
  refine ⟨fun h ↦ ?_, fun h ↦ h ▸ rfl⟩
  by_contra hne
  exact decodeFrom_ne_nil (.inr hne) h

theorem encode_ne_nil (c : Char) : utf8EncodeChar c ≠ [] := by
  intro hnil
  have h := decode_encode c
  rw [hnil] at h
  cases h

/-- The bytes of no character start those of another one. -/
theorem encode_inj_of_prefix {c d : Char} (h : utf8EncodeChar c <+: utf8EncodeChar d) : c = d := by
  obtain ⟨after, hafter⟩ := h
  have hboth := decode_encode d
  rw [← hafter, decode_utf8EncodeChar] at hboth
  exact (List.cons.inj hboth).1

/-- What starts a start of a character starts a character. -/
theorem StartsChar.of_prefix {part other : List UInt8} (h : StartsChar other)
    (hpart : part <+: other) : StartsChar part := by
  obtain ⟨c, hc⟩ := h
  exact ⟨c, hpart.trans hc⟩

/-- Bytes after which no more could start a character are replaced. -/
theorem isReplaced_of_stop {part rest : List UInt8} (hne : part ≠ [])
    (hpart : part.length = 1 ∨ StartsChar part) (hnone : ∀ c, ¬ utf8EncodeChar c <+: part)
    (hstop : ∀ b after, rest = b :: after → ¬ StartsChar (part ++ [b])) :
    IsReplaced part (part ++ rest) := by
  -- What goes on after the part has the next byte in it.
  have hlonger {other : List UInt8} (hother : other <+: part ++ rest) (hstart : StartsChar other)
      (hfront : part <+: other) : other = part := by
    obtain ⟨more, rfl⟩ := hfront
    cases more with
    | nil => exact List.append_nil part
    | cons b more =>
      obtain ⟨after, hafter⟩ := (List.prefix_append_right_inj part).mp hother
      refine absurd (hstart.of_prefix ?_) (hstop b (more ++ after) hafter.symm)
      exact (List.prefix_append_right_inj part).mpr (List.prefix_append [b] more)
  refine ⟨fun c hc ↦ ?_, ⟨List.prefix_append .., hne, hpart⟩, fun other hother ↦ ?_⟩
  · rcases List.prefix_or_prefix_of_prefix hc (List.prefix_append part rest) with hshort | hlong
    · exact hnone c hshort
    · exact hnone c (hlonger hc ⟨c, List.prefix_rfl⟩ hlong ▸ List.prefix_rfl)
  · rcases List.prefix_or_prefix_of_prefix hother.front (List.prefix_append part rest) with
      hshort | hlong
    · exact hshort.length_le
    · rcases hother.single_or_start with hone | hstart
      · have hpos := List.length_pos_iff.mpr hne
        omega
      · exact Nat.le_of_eq (congrArg List.length (hlonger hother.front hstart hlong))

/-- Only one front of bytes is replaced. -/
theorem IsReplaced.unique {part other bytes : List UInt8} (h : IsReplaced part bytes)
    (hother : IsReplaced other bytes) : part = other := by
  have hle := hother.longest part h.subpart
  have hfront := List.prefix_of_prefix_length_le h.subpart.front hother.subpart.front hle
  exact hfront.eq_of_length (Nat.le_antisymm hle (h.longest other hother.subpart))

/-! ### First bytes of characters -/

/-- The byte of a character that holds some six bits of its code point. -/
def continuation (bits : Nat) : UInt8 :=
  UInt8.ofNat (bits % 64 + 128)

/-- The last bytes of a character: one, and some more before it. -/
def ending : Nat → Nat → List UInt8
  | 0, v => [continuation v]
  | more + 1, v => continuation (v / 64 ^ (more + 1)) :: ending more v

theorem ending_ne_nil (more v : Nat) : ending more v ≠ [] := by
  cases more <;> exact List.cons_ne_nil _ _

theorem toNat_ofNat {v : Nat} (h : v.isValidChar) : (Char.ofNat v).toNat = v := by
  rw [Char.ofNat, dif_pos h]
  rfl

theorem encode_one {v : Nat} (h : v ≤ 0x7F) :
    utf8EncodeChar (Char.ofNat v) = [UInt8.ofNat v] := by
  rw [utf8EncodeChar, ← Char.toNat, toNat_ofNat (.inl (by omega)), if_pos h]

/-- The characters from `0x80` to `0x7FF` take two bytes. -/
theorem encode_two {v : Nat} (hlow : 0x80 ≤ v) (hhigh : v ≤ 0x7FF) :
    utf8EncodeChar (Char.ofNat v) = UInt8.ofNat (v / 64 + 192) :: ending 0 v := by
  rw [utf8EncodeChar, ← Char.toNat, toNat_ofNat (.inl (by omega)), if_neg (by omega),
    if_pos hhigh, Nat.mod_eq_of_lt (by omega)]
  rfl

/-- The characters from `0x800` to `0xFFFF` take three bytes. -/
theorem encode_three {v : Nat} (hlow : 0x800 ≤ v) (hhigh : v ≤ 0xFFFF) (h : v.isValidChar) :
    utf8EncodeChar (Char.ofNat v) = UInt8.ofNat (v / 4096 + 224) :: ending 1 v := by
  rw [utf8EncodeChar, ← Char.toNat, toNat_ofNat h, if_neg (by omega), if_neg (by omega),
    if_pos hhigh, Nat.mod_eq_of_lt (by omega)]
  rfl

/-- The characters from `0x10000` on take four bytes. -/
theorem encode_four {v : Nat} (hlow : 0x10000 ≤ v) (hhigh : v < 0x110000) :
    utf8EncodeChar (Char.ofNat v) = UInt8.ofNat (v / 262144 + 240) :: ending 2 v := by
  rw [utf8EncodeChar, ← Char.toNat, toNat_ofNat (.inr ⟨by omega, hhigh⟩), if_neg (by omega),
    if_neg (by omega), if_neg (by omega), Nat.mod_eq_of_lt (by omega)]
  rfl

/-- Whether some bytes start just those characters that a pending one may become: all with the bits
read so far and a next byte within the bounds. -/
structure Completes (part : List UInt8) (p : Pending) : Prop where
  low : 0x80 ≤ p.low.toNat
  ordered : p.low.toNat ≤ p.high.toNat
  high : p.high.toNat ≤ 0xBF
  encode : ∀ v, v / 64 ^ (p.more + 1) = p.bits →
    p.low.toNat ≤ v / 64 ^ p.more % 64 + 128 → v / 64 ^ p.more % 64 + 128 ≤ p.high.toNat →
      utf8EncodeChar (Char.ofNat v) = part ++ ending p.more v

section

variable {b low high : UInt8} {part : List UInt8} {p : Pending}

theorem completes_two (hb : 0xC2 ≤ b.toNat ∧ b.toNat ≤ 0xDF) :
    Completes [b] ⟨0, 0x80, 0xBF, b.toNat % 32⟩ where
  low := Nat.le_refl _
  ordered := by simp
  high := Nat.le_refl _
  encode v hbits _ _ := by
    dsimp only at hbits
    have hfirst : v / 64 + 192 = b.toNat := by omega
    rw [encode_two (by omega) (by omega), hfirst, UInt8.ofNat_toNat]
    rfl

/-- The bounds of the second byte leave out overlong forms and surrogates. -/
theorem completes_three (hb : 0xE0 ≤ b.toNat ∧ b.toNat ≤ 0xEF)
    (hbounds : 0x80 ≤ low.toNat ∧ low.toNat ≤ high.toNat ∧ high.toNat ≤ 0xBF)
    (hlong : b = 0xE0 → 0xA0 ≤ low.toNat) (hpair : b = 0xED → high.toNat ≤ 0x9F) :
    Completes [b] ⟨1, low, high, b.toNat % 16⟩ where
  low := hbounds.1
  ordered := hbounds.2.1
  high := hbounds.2.2
  encode v hbits hfrom hto := by
    have hlong' : b.toNat = 0xE0 → 0xA0 ≤ low.toNat := fun h ↦ hlong (UInt8.toNat_inj.mp h)
    have hpair' : b.toNat = 0xED → high.toNat ≤ 0x9F := fun h ↦ hpair (UInt8.toNat_inj.mp h)
    dsimp only at hbits hfrom hto
    have hfirst : v / 4096 + 224 = b.toNat := by omega
    have hvalid : v.isValidChar := by
      by_cases hsurrogate : v < 0xD800
      · exact .inl hsurrogate
      · exact .inr ⟨by omega, by omega⟩
    rw [encode_three (by omega) (by omega) hvalid, hfirst, UInt8.ofNat_toNat]
    rfl

/-- The bounds of the second byte leave out overlong forms and code points that are too large. -/
theorem completes_four (hb : 0xF0 ≤ b.toNat ∧ b.toNat ≤ 0xF4)
    (hbounds : 0x80 ≤ low.toNat ∧ low.toNat ≤ high.toNat ∧ high.toNat ≤ 0xBF)
    (hlong : b = 0xF0 → 0x90 ≤ low.toNat) (hlast : b = 0xF4 → high.toNat ≤ 0x8F) :
    Completes [b] ⟨2, low, high, b.toNat % 8⟩ where
  low := hbounds.1
  ordered := hbounds.2.1
  high := hbounds.2.2
  encode v hbits hfrom hto := by
    have hlong' : b.toNat = 0xF0 → 0x90 ≤ low.toNat := fun h ↦ hlong (UInt8.toNat_inj.mp h)
    have hlast' : b.toNat = 0xF4 → high.toNat ≤ 0x8F := fun h ↦ hlast (UInt8.toNat_inj.mp h)
    dsimp only at hbits hfrom hto
    have hfirst : v / 262144 + 240 = b.toNat := by omega
    rw [encode_four (by omega) (by omega), hfirst, UInt8.ofNat_toNat]
    rfl

/-- What a lead byte leaves pending is completed by the bytes that it asks for. -/
theorem completes_of_lead? (h : lead? b = some p) : Completes [b] p := by
  unfold lead? at h
  simp only [UInt8.le_iff_toNat_le, UInt8.reduceToNat] at h
  split at h
  · next hb =>
    cases h
    exact completes_two hb
  split at h
  · next hb =>
    cases h
    subst hb
    exact completes_three (b := 0xE0) (by decide) (by decide) (by decide) (by decide)
  next hE0 =>
  split at h
  · next hb =>
    cases h
    subst hb
    exact completes_three (b := 0xED) (by decide) (by decide) (by decide) (by decide)
  next hED =>
  split at h
  · next hb =>
    cases h
    exact completes_three (by omega) (by decide) (absurd · hE0) (absurd · hED)
  split at h
  · next hb =>
    cases h
    subst hb
    exact completes_four (b := 0xF0) (by decide) (by decide) (by decide) (by decide)
  next hF0 =>
  split at h
  · next hb =>
    cases h
    refine completes_four (by omega) (by decide) (absurd · hF0) ?_
    rintro rfl
    exact absurd hb (by decide)
  split at h
  · next hb =>
    cases h
    subst hb
    exact completes_four (b := 0xF4) (by decide) (by decide) (by decide) (by decide)
  · cases h

/-- A character may be completed in some way. -/
theorem Completes.exists_encode (h : Completes part p) :
    ∃ c after, after ≠ [] ∧ utf8EncodeChar c = part ++ after := by
  have hlow := h.low
  have hordered := h.ordered
  have hhigh := h.high
  have hnext : (p.bits * 64 + (p.low.toNat - 128)) * 64 ^ p.more / 64 ^ p.more =
      p.bits * 64 + (p.low.toNat - 128) := Nat.mul_div_cancel _ (Nat.pow_pos (by decide))
  refine ⟨_, _, ending_ne_nil _ _,
    h.encode ((p.bits * 64 + (p.low.toNat - 128)) * 64 ^ p.more) ?_ ?_ ?_⟩
  · rw [Nat.pow_succ, ← Nat.div_div_eq_div_mul, hnext]
    omega
  · rw [hnext]
    omega
  · rw [hnext]
    omega

/-- A byte within the bounds of a pending character holds six bits of it. -/
theorem Completes.continuation_eq (h : Completes part p) (hlow : p.low ≤ b) (hhigh : b ≤ p.high)
    {n : Nat} (hn : n % 64 = b.toNat % 64) :
    continuation n = b ∧ p.low.toNat ≤ n % 64 + 128 ∧ n % 64 + 128 ≤ p.high.toNat := by
  have hpart := h.low
  have hend := h.high
  rw [UInt8.le_iff_toNat_le] at hlow hhigh
  have hb : n % 64 + 128 = b.toNat := by omega
  rw [continuation, hb, UInt8.ofNat_toNat]
  exact ⟨rfl, hlow, hhigh⟩

/-- The last byte of a character. -/
theorem Completes.last {bits : Nat} (h : Completes part ⟨0, low, high, bits⟩) (hlow : low ≤ b)
    (hhigh : b ≤ high) :
    utf8EncodeChar (Char.ofNat (bits * 64 + b.toNat % 64)) = part ++ [b] := by
  obtain ⟨hbyte, hfrom, hto⟩ :=
    @Completes.continuation_eq _ _ _ h hlow hhigh (bits * 64 + b.toNat % 64) (by omega)
  rw [h.encode (bits * 64 + b.toNat % 64) (by dsimp only; omega) (by simpa using hfrom)
    (by simpa using hto), ending, hbyte]

/-- A byte of a character before the last one. -/
theorem Completes.next {more bits : Nat} (h : Completes part ⟨more + 1, low, high, bits⟩)
    (hlow : low ≤ b) (hhigh : b ≤ high) :
    Completes (part ++ [b]) ⟨more, 0x80, 0xBF, bits * 64 + b.toNat % 64⟩ where
  low := Nat.le_refl _
  ordered := by simp
  high := Nat.le_refl _
  encode v hbits _ _ := by
    dsimp only at hbits
    obtain ⟨hbyte, hfrom, hto⟩ :=
      @Completes.continuation_eq _ _ _ h hlow hhigh (v / 64 ^ (more + 1)) (by omega)
    have hfront : v / 64 ^ (more + 1 + 1) = bits := by
      rw [Nat.pow_succ, ← Nat.div_div_eq_div_mul, hbits]
      omega
    rw [h.encode v hfront hfrom hto, ending, hbyte, List.append_assoc]
    rfl

end

/-! ### Reading bytes that are no text -/

section

variable {b : UInt8} {part rest : List UInt8} {p : Pending}

/-- Bytes that leave a character pending, and are replaced if no byte goes on with it. -/
structure Opens (part : List UInt8) (p : Pending) : Prop where
  ne_nil : part ≠ []
  completes : Completes part p
  reads : ∀ rest, decode (part ++ rest) = decodeFrom (some p) rest

/-- A lead byte opens a character of several bytes. -/
theorem opens_of_lead? (hb : ¬ b ≤ 0x7F) (h : lead? b = some p) : Opens [b] p where
  ne_nil := List.cons_ne_nil _ _
  completes := completes_of_lead? h
  reads rest := by
    have hbegin : step none b = ([], some p) := by rw [step, begin, if_neg hb, h]
    rw [decode, List.singleton_append, decodeFrom_of_step hbegin, List.nil_append]

/-- Where an open character is not gone on with, what there is of it is replaced. -/
theorem Opens.isReplaced (h : Opens part p)
    (hstop : ∀ b after, rest = b :: after → ¬ (p.low ≤ b ∧ b ≤ p.high)) :
    IsReplaced part (part ++ rest) := by
  obtain ⟨d, after, hafter, hd⟩ := h.completes.exists_encode
  refine isReplaced_of_stop h.ne_nil (.inr ⟨d, hd ▸ List.prefix_append ..⟩) (fun c hc ↦ ?_) ?_
  · have hboth : utf8EncodeChar c <+: utf8EncodeChar d := hd ▸ hc.trans (List.prefix_append ..)
    obtain rfl := encode_inj_of_prefix hboth
    have hlength := hc.length_le
    rw [hd, List.length_append] at hlength
    have hpos := List.length_pos_iff.mpr hafter
    omega
  · rintro b other hrest ⟨c, more, hc⟩
    have hread := decode_encode c
    rw [← hc, List.append_assoc, h.reads, List.singleton_append,
      decodeFrom_of_step (step_outside (hstop b other hrest)), List.cons_append] at hread
    have hnil : decode (b :: more) = [] := (List.cons.inj hread).2
    exact absurd (decode_eq_nil_iff.mp hnil) (List.cons_ne_nil _ _)

/-- Whether bytes start with those of a character, or with some that are read as one replacement. -/
def Front (bytes : List UInt8) : Prop :=
  (∃ c after, bytes = utf8EncodeChar c ++ after) ∨
    ∃ part after, bytes = part ++ after ∧ IsReplaced part (part ++ after) ∧
      decode (part ++ after) = replacement :: decode after

/-- Bytes with an open character in front either start with a character or with bytes to be
replaced. -/
theorem Opens.front (h : Opens part p) (rest : List UInt8) : Front (part ++ rest) := by
  induction rest generalizing part p with
  | nil =>
    refine .inr ⟨part, [], rfl, h.isReplaced ?_, ?_⟩
    · rintro _ _ ⟨⟩
    · rw [h.reads]
      rfl
  | cons b rest ih =>
    by_cases hrange : p.low ≤ b ∧ b ≤ p.high
    · obtain ⟨more, low, high, bits⟩ := p
      cases more with
      | zero =>
        refine .inl ⟨Char.ofNat (bits * 64 + b.toNat % 64), rest, ?_⟩
        rw [h.completes.last hrange.1 hrange.2, List.append_assoc, List.singleton_append]
      | succ more =>
        have hstep : step (some ⟨more + 1, low, high, bits⟩) b =
            ([], some ⟨more, 0x80, 0xBF, bits * 64 + b.toNat % 64⟩) := if_pos hrange
        have hnext : Opens (part ++ [b]) ⟨more, 0x80, 0xBF, bits * 64 + b.toNat % 64⟩ :=
          { ne_nil := by simp
            completes := h.completes.next hrange.1 hrange.2
            reads after := by
              rw [List.append_assoc, h.reads, List.singleton_append, decodeFrom_of_step hstep,
                List.nil_append] }
        rw [List.append_cons]
        exact ih hnext
    · refine .inr ⟨part, b :: rest, rfl, h.isReplaced ?_, ?_⟩
      · rintro _ _ ⟨⟩
        exact hrange
      · rw [h.reads, decodeFrom_of_step (step_outside hrange)]
        rfl

/-- A byte with which no character starts. -/
theorem not_startsChar (hb : ¬ b ≤ 0x7F) (h : lead? b = none) : ¬ StartsChar [b] := by
  rintro ⟨c, after, hc⟩
  have hread := decode_encode c
  rw [← hc, decode, List.singleton_append, decodeFrom_of_step (step_of_lead? hb h)] at hread
  obtain ⟨rfl, hnil⟩ := List.cons.inj hread
  rw [decode_eq_nil_iff.mp hnil] at hc
  have hthree : (utf8EncodeChar replacement).length = 3 := by decide
  rw [← hc] at hthree
  cases hthree

/-- Any bytes start with a character or with some that are replaced. -/
theorem front_cons (b : UInt8) (rest : List UInt8) : Front (b :: rest) := by
  by_cases hb : b ≤ 0x7F
  · refine .inl ⟨Char.ofNat b.toNat, rest, ?_⟩
    rw [encode_one (UInt8.le_iff_toNat_le.mp hb), UInt8.ofNat_toNat, List.singleton_append]
  · cases hlead : lead? b with
    | some p => exact (opens_of_lead? hb hlead).front rest
    | none =>
      have hnone := not_startsChar hb hlead
      refine .inr ⟨[b], rest, rfl, isReplaced_of_stop (List.cons_ne_nil _ _) (.inl rfl) ?_ ?_, ?_⟩
      · intro c hc
        have hwhole : utf8EncodeChar c = [b] := hc.eq_of_length_le
          (List.length_pos_iff.mpr (encode_ne_nil c))
        exact hnone ⟨c, hwhole ▸ List.prefix_rfl⟩
      · exact fun _ _ _ hstart ↦ hnone (hstart.of_prefix (List.prefix_append ..))
      · rw [List.singleton_append, decode, decodeFrom_of_step (step_of_lead? hb hlead)]
        rfl

end

/-! ### The text of bytes -/

/-- Reading bytes comes to their text, with each part that is no text replaced. -/
theorem lossy_decode (bytes : List UInt8) : Lossy bytes (decode bytes) := by
  cases bytes with
  | nil => exact .nil
  | cons b rest =>
    obtain ⟨c, after, hbytes⟩ | ⟨part, after, hbytes, hpart, hread⟩ := front_cons b rest
    · have hshorter : after.length < (b :: rest).length := by
        have hpos := List.length_pos_iff.mpr (encode_ne_nil c)
        rw [hbytes, List.length_append]
        omega
      rw [hbytes, decode_utf8EncodeChar]
      exact .char c (lossy_decode after)
    · have hshorter : after.length < (b :: rest).length := by
        have hpos := List.length_pos_iff.mpr hpart.subpart.ne_nil
        rw [hbytes, List.length_append]
        omega
      rw [hbytes, hread]
      exact .replaced hpart (lossy_decode after)
termination_by bytes.length
decreasing_by all_goals exact hshorter

/-- The text of bytes is the one that is read, and no other. -/
theorem lossy_iff {bytes : List UInt8} {text : List Char} :
    Lossy bytes text ↔ text = decode bytes := by
  refine ⟨fun h ↦ ?_, fun h ↦ h ▸ lossy_decode bytes⟩
  induction h with
  | nil => rfl
  | char c _ ih => rw [decode_utf8EncodeChar, ih]
  | @replaced part bytes text hpart _ ih =>
    obtain ⟨b, other, hfirst⟩ := List.exists_cons_of_ne_nil hpart.subpart.ne_nil
    obtain ⟨c, after, hbytes⟩ | ⟨same, after, hbytes, hsame, hread⟩ :=
      front_cons b (other ++ bytes)
    · rw [← List.cons_append, ← hfirst] at hbytes
      exact absurd (hbytes ▸ List.prefix_append ..) (hpart.no_char c)
    · rw [← List.cons_append, ← hfirst] at hbytes
      obtain rfl := hpart.unique (hbytes ▸ hsame)
      obtain rfl := List.append_cancel_left hbytes
      rw [hread, ih]

/-- The first two of three bytes are one replacement, and a byte that starts nothing is another. -/
example : decode [0xE2, 0x82, 0x41, 0xFF] = [replacement, 'A', replacement] := by decide

end OrderFile.Utf8
