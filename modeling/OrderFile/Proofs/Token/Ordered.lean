import OrderFile.Proofs.Token.Respaced
import OrderFile.Proofs.Token.Shifted

/-!
Tokens in the order of their lines. The tokens of a text stand on lines that never decrease, and
what comes after a line end stands on a later line, unless the file ends there:
`pairwise_prepare_scan`. So a parse that is at a token is on no earlier line than a parse before it.
-/

set_option autoImplicit false

namespace OrderFile.Token

/-- The second token stands on no earlier line, and on a later one if the first one ends a line and
the second is not the end of the file. -/
def Later (s t : Token) : Prop :=
  s.line ≤ t.line ∧ (s.kind = .eol → t.kind ≠ .eof → s.line < t.line)

/-- Tokens on one line come in order if the first one does not end it. -/
theorem Later.of_line_eq {s t : Token} (h : s.line = t.line) (hs : s.kind ≠ .eol) : Later s t :=
  ⟨UInt32.le_of_eq h, fun heol ↦ absurd heol hs⟩

theorem Later.of_line_lt {s t : Token} (h : s.line < t.line) : Later s t :=
  ⟨UInt32.le_of_lt h, fun _ _ ↦ h⟩

/-- The tokens of one line come in order. -/
theorem pairwise_lineTokens {line : UInt32} {text : List Char} (h : '\n' ∉ text) :
    (lineTokens line text).Pairwise Later := by
  refine List.pairwise_of_forall_mem_list fun s hs t ht ↦ ?_
  obtain ⟨hnumber, heol, -⟩ := lineTokens_spec h s hs
  exact .of_line_eq (hnumber.trans (lineTokens_spec h t ht).1.symm) heol

/-- The tokens of a line, and then tokens that are on the same line or on later ones. -/
theorem pairwise_line {line : UInt32} {text : List Char} {ts : List Token} (h : '\n' ∉ text)
    (hts : ts.Pairwise Later) (hline : ∀ t ∈ ts, line ≤ t.line) :
    (lineTokens line text ++ ts).Pairwise Later := by
  refine List.pairwise_append.mpr ⟨pairwise_lineTokens h, hts, fun s hs t ht ↦ ?_⟩
  obtain ⟨hnumber, heol, -⟩ := lineTokens_spec h s hs
  exact ⟨hnumber ▸ hline t ht, fun hend ↦ absurd hend heol⟩

/-- Lines are counted upwards as long as the count does not overflow. -/
theorem pairwise_scanFrom {n : Nat} {text : List Char} (hn : n + text.count '\n' < 2 ^ 32)
    (closed : Bool) : (scanFrom (UInt32.ofNat n) closed text).Pairwise Later := by
  have hsmall (m : Nat) (hm : m < 2 ^ 32) : (UInt32.ofNat m).toNat = m :=
    UInt32.toNat_ofNat_of_lt hm
  induction text using induction_lines generalizing n closed with
  | last text hline =>
    rw [scanFrom_last hline]
    split
    · exact pairwise_line hline (List.pairwise_singleton _ _) (by simp [eof])
    · refine pairwise_line hline (List.pairwise_pair.mpr ?_) (by simp [eof, impliedEol])
      exact ⟨UInt32.le_refl _, fun _ heof ↦ absurd rfl heof⟩
  | line front back hfront ih =>
    rw [count_newline_line hfront] at hn
    have hnext : UInt32.ofNat n + 1 = UInt32.ofNat (n + 1) := (UInt32.ofNat_add n 1).symm
    -- What comes after the line is on a later line, since its number does not overflow.
    have hlater : ∀ t ∈ scanFrom (UInt32.ofNat n + 1) true back, UInt32.ofNat n < t.line := by
      intro t ht
      obtain ⟨k, hk, hnumber⟩ := line_of_mem_scanFrom ht
      rw [hnumber, hnext, ← UInt32.ofNat_add, UInt32.lt_iff_toNat_lt, hsmall n (by omega),
        hsmall (n + 1 + k) (by omega)]
      omega
    rw [scanFrom_line hfront]
    refine pairwise_line hfront (List.pairwise_cons.mpr ⟨fun t ht ↦ ?_, ?_⟩) ?_
    · exact .of_line_lt (hlater t ht)
    · rw [hnext]
      exact ih (by omega) true
    · exact List.forall_mem_cons.mpr
        ⟨UInt32.le_refl _, fun t ht ↦ UInt32.le_of_lt (hlater t ht)⟩

/-- The prepared tokens of a text come in the order of their lines. -/
theorem pairwise_prepare_scan {text : List Char} (h : text.count '\n' < 2 ^ 32 - 1) :
    (prepare (scan text)).Pairwise Later := by
  have hscan : (scan text).Pairwise Later := @pairwise_scanFrom 1 text (by omega) false
  exact hscan.sublist (prepare_sublist _)

/-! ### Lines of tokens -/

/-- What comes before a line is on earlier lines. -/
theorem line_lt_of_endsLine {front rest : List Token} {t : Token} (hends : EndsLine front)
    (h : (front ++ t :: rest).Pairwise Later) (ht : t.kind ≠ .eof) :
    ∀ s ∈ front, s.line < t.line := by
  obtain ⟨before, e, rfl, he⟩ := hends
  obtain ⟨hfront, -, hacross⟩ := List.pairwise_append.mp h
  have hlast : e.line < t.line :=
    (hacross e (List.mem_append_right _ (List.mem_singleton_self e)) t List.mem_cons_self).2 he ht
  intro s hs
  rcases List.mem_append.mp hs with hbefore | hend
  · have hle := (List.pairwise_append.mp hfront).2.2 s hbefore e (List.mem_singleton_self e)
    exact UInt32.lt_of_le_of_lt hle.1 hlast
  · rwa [List.mem_singleton.mp hend]

/-- Tokens up to a line end are all on one line. -/
theorem line_eq_of_isChain {front : List Token} {e : Token}
    (h : (front ++ [e]).IsChain Follows) (hfront : ∀ s ∈ front, s.kind ≠ .eol) :
    ∀ s ∈ front ++ [e], s.line = e.line := by
  induction front with
  | nil => simp
  | cons s front ih =>
    obtain ⟨hs, hothers⟩ := List.forall_mem_cons.mp hfront
    obtain ⟨hnext, hchain⟩ := List.isChain_cons.mp h
    have hrest := ih hchain hothers
    refine List.forall_mem_cons.mpr ⟨?_, hrest⟩
    cases front with
    | nil => exact ((hnext e rfl).2 hs).symm
    | cons t front => exact ((hnext t rfl).2 hs).symm.trans (hrest t List.mem_cons_self)

end OrderFile.Token
