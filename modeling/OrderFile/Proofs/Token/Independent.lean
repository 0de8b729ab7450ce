import OrderFile.Proofs.Token.Shifted

/-!
Lines on their own. What stands on a line is cut without regard to the lines before and after it, so
a quote that is not closed, a comment or a bad number stays on its line: `scan_append_line`.
-/

set_option autoImplicit false

namespace OrderFile.Token

section

variable {b : List Char}

theorem shift_shift (m n : UInt32) (t : Token) : (t.shift m).shift n = t.shift (m + n) := by
  rw [shift, shift, shift, UInt32.add_assoc]

/-- If there is text, it makes no difference to its tokens whether a line end comes before it. -/
theorem scanFrom_of_ne_nil (h : b ≠ []) (n : UInt32) (closed : Bool) :
    scanFrom n closed b = scanFrom n false b := by
  obtain ⟨c, text, rfl⟩ := List.exists_cons_of_ne_nil h
  rw [scanFrom, scanFrom]

/-- Tokens that are moved down are on the lines that one counts, as long as these can be counted. -/
theorem toNat_line_shift {m : Nat} {t : Token} (ht : t ∈ scan b)
    (h : m + b.count '\n' < 2 ^ 32 - 1) :
    (t.shift (UInt32.ofNat m)).line.toNat = t.line.toNat + m := by
  obtain ⟨k, hk, hline⟩ := line_of_mem_scanFrom ht
  have hone : (1 : UInt32).toNat = 1 := rfl
  simp only [shift_line, hline, UInt32.toNat_add, UInt32.toNat_ofNat', hone]
  omega

/-- The tokens of whole lines are those that stay when more text comes after them, and an end. -/
theorem exists_scan_append (a : List Char) :
    ∃ front last, last.kind = .eof ∧ scan (a ++ ['\n']) = front ++ [last] ∧ ∀ b ≠ [],
      scan (a ++ '\n' :: b) = front ++ (scan b).map (shift (UInt32.ofNat (1 + a.count '\n'))) := by
  obtain ⟨front, -, hfront⟩ := exists_scanFrom_append 1 false a
  refine ⟨front, eof (1 + UInt32.ofNat (a.count '\n' + 1)), rfl, ?_, fun b hb ↦ ?_⟩
  · rw [scan, hfront, scanFrom, if_pos rfl]
  · rw [scan, hfront, scanFrom_of_ne_nil hb, scanFrom_shift, Nat.add_comm, scan]

end

/-- The tokens of two texts with a line end between them are those of the first one and its line
end, which do not depend on the second one, and those of the second one on the lines where it
stands. So a line between the two adds its own tokens, and whatever it holds, the tokens before and
after it are the same. -/
theorem scan_append_line (a : List Char) :
    ∃ front last, last.kind = .eof ∧ scan (a ++ ['\n']) = front ++ [last] ∧
      ∀ b ≠ [], (a ++ '\n' :: b).count '\n' < 2 ^ 32 - 1 →
        scan (a ++ '\n' :: b) =
          front ++ (scan b).map (shift (UInt32.ofNat (1 + a.count '\n'))) ∧
        (∀ t ∈ scan b, (t.shift (UInt32.ofNat (1 + a.count '\n'))).line.toNat =
          t.line.toNat + (1 + a.count '\n')) ∧
        ∀ line, '\n' ∉ line → ∃ own lineLast, lineLast.kind = .eof ∧
          scan (line ++ ['\n']) = own ++ [lineLast] ∧
          scan (a ++ '\n' :: (line ++ '\n' :: b)) =
            front ++ own.map (shift (UInt32.ofNat (1 + a.count '\n'))) ++
              (scan b).map (shift (UInt32.ofNat (2 + a.count '\n'))) := by
  obtain ⟨front, last, hlast, hfront, happend⟩ := exists_scan_append a
  refine ⟨front, last, hlast, hfront, fun b hb hcount ↦ ⟨happend b hb, fun t ht ↦ ?_,
    fun line hline ↦ ?_⟩⟩
  · rw [List.count_append, List.count_cons_self] at hcount
    exact toNat_line_shift ht (by omega)
  · obtain ⟨own, lineLast, hlineLast, hown, hnext⟩ := exists_scan_append line
    refine ⟨own, lineLast, hlineLast, hown, ?_⟩
    have hlines : UInt32.ofNat (1 + line.count '\n') + UInt32.ofNat (1 + a.count '\n') =
        UInt32.ofNat (2 + a.count '\n') := by
      rw [List.count_eq_zero.mpr hline, ← UInt32.ofNat_add]
      congr 1
      omega
    rw [happend _ (by simp), hnext b hb, List.map_append, List.map_map, ← List.append_assoc]
    simp only [Function.comp_def, shift_shift, hlines]

/-- A line with a quote that is not closed. -/
def openQuote : List Char :=
  "name 7 \"old".toList

/-- The quote takes no part of the next line. -/
theorem scan_append_line_openQuote :
    scan (openQuote ++ '\n' :: "survey 5".toList) = (scan (openQuote ++ ['\n'])).dropLast ++
      [⟨2, .text, "survey", .text "survey"⟩, ⟨2, .spaces, " ", .none⟩,
        ⟨2, .integer, "5", .integer 5⟩, impliedEol 2, eof 2] := by
  obtain ⟨front, last, -, hfront, happend⟩ := scan_append_line openQuote
  have hnext : (scan "survey 5".toList).map (shift (UInt32.ofNat (1 + openQuote.count '\n'))) =
      [⟨2, .text, "survey", .text "survey"⟩, ⟨2, .spaces, " ", .none⟩,
        ⟨2, .integer, "5", .integer 5⟩, impliedEol 2, eof 2] := by decide +kernel
  obtain ⟨hboth, -⟩ := happend "survey 5".toList (by decide) (by decide)
  rw [hboth, hnext, hfront, List.dropLast_concat]

end OrderFile.Token
