import OrderFile.Proofs.Reading.Rejected
import OrderFile.Proofs.Text.Newlines
import OrderFile.Proofs.Token.Ordered

/-!
The line of a rejection. A file is rejected for its first line that is no order: the fault is on
that line, or on a later one if the line starts a setup order, which may be wrong farther down
(`readBytes_faultLine`).
-/

set_option autoImplicit false

namespace OrderFile

open OrderFile.Tree (leaf node tokensOf)
open Token (EndsLine Follows Later)

/-! ### Lines of indices -/

namespace Parse

/-- The line at an index is that of a token from there on, or of the last token. -/
theorem lineAt_start_append {before here : List Token} {index : Nat} (hne : here ≠ [])
    (hindex : before.length ≤ index) :
    (start (before ++ here)).lineAt index = (start here).lineAt (index - before.length) := by
  simp only [lineAt, start, List.getElem?_toArray, List.back?_toArray,
    List.getElem?_append_right hindex, List.getLast?_append_of_ne_nil _ hne]

/-- The line at an index is that of one of the tokens. -/
theorem exists_mem_lineAt {ts : List Token} (hne : ts ≠ []) (index : Nat) :
    ∃ s ∈ ts, (start ts).lineAt index = s.line := by
  simp only [lineAt, start, List.getElem?_toArray, List.back?_toArray]
  cases hfound : ts[index]? with
  | some s => exact ⟨s, List.mem_of_getElem? hfound, rfl⟩
  | none =>
    rw [List.getLast?_eq_getLast_of_ne_nil hne]
    exact ⟨ts.getLast hne, List.getLast_mem hne, rfl⟩

/-- The line at an index in the front is that of a token there. -/
theorem exists_mem_lineAt_append {front : List Token} {index : Nat}
    (hindex : index < front.length) (back : List Token) :
    ∃ s ∈ front, (start (front ++ back)).lineAt index = s.line := by
  refine ⟨front[index], List.getElem_mem hindex, ?_⟩
  simp only [lineAt, start, List.getElem?_toArray, List.getElem?_append_left hindex,
    List.getElem?_eq_getElem hindex]
  rfl

end Parse

/-! ### Parts -/

namespace Order

/-- Parts of a file end with a line end. -/
theorem endsLine_of_parts {parts : List Tree} {orders? : List (Option Order)}
    (h : List.Forall₂ Part parts orders?) (hne : parts ≠ []) : EndsLine (tokensOf parts) := by
  obtain ⟨front, last, rfl⟩ := (List.eq_nil_or_concat parts).resolve_left hne
  rw [List.concat_eq_append] at h ⊢
  obtain ⟨order?, hlast⟩ := part_of_mem h (List.mem_append_right _ (List.mem_singleton_self last))
  rw [Tree.tokensOf_append, Tree.tokensOf_cons, Tree.tokensOf_nil, List.append_nil]
  exact (endsLine_of_part hlast).append_left _

/-- The first unknown order is that of the first unknown line. -/
theorem find?_unknown_of_parts {before : List Tree} {line : Tree} {order : Order}
    {orders? others? : List (Option Order)} (hparts : List.Forall₂ Part before orders?)
    (hbefore : ∀ part ∈ before, part.isRule "unknown" = false)
    (hline : Part line (some order)) (hunknown : line.isRule "unknown" = true) :
    (orders? ++ some order :: others?).reduceOption.find? (·.isUnknown) = some order := by
  have hknown := (known_iff_of_parts hparts).mpr hbefore
  have hnone : orders?.reduceOption.find? (·.isUnknown) = none :=
    List.find?_eq_none.mpr fun other hother ↦ Bool.eq_false_iff.mp (hknown other hother)
  rw [List.reduceOption_append, List.find?_append, hnone, Option.none_or,
    List.reduceOption_cons_of_some,
    List.find?_cons_of_pos ((isUnknown_of_part hline).trans hunknown)]

end Order

/-! ### Rejections -/

/-- What a line is rejected for is on the line of its first token or farther down, and it is on this
line unless that token is the keyword of setup orders. -/
theorem Grammar.lineAt_of_blame {before front back : List Token} {t e : Token}
    {rules : List String} {miss : Parse.Miss}
    (hordered : (before ++ (t :: front ++ [e] ++ back)).Pairwise Later)
    (hchain : (before ++ (t :: front ++ [e] ++ back)).IsChain Follows)
    (hfront : ∀ s ∈ t :: front, s.kind ≠ .eol ∧ s.kind ≠ .eof) (he : e.kind = .eol)
    (hblame : Blame (t :: front ++ [e] ++ back) before.length rules miss) :
    t.line ≤ (Parse.start (before ++ (t :: front ++ [e] ++ back))).lineAt miss.index ∧
      (Keyword.ofToken? t ≠ some .setup →
        (Parse.start (before ++ (t :: front ++ [e] ++ back))).lineAt miss.index = t.line) := by
  have hne : t :: front ++ [e] ++ back ≠ [] := List.cons_ne_nil _ _
  rw [Parse.lineAt_start_append hne hblame.start_le]
  constructor
  · obtain ⟨s, hs, hline⟩ := Parse.exists_mem_lineAt hne (miss.index - before.length)
    rw [hline]
    rcases List.mem_cons.mp hs with rfl | hlater
    · exact UInt32.le_refl _
    · have hhere := (List.pairwise_append.mp hordered).2.1
      exact ((List.pairwise_cons.mp hhere).1 s hlater).1
  · intro hsetup
    have hlength : lineLength (t :: front ++ [e] ++ back) = (t :: front).length := by
      rw [List.append_assoc, lineLength_append hfront, List.singleton_append,
        lineLength_of_end (by simp [he])]
      rfl
    have hwithin : miss.index - before.length < (t :: front ++ [e]).length := by
      rw [List.length_append, List.length_singleton]
      cases hblame with
      | lineEnd => simp
      | @inOrder k _ hk _ _ _ hline =>
        have hk : Keyword.ofToken? t = some k := hk
        have hother : k ≠ .setup := by
          rintro rfl
          exact hsetup hk
        have hbound := hline hother
        omega
    have hone : (t :: front ++ [e]).IsChain Follows :=
      (List.isChain_append.mp (List.isChain_append.mp hchain).2.1).1
    have hsame := Token.line_eq_of_isChain hone fun s hs ↦ (hfront s hs).1
    obtain ⟨s, hs, hline⟩ := Parse.exists_mem_lineAt_append hwithin back
    rw [hline, hsame s hs, hsame t List.mem_cons_self]

/-- A rejection is a fault on a line, and it comes with a trace even if none was asked for. The
other mode reads the same bytes and finds a first order that is unknown. The fault is not before the
line of that order, and it is on this very line unless the first token there is the keyword of setup
orders. -/
theorem readBytes_faultLine {bytes : List UInt8} {emitTrace : Bool} {rejection : Rejection}
    (hbytes : bytes.count 0x0A < 2 ^ 32 - 1)
    (h : readBytes bytes ⟨true, emitTrace⟩ = .error rejection) :
    ∃ reading first t line found message,
      readBytes bytes ⟨false, emitTrace⟩ = .ok reading ∧
      reading.orders.find? (·.isUnknown) = some first ∧
      (Token.prepare (Token.ofBytes bytes)).find? (·.line == first.line) = some t ∧
      rejection.fault.cause = .unexpected line found message ∧
      rejection.fault.line? = some line ∧ rejection.trace.isSome = true ∧
      first.line ≤ line ∧ (Keyword.ofToken? t ≠ some .setup → line = first.line) := by
  have hordered : (Token.prepare (Token.scan (Utf8.decode bytes))).Pairwise Later :=
    Token.pairwise_prepare_scan (by rwa [Utf8.count_newline_decode])
  have hchain := Token.chain_prepare_scan (Utf8.decode bytes)
  obtain ⟨reading, before, line, after, here, miss, hreading, htree, hbefore, hline, hts,
    ⟨back, hback⟩, hblame, hfault, htrace⟩ := exists_blame h
  obtain ⟨orders?, first, others?, hparts, hpart, horders⟩ :=
    Order.around_unknown hreading htree hline
  obtain ⟨t, front, e, htokens, hfront, he, hfirst⟩ := Order.tokens_of_unknown hpart hline
  rw [htokens] at hback
  subst hback
  have hstream : (tokensOf before ++ (t :: front ++ [e] ++ back)).Pairwise Later := hts ▸ hordered
  obtain ⟨hle, heq⟩ := Grammar.lineAt_of_blame hstream (hts ▸ hchain) hfront he hblame
  -- The lines before end with a line end, so none of their tokens stands on the line of the first
  -- unknown one.
  have hfound : (tokensOf before ++ (t :: front ++ [e] ++ back)).find? (·.line == t.line) =
      some t := by
    have hnone : (tokensOf before).find? (·.line == t.line) = none := by
      refine List.find?_eq_none.mpr fun s hs hsame ↦ ?_
      have hne : before ≠ [] := by
        rintro rfl
        cases hs
      have hlt := Token.line_lt_of_endsLine (Order.endsLine_of_parts hparts hne) hstream
        (hfront t List.mem_cons_self).2 s hs
      rw [beq_iff_eq.mp hsame] at hlt
      exact UInt32.lt_irrefl _ hlt
    rw [List.find?_append, hnone, Option.none_or]
    exact List.find?_cons_of_pos (BEq.refl _)
  refine ⟨reading, first, t, _, _, _, hreading, ?_, ?_, by rw [hfault]; rfl, by rw [hfault]; rfl,
    htrace, ?_, ?_⟩
  · rw [horders]
    exact Order.find?_unknown_of_parts hparts hbefore hpart hline
  · rw [hfirst, ← hfound, ← hts]
    rfl
  · rw [hfirst, hts]
    exact hle
  · rw [hfirst, hts]
    exact heq

/-- A survey order and a setup order whose second item does not start with a number. -/
def brokenSetup : List UInt8 :=
  "survey 1\nsetup 1 (2,3,4) ship transfer\n5 fuel\nfuel 5\n".toList.map (UInt8.ofNat ·.toNat)

/-- The fault is two lines below that of the unknown order, so this one starts a setup order. -/
theorem readBytes_faultLine_brokenSetup :
    ∃ rejection t, readBytes brokenSetup ⟨true, false⟩ = .error rejection ∧
      rejection.fault.line? = some 4 ∧
      (Token.prepare (Token.ofBytes brokenSetup)).find? (·.line == 2) = some t ∧
      Keyword.ofToken? t = some .setup := by
  have hrejected : (match readBytes brokenSetup ⟨true, false⟩ with
      | .ok _ => none
      | .error rejection => rejection.fault.line?) = some 4 := by
    decide +kernel
  have hcomputed : (readBytes brokenSetup ⟨false, false⟩).toOption.map
      (·.orders.find? (·.isUnknown) |>.map (·.line)) = some (some 2) := by
    decide +kernel
  cases hread : readBytes brokenSetup ⟨true, false⟩ with
  | ok reading =>
    rw [hread] at hrejected
    cases hrejected
  | error rejection =>
    have hline : rejection.fault.line? = some 4 := by
      rw [hread] at hrejected
      exact hrejected
    obtain ⟨reading, first, t, line, -, -, hreading, hfirst, ht, -, hfault, -, -, hsame⟩ :=
      readBytes_faultLine (by decide +kernel) hread
    rw [hreading] at hcomputed
    have hnumber : first.line = 2 := by
      have hfound : (reading.orders.find? (·.isUnknown)).map (·.line) = some 2 :=
        Option.some.inj hcomputed
      rw [hfirst] at hfound
      exact Option.some.inj hfound
    rw [hnumber] at ht hsame
    obtain rfl : line = 4 := Option.some.inj (hfault.symm.trans hline)
    refine ⟨rejection, t, rfl, hline, ht, ?_⟩
    by_contra hother
    exact absurd (hsame hother) (by decide)

end OrderFile
