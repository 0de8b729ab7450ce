import OrderFile.Proofs.Grammar.Reworded
import OrderFile.Proofs.Reading.Joined
import OrderFile.Proofs.Text.Encoded
import OrderFile.Proofs.Token.Respaced
import OrderFile.Proofs.Token.Suited

/-!
Lines that are no orders, read again. The text that is kept of such a line is cut into the tokens of
the line, and these are no order on their own either, since an order that ends with its line would
have been one in the file too. So the text is read as one line that is no order, with the same text:
`readBytes_unknown`.
-/

set_option autoImplicit false

namespace OrderFile

open OrderFile.Tree (leaf node tokensOf)
open Token (onLine spaced)

namespace Grammar

open Pattern

/-! ### Lines on their own -/

/-- A line that starts no order is none when nothing comes after it. -/
theorem orderFront?_alone {line rest : List Token} {e f : Token}
    (hline : ∀ t ∈ line, t.kind ≠ .eol) (hf : f.kind ≠ .eol)
    (h : orderFront? (line ++ e :: rest) = none) : orderFront? (line ++ [e, f]) = none := by
  by_contra hsome
  obtain ⟨⟨trees, after⟩, hfront⟩ := Option.ne_none_iff_exists'.mp hsome
  obtain ⟨part, order, rfl, hpart⟩ := part_of_orderFront? hfront
  obtain ⟨k, children, -, hcommand, heq⟩ := orderFront?_eq_some hfront
  have hwhole := front?_append hcommand
  have htokens : part.tokens = tokensOf children := by
    rw [(List.cons.inj heq).1, Tree.tokens_node]
  obtain ⟨before, last, hends, hlast⟩ := Order.endsLine_of_part hpart
  rw [← htokens, hends, List.append_assoc, List.singleton_append] at hwhole
  -- The order ends with a line end, and the only one there is stands after the line.
  have hsame : before ++ [last] = line ++ [e] := by
    rcases List.append_eq_append_iff.mp hwhole with ⟨extra, hbefore, hextra⟩ | ⟨extra, hbefore, hextra⟩
    · match extra with
      | [] =>
        obtain ⟨rfl, -⟩ := List.cons.inj hextra
        rw [hbefore, List.append_nil]
      | [s] =>
        obtain ⟨-, hlater⟩ := List.cons.inj hextra
        obtain ⟨rfl, -⟩ := List.cons.inj hlater
        exact absurd hlast hf
      | s :: t :: extra => simp at hextra
    · cases extra with
      | nil =>
        obtain ⟨rfl, -⟩ := List.cons.inj hextra
        rw [hbefore, List.append_nil]
      | cons s extra =>
        obtain ⟨rfl, -⟩ := List.cons.inj hextra
        exact absurd hlast (hline last (by simp [hbefore]))
  have hread := orderFront?_of_fits (fits_of_front? hcommand) rest
  rw [← htokens, hends, hsame, List.append_assoc, List.singleton_append, h] at hread
  cases hread

/-- A file of one line that is no order. -/
theorem fileTree?_unknown {line : List Token} {e f : Token} (hne : line ≠ [])
    (hline : ∀ t ∈ line, t.kind ≠ .eol ∧ t.kind ≠ .eof) (he : e.kind = .eol) (hf : f.kind = .eof)
    (h : orderFront? (line ++ [e, f]) = none) :
    fileTree? false (line ++ [e, f]) =
        some (node "orders" [node "unknown" (line.map leaf ++ [leaf e]), leaf f]) ∧
      fileTree? true (line ++ [e, f]) = none := by
  obtain ⟨t, ts, rfl⟩ := List.exists_cons_of_ne_nil hne
  have ht := hline t List.mem_cons_self
  have hstart : ¬ ((t :: ts) ++ [e, f]).head?.any (·.kind == .eof) = true := by
    simpa using ht.2
  have heol : eolFront? ((t :: ts) ++ [e, f]) = none := if_neg (by simpa using ht.1)
  have hend : linesFront? false [f] = some ([], [f]) := linesFront?_of_eof (by simp [hf])
  constructor
  · have hread : lineFront? false ((t :: ts) ++ [e, f]) =
        some ([node "unknown" ((t :: ts).map leaf ++ [leaf e])], [f]) := by
      rw [lineFront?, h, heol, Option.none_or, Option.none_or, if_neg Bool.false_ne_true,
        unknownFront?_of_line [f] hline he]
    have hlines : linesFront? false ((t :: ts) ++ [e, f]) =
        some ([node "unknown" ((t :: ts).map leaf ++ [leaf e])], [f]) := by
      rw [linesFront?_of_not_eof hstart, hread, andThen_of_eq_some rfl hend, List.append_nil]
    exact fileTree?_of_linesFront? hlines hf
  · have hread : lineFront? true ((t :: ts) ++ [e, f]) = none := by
      rw [lineFront?, h, heol, Option.none_or, Option.none_or, if_pos rfl]
    rw [fileTree?, fileFront?, linesFront?_of_not_eof hstart, hread]
    rfl

end Grammar

/-! ### Tokens of a line -/

namespace Token

/-- A token as it is on a line of its own. -/
def alone (t : Token) : Token :=
  { t with line := 1, lexeme := if t.kind = .eol then "" else t.lexeme }

theorem rewords_alone : Rewords alone where
  kind _ := rfl
  integer? _ := rfl
  word t ht := by rw [alone, if_neg (by simp [ht])]

/-- The prepared tokens of a text that is one line of tokens. -/
theorem prepare_scan_spaced {ts : List Token} (h : ∀ t ∈ ts, t.StandsAlone)
    (heol : ∀ t ∈ ts, t.kind ≠ .eol) (hlexeme : ∀ t ∈ ts, '\n' ∉ t.lexeme.toList)
    (hclosed : ts.IsChain fun s _ ↦ s.isUnclosed = false) :
    prepare (scan (spaced ts)) = ts.map (onLine 1) ++ [impliedEol 1, eof 1] := by
  have hline := not_mem_spaced hlexeme
  rw [prepare_eq, scan, filter_scanFrom_last hline, ← words, words_spaced h hclosed,
    if_neg (by simp), collapseLinesFrom_line _ rfl]
  · rfl
  · rw [List.forall_mem_map]
    exact heol

/-- A line of a text, written with single spaces, is this line on its own. -/
theorem prepare_scan_of_line {text : List Char} {front line back : List Token} {e : Token}
    (h : prepare (scan text) = front ++ (line ++ e :: back))
    (hline : ∀ t ∈ line, t.kind ≠ .eol ∧ t.kind ≠ .eof) (he : e.kind = .eol) :
    prepare (scan (spaced line)) = (line ++ [e, eof 1]).map alone := by
  have hmem {t : Token} (ht : t ∈ line ++ e :: back) : t ∈ prepare (scan text) := by
    rw [h]
    exact List.mem_append_right _ ht
  have hscan {t : Token} (ht : t ∈ line) : t ∈ scan text :=
    mem_of_mem_prepare (hmem (List.mem_append_left _ ht))
  have hstream := chain_prepare_scan text
  rw [h] at hstream
  have hchain : line.IsChain Follows := hstream.right_of_append.left_of_append
  have hclosed : line.IsChain fun s _ ↦ s.isUnclosed = false := by
    refine hchain.imp_of_mem_imp fun s t _ ht hfollows ↦ ?_
    exact Bool.not_eq_true _ ▸ fun hopen ↦ (hline t ht).1 (hfollows.1 hopen)
  have hend : e.payload = .none := by
    have hsuited := suited_of_mem_prepare_scan e (hmem (by simp))
    rwa [Suited, he] at hsuited
  have halone : line.map alone = line.map (onLine 1) := by
    refine List.map_congr_left fun t ht ↦ ?_
    rw [alone, if_neg (hline t ht).1, onLine]
  rw [prepare_scan_spaced _ (fun t ht ↦ (hline t ht).1) _ hclosed, List.map_append, halone]
  · rw [List.map_cons, alone, if_pos he, he, hend]
    rfl
  · intro t ht
    exact standsAlone_of_mem_scanFrom (hscan ht)
      (not_isTrivia_of_mem_prepare (hmem (List.mem_append_left _ ht))) (hline t ht).1 (hline t ht).2
  · exact fun t ht ↦ not_mem_lexeme_of_mem_scanFrom (hscan ht) (hline t ht).1

end Token

/-! ### Readings -/

/-- An unknown command is a line of the text that starts no order. -/
theorem exists_line_of_unknown {text : List Char} {options : Options} {reading : Reading}
    (h : readText text options = .ok reading) {order : Order} (horder : order ∈ reading.orders)
    {s : String} (hs : order.command = .unknown s) :
    ∃ front line e back, Token.prepare (Token.scan text) = front ++ (line ++ e :: back) ∧
      line ≠ [] ∧ (∀ t ∈ line, t.kind ≠ .eol ∧ t.kind ≠ .eof) ∧ e.kind = .eol ∧
      Grammar.orderFront? (line ++ e :: back) = none ∧ s.toList = spaced line := by
  obtain ⟨parts, orders?, f, hlines, -, hparts, hsame⟩ :=
    Order.exists_reading_iff.mp ⟨reading, h, rfl⟩
  rw [← hsame, List.reduceOption_mem_iff] at horder
  obtain ⟨part, hmem, hpart⟩ := Order.exists_part_of_mem hparts horder
  obtain ⟨front, back, hstream, hread⟩ := Grammar.exists_line_of_mem hlines hmem
  cases hpart with
  | command hk =>
    obtain rfl : _ = Command.unknown s := hs
    cases hk
  | @unknown t e ts hts he =>
    obtain rfl := Command.unknown.inj hs
    rw [Tree.tokens_node, Tree.tokensOf_append, Grammar.tokensOf_map_leaf, Tree.tokensOf_cons,
      Tree.tokensOf_nil, Tree.tokens_leaf, List.append_nil, List.append_assoc,
      List.singleton_append] at hstream hread
    refine ⟨front, t :: ts, e, back, hstream, List.cons_ne_nil _ _, hts, he, ?_, rfl⟩
    rw [Grammar.lineFront?, Option.or_eq_some_iff] at hread
    rcases hread with hread | ⟨hnone, -⟩
    · obtain ⟨k, children, -, -, heq⟩ := Grammar.orderFront?_eq_some hread
      have hrule := (node.inj (List.cons.inj heq).1).1
      exact absurd hrule (by decide)
    · exact hnone

/-- A stream of one line that is no order is read as this line, unless reading stops there. -/
theorem readTokens_unknown {tokens line : List Token} {e f : Token}
    (htokens : Token.prepare tokens = line ++ [e, f]) (hne : line ≠ [])
    (hline : ∀ t ∈ line, t.line = 1 ∧ t.kind ≠ .eol ∧ t.kind ≠ .eof) (he : e.kind = .eol)
    (hf : f.kind = .eof) (h : Grammar.orderFront? (line ++ [e, f]) = none) (emitTrace : Bool) :
    (∃ reading, readTokens tokens ⟨false, emitTrace⟩ = .ok reading ∧
        reading.orders = [⟨1, [], .unknown (String.ofList (spaced line))⟩]) ∧
      ∃ rejection, readTokens tokens ⟨true, emitTrace⟩ = .error rejection := by
  obtain ⟨htree, hnone⟩ :=
    Grammar.fileTree?_unknown hne (fun t ht ↦ (hline t ht).2) he hf h
  rw [← htokens] at htree hnone
  constructor
  · obtain ⟨t, ts, rfl⟩ := List.exists_cons_of_ne_nil hne
    have hkinds : ∀ s ∈ t :: ts, s.kind ≠ .eol ∧ s.kind ≠ .eof := fun s hs ↦ (hline s hs).2
    have hpart := Order.Part.unknown hkinds he
    have hparts := Order.allOfTree_of_parts (.cons hpart .nil) hf
    refine ⟨⟨_, _, _, _⟩, readTokens_eq_ok_iff.mpr ⟨htree, hparts, rfl⟩, ?_⟩
    rw [(hline t List.mem_cons_self).1, spaced, String.ofList_toList]
    rfl
  · cases hread : readTokens tokens ⟨true, emitTrace⟩ with
    | error rejection => exact ⟨rejection, rfl⟩
    | ok reading =>
      have hsome := (readTokens_eq_ok_iff.mp hread).1
      rw [hnone] at hsome
      cases hsome

/-- What is kept of a line that is no order is, read on its own, one line that is no order, with the
same text; and reading that stops at such lines rejects it. -/
theorem readBytes_unknown {bytes : List UInt8} {emitTrace : Bool} {reading : Reading}
    (h : readBytes bytes ⟨false, emitTrace⟩ = .ok reading) {order : Order}
    (horder : order ∈ reading.orders) {s : String} (hs : order.command = .unknown s)
    (again : Bool) :
    (∃ other, readBytes s.toUTF8.data.toList ⟨false, again⟩ = .ok other ∧
        other.orders = [⟨1, [], .unknown s⟩]) ∧
      ∃ rejection, readBytes s.toUTF8.data.toList ⟨true, again⟩ = .error rejection := by
  obtain ⟨front, line, e, back, hstream, hne, hline, he, hnone, htext⟩ :=
    exists_line_of_unknown h horder hs
  have hagain := Token.prepare_scan_of_line hstream hline he
  have hkept : (line.map Token.alone).map (·.lexeme) = line.map (·.lexeme) := by
    rw [List.map_map]
    exact List.map_congr_left fun t ht ↦ if_neg (hline t ht).1
  have hsame : String.ofList (spaced (line.map Token.alone)) = s := by
    rw [spaced, hkept, ← spaced, ← htext, String.ofList_toList]
  have hfront := Grammar.orderFront?_alone (e := e) (f := Token.eof 1)
    (fun t ht ↦ (hline t ht).1) (by decide) hnone
  rw [← Option.map_eq_none_iff, ← Grammar.orderFront?_map Token.rewords_alone] at hfront
  rw [List.map_append] at hagain hfront
  rw [readBytes_eq, readBytes_eq, Utf8.decode_toUTF8, htext]
  have hread := @readTokens_unknown (Token.scan (spaced line)) _ _ _ hagain (by simpa using hne)
    (List.forall_mem_map.mpr fun t ht ↦ ⟨rfl, hline t ht⟩) he rfl hfront again
  rwa [hsame] at hread

/-- An order, and a line that is none with a comma in a word, a percentage and a quote left open. -/
def openQuoteFile : List UInt8 :=
  "survey 1\n  fly,now\t-3% \"home ; sweet".toList.map (UInt8.ofNat ·.toNat)

theorem readBytes_unknown_openQuoteFile :
    (∃ first, readBytes openQuoteFile ⟨false, false⟩ = .ok first ∧
        ⟨2, [], .unknown "fly,now -3% \"home ; sweet"⟩ ∈ first.orders) ∧
      (∃ other, readBytes "fly,now -3% \"home ; sweet".toUTF8.data.toList ⟨false, true⟩ = .ok other ∧
        other.orders = [⟨1, [], .unknown "fly,now -3% \"home ; sweet"⟩]) ∧
      ∃ rejection,
        readBytes "fly,now -3% \"home ; sweet".toUTF8.data.toList ⟨true, true⟩ = .error rejection := by
  have hcomputed : (readBytes openQuoteFile ⟨false, false⟩).toOption.map
      (·.orders.contains ⟨2, [], .unknown "fly,now -3% \"home ; sweet"⟩) = some true := by
    decide +kernel
  cases hread : readBytes openQuoteFile ⟨false, false⟩ with
  | error rejection =>
    rw [hread] at hcomputed
    cases hcomputed
  | ok first =>
    rw [hread] at hcomputed
    have horder := List.contains_iff_mem.mp (Option.some.inj hcomputed)
    exact ⟨⟨first, rfl, horder⟩, readBytes_unknown hread horder rfl true⟩

end OrderFile
