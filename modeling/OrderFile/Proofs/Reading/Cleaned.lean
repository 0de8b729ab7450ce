import Mathlib.Data.List.Lattice
import Mathlib.Data.List.Nodup
import OrderFile.Proofs.Reading.Derivation
import OrderFile.Proofs.Reading.Lines
import OrderFile.Proofs.Reading.Modes
import OrderFile.Proofs.Token.Blanked

/-!
Files without their lines that are no orders. If such lines are made empty, reading that stops at
the first line that is no order takes the whole file, and finds the orders that were there: an order
is read from its own lines only, so nothing that is kept changes its meaning, and no setup order
goes on past the line that broke it off.
-/

set_option autoImplicit false

namespace OrderFile

open OrderFile.Tree (leaf node tokensOf)
open Token (Collapsed collapseLinesFrom dropLines lineStarts)

namespace Order

/-! ### The lines of the parts of a file -/

/-- A line that is no order is one line. -/
theorem lineStarts_unknown {part : Tree} {order : Order} (h : Part part (some order))
    (hunknown : order.isUnknown = true) : lineStarts true part.tokens = [order.line] := by
  obtain ⟨others, hlines, hcount⟩ := lineStarts_of_part h
  have hone : order.command.lineCount = 1 := by
    refine Command.lineCount_eq_one fun hsetup ↦ ?_
    obtain ⟨line, errors, command⟩ := order
    cases command <;> cases hsetup
    cases hunknown
  rw [hone, Nat.add_eq_right, List.length_eq_zero_iff] at hcount
  rw [hlines, hcount]

/-- The lines of the orders that are unknown are those of the parts that are no orders. -/
theorem unknownLines_of_parts {parts : List Tree} {orders? : List (Option Order)}
    (h : List.Forall₂ Part parts orders?) :
    (orders?.reduceOption.filter isUnknown).map (·.line) =
      (parts.filter (·.isRule "unknown")).flatMap fun part ↦ lineStarts true part.tokens := by
  induction h with
  | nil => rfl
  | @cons part order? parts orders? hpart _ ih =>
    cases order? with
    | none =>
      cases hpart
      rw [List.reduceOption_cons_of_none, ih]
      rfl
    | some order =>
      have hsame := isUnknown_of_part hpart
      rw [List.reduceOption_cons_of_some, List.filter_cons, List.filter_cons, hsame]
      by_cases hunknown : part.isRule "unknown" = true
      · rw [if_pos hunknown, if_pos hunknown, List.map_cons, List.flatMap_cons, ih,
          lineStarts_unknown hpart (hsame.trans hunknown)]
        rfl
      · rw [if_neg hunknown, if_neg hunknown, ih]

/-- No line starts twice in a text. -/
theorem nodup_lineStarts {text : List Char} (htext : text.count '\n' < 2 ^ 32 - 1)
    {parts : List Tree} {orders? : List (Option Order)} {f : Token}
    (h : List.Forall₂ Part parts orders?) (hf : f.kind = .eof)
    (htokens : Token.prepare (Token.scan text) = tokensOf parts ++ [f]) :
    (parts.flatMap fun part ↦ lineStarts true part.tokens).Nodup := by
  have hstarts := Token.lineStarts_prepare_scan htext
  rw [htokens, lineStarts_parts h, Token.lineStarts_eof hf, List.append_nil] at hstarts
  refine .of_map (·.toNat) ?_
  rw [hstarts]
  exact (Token.pairwise_filledLines text).imp Nat.ne_of_lt

/-- Where no line starts twice, the lines of the parts that are no orders are on no other part. -/
theorem mem_unknownLines_iff {parts : List Tree} {orders? : List (Option Order)}
    (h : List.Forall₂ Part parts orders?)
    (hnodup : (parts.flatMap fun part ↦ lineStarts true part.tokens).Nodup) {part : Tree}
    (hpart : part ∈ parts) {line : UInt32} (hline : line ∈ lineStarts true part.tokens) :
    line ∈ (orders?.reduceOption.filter isUnknown).map (·.line) ↔
      part.isRule "unknown" = true := by
  rw [unknownLines_of_parts h, List.mem_flatMap]
  constructor
  · rintro ⟨other, hother, hmem⟩
    obtain ⟨hin, hrule⟩ := List.mem_filter.mp hother
    have hsymm : Std.Symm
        (Function.onFun List.Disjoint fun part : Tree ↦ lineStarts true part.tokens) :=
      ⟨fun _ _ ↦ List.Disjoint.symm⟩
    by_contra hknown
    have hne : other ≠ part := by
      rintro rfl
      exact hknown hrule
    exact (List.nodup_flatMap.mp hnodup).2.forall hin hpart hne hmem hline
  · intro hrule
    exact ⟨part, List.mem_filter.mpr ⟨hpart, hrule⟩, hline⟩

/-! ### Parts without those that are no orders -/

/-- Tokens that make up parts in a row, and the orders of these parts. -/
def Spelled (ts : List Token) (orders : List Order) : Prop :=
  ∃ parts orders?, List.Forall₂ Part parts orders? ∧ tokensOf parts = ts ∧
    orders?.reduceOption = orders

/-- Tokens that spell orders in a row spell all of them. -/
theorem Spelled.append {first second : List Token} {orders others : List Order}
    (h : Spelled first orders) (hothers : Spelled second others) :
    Spelled (first ++ second) (orders ++ others) := by
  obtain ⟨front, frontOrders?, hfront, rfl, rfl⟩ := h
  obtain ⟨back, backOrders?, hback, rfl, rfl⟩ := hothers
  exact ⟨front ++ back, frontOrders? ++ backOrders?, List.rel_append hfront hback,
    Tree.tokensOf_append .., List.reduceOption_append ..⟩

/-- The end of an empty line, which goes if it comes right after another line end. -/
theorem spelled_blank {e : Token} (he : e.kind = .eol) (after : Bool) :
    Spelled (collapseLinesFrom after [e]) [] := by
  rw [Token.collapseLinesFrom_eol he]
  cases after with
  | true => exact ⟨[], [], .nil, rfl, rfl⟩
  | false => exact ⟨[leaf e], [none], .cons (.blank he) .nil, rfl, rfl⟩

/-- An order stays as it is if none of its lines is taken out. -/
theorem tokens_kept_of_part {gone : List Nat} {part : Tree} {order : Order}
    (h : Part part (some order)) (hknown : order.isUnknown = false)
    (hkept : ∀ line ∈ lineStarts true part.tokens, line.toNat ∉ gone)
    (hcollapsed : Collapsed part.tokens) (after : Bool) :
    collapseLinesFrom after (dropLines gone none part.tokens) = part.tokens := by
  have hhead : ∀ t ∈ part.tokens.head?, t.kind ≠ .eol := by
    cases h with
    | command hk hwritten hfits =>
      obtain ⟨first, ts, hts, htext, -⟩ := Grammar.head_of_fits hfits
      intro t ht
      rw [Tree.tokens_node, hts] at ht
      obtain rfl := Option.some.inj ht
      simp [htext]
    | unknown => cases hknown
  have hwhole : dropLines gone none part.tokens = part.tokens :=
    @Token.dropLines_of_kept _ _ _ true rfl hkept
  rw [hwhole, Token.collapseLinesFrom_of_collapsed hcollapsed fun _ ↦ hhead]

/-- What is left of a part: an order as it was, and of everything else at most the line end. -/
theorem spelled_of_part {gone : List Nat} {part : Tree} {order? : Option Order}
    (h : Part part order?)
    (hgone : ∀ line ∈ lineStarts true part.tokens,
      line.toNat ∈ gone ↔ part.isRule "unknown" = true)
    (hcollapsed : Collapsed part.tokens) (after : Bool) :
    Spelled (collapseLinesFrom after (dropLines gone none part.tokens))
      (order?.toList.filter (!·.isUnknown)) := by
  have hpart := h
  cases h with
  | command hk hwritten hfits =>
    have hknown := isUnknown_of_part hpart
    have hkept := tokens_kept_of_part hpart hknown
      (fun line hline hmem ↦ Bool.false_ne_true ((hgone line hline).mp hmem)) hcollapsed after
    refine ⟨[_], [_], .cons hpart .nil, ?_, ?_⟩
    · rw [hkept, Tree.tokensOf_cons, Tree.tokensOf_nil, List.append_nil]
    · rw [Option.toList_some, List.filter_cons_of_pos (by rw [hknown]; rfl)]
      rfl
  | @blank e he =>
    rw [Tree.tokens_leaf, Token.dropLines_eol he]
    exact spelled_blank he after
  | @unknown t e ts hts he =>
    obtain ⟨ht, hothers⟩ := List.forall_mem_cons.mp hts
    have htokens : (node "unknown" ((t :: ts).map leaf ++ [leaf e])).tokens = t :: (ts ++ [e]) := by
      rw [Tree.tokens_node, Tree.tokensOf_append, Grammar.tokensOf_map_leaf, Tree.tokensOf_cons,
        Tree.tokens_leaf, Tree.tokensOf_nil, List.append_nil, List.cons_append]
    rw [htokens, Token.lineStarts_first ht] at hgone
    have hfirst : t.line.toNat ∈ gone := (hgone t.line List.mem_cons_self).mpr rfl
    have hleft : dropLines gone none (t :: (ts ++ [e])) = [e] := by
      rw [Token.dropLines_word ht.1, if_pos ⟨ht.2, decide_eq_true hfirst⟩,
        Token.dropLines_open true hothers he]
      rfl
    rw [htokens, hleft]
    exact spelled_blank he after

/-- What is left of parts and an end token makes up parts again, and their orders are those that are
not unknown. -/
theorem spelled_of_parts {gone : List Nat} {parts : List Tree} {orders? : List (Option Order)}
    (h : List.Forall₂ Part parts orders?)
    (hgone : ∀ part ∈ parts, ∀ line ∈ lineStarts true part.tokens,
      line.toNat ∈ gone ↔ part.isRule "unknown" = true)
    (hcollapsed : Collapsed (tokensOf parts)) {f : Token} (hf : f.kind = .eof) (after : Bool) :
    ∃ ts, Spelled ts (orders?.reduceOption.filter (!·.isUnknown)) ∧
      collapseLinesFrom after (dropLines gone none (tokensOf parts ++ [f])) = ts ++ [f] := by
  induction h generalizing after with
  | nil =>
    have hend : f.kind ≠ .eol := by simp [hf]
    refine ⟨[], ⟨[], [], .nil, rfl, rfl⟩, ?_⟩
    rw [Tree.tokensOf_nil, List.nil_append, Token.dropLines_word hend,
      if_neg fun h ↦ h.1 hf, Token.dropLines, Token.collapseLinesFrom_word hend]
    rfl
  | @cons part order? parts orders? hpart _ ih =>
    obtain ⟨hfirst, hothers⟩ := List.forall_mem_cons.mp hgone
    rw [Tree.tokensOf_cons] at hcollapsed
    have hends := endsLine_of_part hpart
    have hfront := spelled_of_part hpart hfirst hcollapsed.left_of_append after
    obtain ⟨ts, hback, hts⟩ := ih hothers hcollapsed.right_of_append true
    have horders : (order? :: orders?).reduceOption.filter (!·.isUnknown) =
        order?.toList.filter (!·.isUnknown) ++ orders?.reduceOption.filter (!·.isUnknown) := by
      rw [← List.filter_append]
      cases order? <;> rfl
    refine ⟨_, horders ▸ hfront.append hback, ?_⟩
    rw [Tree.tokensOf_cons, List.append_assoc, Token.dropLines_append hends,
      Token.collapseLinesFrom_append hends.dropLines, hts, List.append_assoc]

/-! ### Readings of orders and empty lines -/

/-- A part that is no unknown line fits the pattern of a line. -/
theorem fits_of_part {part : Tree} {order? : Option Order} (h : Part part order?)
    (hknown : part.isRule "unknown" = false) : Grammar.linePattern.Fits [part] := by
  cases h with
  | command hk hwritten hfits => exact Grammar.fits_linePattern_iff.mpr (.inl ⟨_, _, hfits, rfl⟩)
  | blank he => exact Grammar.fits_linePattern_iff.mpr (.inr ⟨_, he, rfl⟩)
  | unknown => cases hknown

/-- A stream that is made up of orders and empty lines is read in either mode. -/
theorem readTokens_of_spelled {tokens ts : List Token} {orders : List Order} {f : Token}
    (h : Spelled ts orders) (hf : f.kind = .eof)
    (hknown : ∀ order ∈ orders, order.isUnknown = false)
    (htokens : Token.prepare tokens = ts ++ [f]) (options : Options) :
    ∃ reading, readTokens tokens options = .ok reading ∧ reading.orders = orders ∧
      reading.errors = orders.flatMap (·.errors) := by
  obtain ⟨parts, orders?, hparts, rfl, rfl⟩ := h
  have hfits : ∀ part ∈ parts, Grammar.linePattern.Fits [part] := by
    intro part hpart
    obtain ⟨order?, hwritten⟩ := part_of_mem hparts hpart
    exact fits_of_part hwritten ((known_iff_of_parts hparts).mp hknown part hpart)
  have hlines : Grammar.linesFront? options.stopOnFirstError (Token.prepare tokens) =
      some (parts, [f]) := by
    rw [htokens]
    exact Grammar.linesFront?_of_fits hfits hf
  have htree := Grammar.fileTree?_of_linesFront? hlines hf
  have hall := allOfTree_of_parts hparts hf
  exact ⟨⟨_, _, _, _⟩, readTokens_eq_ok_iff.mpr ⟨htree, hall, rfl⟩, rfl, rfl⟩

/-- Nothing is wrong with orders that are unknown. -/
theorem errors_of_unknown {part : Tree} {order : Order} (h : Part part (some order))
    (hunknown : order.isUnknown = true) : order.errors = [] := by
  have hsame := isUnknown_of_part h
  cases h with
  | command =>
    rw [hunknown] at hsame
    cases hsame
  | unknown => rfl

/-- Unknown lines have no errors, so leaving them out loses none. -/
theorem flatMap_errors_filter {parts : List Tree} {orders? : List (Option Order)}
    (h : List.Forall₂ Part parts orders?) :
    (orders?.reduceOption.filter (!·.isUnknown)).flatMap (·.errors) =
      orders?.reduceOption.flatMap (·.errors) := by
  induction h with
  | nil => rfl
  | @cons part order? _ _ hpart _ ih =>
    cases order? with
    | none => rwa [List.reduceOption_cons_of_none]
    | some order =>
      rw [List.reduceOption_cons_of_some, List.flatMap_cons, ← ih]
      by_cases hunknown : order.isUnknown = true
      · rw [List.filter_cons_of_neg (by simp [hunknown]), errors_of_unknown hpart hunknown,
          List.nil_append]
      · rw [List.filter_cons_of_pos (by simp [hunknown]), List.flatMap_cons]

end Order

/-! ### Readings of texts -/

/-- If every line of a text that is no order is made empty, the text is read to its end by reading
that stops at such lines. Its orders are those of the first text that are not unknown, lines and
complaints included. -/
theorem readText_blankLines {text : List Char} (htext : text.count '\n' < 2 ^ 32 - 1)
    (emitTrace : Bool) :
    ∃ reading cleaned, readText text ⟨false, emitTrace⟩ = .ok reading ∧
      readText (Token.blankLines (reading.unknownLines.map (·.toNat)) text) ⟨true, emitTrace⟩ =
        .ok cleaned ∧
      cleaned.orders = reading.orders.filter (!·.isUnknown) ∧ cleaned.errors = reading.errors := by
  have hended := Token.prepare_scan_ended text
  obtain ⟨tree, htree⟩ := Grammar.fileTree?_of_ended hended
  obtain ⟨reading, hread⟩ := @exists_readTokens_of_fileTree? _ ⟨false, emitTrace⟩ _ htree
  obtain ⟨parts, orders?, f, hparts, hf, hwritten, horders, herrors⟩ := Order.parts_of_reading hread
  have htokens : Token.prepare (Token.scan text) = tokensOf parts ++ [f] := by
    rw [← Grammar.tokens_of_fileTree? hended (readTokens_eq_ok_iff.mp hread).1, hparts,
      Tree.tokens_node, Tree.tokensOf_append]
    rfl
  have hnodup := Order.nodup_lineStarts htext hwritten hf htokens
  have hcollapsed : Collapsed (tokensOf parts ++ [f]) := by
    rw [← htokens]
    exact (Token.collapsed_collapseLinesFrom false _).1
  -- No two parts start on one line, so the lines that are emptied are those of the unknown parts.
  have hgone : ∀ part ∈ parts, ∀ line ∈ lineStarts true part.tokens,
      line.toNat ∈ reading.unknownLines.map (·.toNat) ↔ part.isRule "unknown" = true := by
    intro part hpart line hline
    rw [List.mem_map_of_injective fun _ _ ↦ UInt32.toNat.inj, Reading.unknownLines, horders]
    exact Order.mem_unknownLines_iff hwritten hnodup hpart hline
  -- What is left of the stream spells the known orders, and such a stream is read as them.
  obtain ⟨ts, hspelled, hleft⟩ :=
    Order.spelled_of_parts hwritten hgone hcollapsed.left_of_append hf false
  have hcleaned : Token.prepare (Token.scan
      (Token.blankLines (reading.unknownLines.map (·.toNat)) text)) = ts ++ [f] := by
    rw [Token.prepare_scan_blankLines htext, htokens]
    exact hleft
  have hknown : ∀ order ∈ orders?.reduceOption.filter (!·.isUnknown), order.isUnknown = false := by
    intro order horder
    simpa using (List.mem_filter.mp horder).2
  obtain ⟨cleaned, hread', horders', herrors'⟩ :=
    Order.readTokens_of_spelled hspelled hf hknown hcleaned ⟨true, emitTrace⟩
  refine ⟨reading, cleaned, hread, hread', ?_, ?_⟩
  · rw [horders', horders]
  · rw [herrors', herrors, horders, Order.flatMap_errors_filter hwritten]

/-- A setup order that another line breaks off, one with an empty line in it, a name order without
a name and an order with a value that is wrong. -/
def brokenFile : List Char :=
  ("setup 1 (2,3,4) ship transfer\n5 fuel\noops\nend\n" ++
    "setup 6 (2,3,4) ship transfer\n7 fuel\n\nend\nname\nsurvey -8").toList

theorem readText_blankLines_brokenFile :
    ∃ reading cleaned, readText brokenFile ⟨false, false⟩ = .ok reading ∧
      reading.unknownLines = [1, 2, 3, 4, 9] ∧
      readText (Token.blankLines [1, 2, 3, 4, 9] brokenFile) ⟨true, false⟩ = .ok cleaned ∧
      cleaned.orders = reading.orders.filter (!·.isUnknown) ∧ cleaned.errors = reading.errors := by
  have hcomputed : (readText brokenFile ⟨false, false⟩).toOption.map (·.unknownLines) =
      some [1, 2, 3, 4, 9] := by decide +kernel
  obtain ⟨reading, cleaned, hread, hread', horders, herrors⟩ :=
    @readText_blankLines brokenFile (by decide +kernel) false
  rw [hread] at hcomputed
  have hunknown : reading.unknownLines = [1, 2, 3, 4, 9] := Option.some.inj hcomputed
  rw [hunknown] at hread'
  exact ⟨reading, cleaned, hread, hunknown, hread', horders, herrors⟩

end OrderFile
