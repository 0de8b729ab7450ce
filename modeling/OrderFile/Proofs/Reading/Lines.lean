import OrderFile.Proofs.Reading.Recovery
import OrderFile.Proofs.Text.Newlines
import OrderFile.Proofs.Token.Starts

/-!
The orders of a file and the lines of its text. Of the lines that hold anything, every order takes
the next ones in turn: one line, or for a setup order as many as it has items and two more. So no
such line is lost and none is reported twice.
-/

set_option autoImplicit false

namespace OrderFile

open OrderFile.Tree (leaf node tokensOf)
open Token (EndsLine lineStarts)

/-- How many lines a command takes in a file, other than those that hold nothing. -/
def Command.lineCount : Command → Nat
  | setup _ _ _ items => items.length + 2
  | _ => 1

theorem Command.lineCount_eq_one {command : Command} (h : command.keyword? ≠ some .setup) :
    command.lineCount = 1 := by
  cases command with
  | setup => exact absurd rfl h
  | _ => rfl

/-! ### Lines of one order -/

namespace Grammar

open Pattern

/-- All operands of a command but a setup order are in line, up to the line end that is last. -/
theorem operands_dropLast {k : Keyword} (hk : k ≠ .setup) :
    operands k = (operands k).dropLast ++ [kind .eol] ∧
      (sequence (operands k).dropLast).inLine = true := by
  cases k
  case setup => exact absurd rfl hk
  all_goals exact ⟨rfl, rfl⟩

/-- No line starts within the operands of an order, but for a setup order. -/
theorem lineStarts_operands {k : Keyword} (hk : k ≠ .setup) {trees : List Tree}
    (h : (sequence (operands k)).Fits trees) : lineStarts false (tokensOf trees) = [] := by
  obtain ⟨hoperands, hline⟩ := operands_dropLast hk
  rw [hoperands, fits_sequence_append_iff] at h
  obtain ⟨front, back, hfront, hback, rfl⟩ := h
  rw [fits_kind_cons_iff] at hback
  obtain ⟨e, _, rfl, he, rfl⟩ := hback
  rw [Tree.tokensOf_append, Token.lineStarts_append_later (ne_eol_of_fits hline hfront),
    Tree.tokensOf_cons, Tree.tokens_leaf, Tree.tokensOf_nil, List.append_nil,
    Token.lineStarts_eol he]
  rfl

end Grammar

theorem Coordinates.ne_eol_of_written {place : Tree} {location : Coordinates}
    (h : Written place location) : ∀ t ∈ place.tokens, t.kind ≠ .eol := by
  cases h <;> simp [*]

/-- Each item of a setup order starts a line. -/
theorem lineStarts_details {details : List Tree} {items : List TransferItem}
    (h : List.Forall₂ TransferItem.Written details items) (ts : List Token) :
    (lineStarts true (tokensOf details ++ ts)).length =
      items.length + (lineStarts true ts).length := by
  induction h with
  | nil => simp
  | @cons detail item details items hitem _ ih =>
    cases hitem with
    | @detail q m e hq hm he =>
      have hcargo : m.kind ≠ .eol := by
        intro heol
        rw [heol] at hm
        exact absurd hm (by decide)
      rw [Tree.tokensOf_cons, List.append_assoc, Tree.tokens_node]
      simp only [Tree.tokensOf_cons, Tree.tokens_leaf, Tree.tokens_node, Tree.tokensOf_nil,
        List.append_nil, List.cons_append, List.nil_append]
      rw [Token.lineStarts_first (by simp [hq]), Token.lineStarts_later hcargo,
        Token.lineStarts_eol he, List.length_cons, ih, List.length_cons]
      omega

/-- A setup order starts lines after its first one for its items and its end. -/
theorem Command.lineStarts_setup {trees : List Tree} {w : Token} {id : Int64}
    {location : Coordinates} {kind : SetupKind} {items : List TransferItem}
    (h : (setup id location kind items).Written (leaf w :: trees)) :
    (lineStarts false (tokensOf trees)).length = items.length + 1 := by
  cases h with
  | @setup _ i s t e last e' place _ _ details _ hw hid hplace hs ht he hitems hlast he' =>
    have hkind := Token.kind_of_spells hlast
    simp only [Tree.tokensOf_cons, Tree.tokensOf_append, Tree.tokens_leaf, Tree.tokensOf_nil,
      List.append_nil, List.cons_append, List.nil_append]
    rw [Token.lineStarts_later (by simp [hid]),
      Token.lineStarts_append_later (Coordinates.ne_eol_of_written hplace),
      Token.lineStarts_later (by simp [Token.kind_of_spells hs]),
      Token.lineStarts_later (by simp [Token.kind_of_spells ht]), Token.lineStarts_eol he,
      lineStarts_details hitems, Token.lineStarts_first (by simp [hkind]),
      Token.lineStarts_eol he']
    rfl

namespace Order

/-- An order starts on its line, and it takes as many lines as its command does. -/
theorem lineStarts_of_part {part : Tree} {order : Order} (h : Part part (some order)) :
    ∃ others, lineStarts true part.tokens = order.line :: others ∧
      others.length + 1 = order.command.lineCount := by
  cases h with
  | @command k w trees command hk hwritten hfits =>
    obtain ⟨_, hsequence, heq⟩ := hfits
    cases heq
    rw [Grammar.Pattern.fits_word_cons_iff] at hsequence
    obtain ⟨_, _, heq, hw, hoperands⟩ := hsequence
    cases heq
    have hkind := Token.kind_of_spells hw
    refine ⟨lineStarts false (tokensOf trees), ?_, ?_⟩
    · rw [Tree.tokens_node, Tree.tokensOf_cons, Tree.tokens_node, Tree.tokensOf_cons,
        Tree.tokens_leaf, Tree.tokensOf_nil, List.append_nil, List.singleton_append,
        Token.lineStarts_first (by simp [hkind])]
    · by_cases hsetup : command.keyword? = some .setup
      · cases command <;> cases hsetup
        rw [Command.lineStarts_setup hwritten]
        rfl
      · have hother : k ≠ .setup := by
          rintro rfl
          exact hsetup hk
        rw [Grammar.lineStarts_operands hother hoperands, Command.lineCount_eq_one hsetup]
        rfl
  | @unknown t e ts hts he =>
    obtain ⟨ht, hothers⟩ := List.forall_mem_cons.mp hts
    refine ⟨[], ?_, rfl⟩
    rw [Tree.tokens_node, Tree.tokensOf_append, Grammar.tokensOf_map_leaf, List.cons_append,
      Token.lineStarts_first ht, Token.lineStarts_append_later fun s hs ↦ (hothers s hs).1,
      Tree.tokensOf_cons, Tree.tokens_leaf, Tree.tokensOf_nil, List.append_nil,
      Token.lineStarts_eol he]
    rfl

/-- An empty line starts none that holds anything. -/
theorem lineStarts_blank {part : Tree} (h : Part part none) : lineStarts true part.tokens = [] := by
  cases h with
  | blank he =>
    rw [Tree.tokens_leaf, Token.lineStarts_eol he]
    rfl

/-- Parts in a row start lines one after the other. -/
theorem lineStarts_parts {parts : List Tree} {orders? : List (Option Order)}
    (h : List.Forall₂ Part parts orders?) (ts : List Token) :
    lineStarts true (tokensOf parts ++ ts) =
      parts.flatMap (fun part ↦ lineStarts true part.tokens) ++ lineStarts true ts := by
  induction h with
  | nil => rfl
  | cons hpart _ ih =>
    rw [Tree.tokensOf_cons, List.append_assoc, Token.lineStarts_append (endsLine_of_part hpart), ih,
      List.flatMap_cons, List.append_assoc]

/-- The lines of parts in a row fall into groups, one for each order. -/
theorem exists_groups {parts : List Tree} {orders? : List (Option Order)}
    (h : List.Forall₂ Part parts orders?) (ts : List Token) :
    ∃ groups : List (List UInt32),
      lineStarts true (tokensOf parts ++ ts) = groups.flatten ++ lineStarts true ts ∧
        List.Forall₂ (fun group order ↦ group.length = order.command.lineCount ∧
          group.head? = some order.line) groups orders?.reduceOption := by
  induction h with
  | nil => exact ⟨[], rfl, .nil⟩
  | @cons part order? parts orders? hpart _ ih =>
    obtain ⟨groups, hstarts, hgroups⟩ := ih
    rw [Tree.tokensOf_cons, List.append_assoc, Token.lineStarts_append (endsLine_of_part hpart),
      hstarts]
    cases order? with
    | none =>
      rw [lineStarts_blank hpart, List.nil_append, List.reduceOption_cons_of_none]
      exact ⟨groups, rfl, hgroups⟩
    | some order =>
      obtain ⟨others, hown, hlength⟩ := lineStarts_of_part hpart
      rw [List.reduceOption_cons_of_some, hown]
      exact ⟨(order.line :: others) :: groups, (List.append_assoc ..).symm,
        .cons ⟨hlength, rfl⟩ hgroups⟩

/-- The lines of the orders are among those of their groups, in order. -/
theorem sublist_flatten {groups : List (List Nat)} {orders : List Order}
    (h : List.Forall₂ (fun group order ↦ group.length = order.command.lineCount ∧
      group.head? = some order.line.toNat) groups orders) :
    (orders.map (·.line.toNat)).Sublist groups.flatten := by
  induction h with
  | nil => exact List.Sublist.refl _
  | @cons group order _ _ hfirst _ ih =>
    obtain ⟨others, rfl⟩ := List.head?_eq_some_iff.mp hfirst.2
    exact (ih.trans (List.sublist_append_right others _)).cons_cons _

end Order

/-! ### Readings of bytes -/

/-- Of the lines that hold anything, the orders of a file take the next ones in turn: one for each
order, or as many as a setup order has items and two more. So the lines of orders increase. -/
theorem readBytes_lines {bytes : List UInt8} {options : Options} {reading : Reading}
    (hbytes : bytes.count 0x0A < 2 ^ 32 - 1) (h : readBytes bytes options = .ok reading) :
    (∃ groups : List (List Nat),
        groups.flatten = Token.filledLines (Utf8.decode bytes) ∧
          List.Forall₂ (fun group order ↦ group.length = order.command.lineCount ∧
            group.head? = some order.line.toNat) groups reading.orders) ∧
      reading.orders.Pairwise (·.line < ·.line) := by
  have hended := Token.prepare_scan_ended (Utf8.decode bytes)
  have htokens := Grammar.tokens_of_fileTree? hended (readTokens_eq_ok_iff.mp h).1
  obtain ⟨parts, orders?, f, htree, hf, hparts, horders, -⟩ := Order.parts_of_reading h
  obtain ⟨groups, hstarts, hgroups⟩ := Order.exists_groups hparts [f]
  rw [htree, Tree.tokens_node, Tree.tokensOf_append, Tree.tokensOf_cons, Tree.tokens_leaf,
    Tree.tokensOf_nil, List.append_nil] at htokens
  rw [htokens, Token.lineStarts_eof hf, List.append_nil] at hstarts
  have hflatten : (groups.map (·.map (·.toNat))).flatten =
      Token.filledLines (Utf8.decode bytes) := by
    rw [← List.map_flatten, ← hstarts]
    exact Token.lineStarts_prepare_scan (by rwa [Utf8.count_newline_decode])
  have hnumbers : List.Forall₂ (fun group order ↦ group.length = order.command.lineCount ∧
      group.head? = some order.line.toNat) (groups.map (·.map (·.toNat))) reading.orders := by
    rw [horders, List.forall₂_map_left_iff]
    refine hgroups.imp fun group order hgroup ↦ ?_
    rw [List.length_map, List.head?_map, hgroup.2]
    exact ⟨hgroup.1, rfl⟩
  refine ⟨⟨_, hflatten, hnumbers⟩, ?_⟩
  have hsorted := Token.pairwise_filledLines (Utf8.decode bytes)
  rw [← hflatten] at hsorted
  have hlines := hsorted.sublist (Order.sublist_flatten hnumbers)
  rw [List.pairwise_map] at hlines
  exact hlines.imp UInt32.lt_iff_toNat_lt.mpr

/-- A setup order of one item between a comment and another order, with an empty line in it. -/
def shipFile : List UInt8 :=
  "; fleet\nsetup 1 (2,3,4) ship transfer\n5 fuel\n\nend\nsurvey 6".toList.map
    (UInt8.ofNat ·.toNat)

theorem readBytes_lines_shipFile :
    ∃ reading, readBytes shipFile .standard = .ok reading ∧
      reading.orders.map (·.line) = [2, 6] ∧
      ∃ groups : List (List Nat), groups.flatten = [2, 3, 5, 6] ∧
        List.Forall₂ (fun group order ↦ group.length = order.command.lineCount ∧
          group.head? = some order.line.toNat) groups reading.orders := by
  have hcomputed : (readBytes shipFile .standard).toOption.map (·.orders.map (·.line)) =
      some [2, 6] := by decide +kernel
  have hfilled : Token.filledLines (Utf8.decode shipFile) = [2, 3, 5, 6] := by decide +kernel
  cases hread : readBytes shipFile .standard with
  | error rejection =>
    rw [hread] at hcomputed
    cases hcomputed
  | ok reading =>
    rw [hread] at hcomputed
    have hlines := (readBytes_lines (by decide +kernel) hread).1
    rw [hfilled] at hlines
    exact ⟨reading, rfl, Option.some.inj hcomputed, hlines⟩

end OrderFile
