import OrderFile.Proofs.Order.Parts
import OrderFile.Proofs.Token.Ended

/-!
Files are never rejected when lines that are no orders are kept, and in either mode no token of a
file that is read gets lost. Whatever a rule that fails has tried, the rest of the stream still ends
with a line end, so that the line can be kept as a whole.
-/

set_option autoImplicit false

namespace OrderFile

open OrderFile.Tree (leaf node tokensOf)
open Token (Ended EndsLine)

/-! ### Parts end lines -/

/-- The last child of a command is the end of its line. -/
theorem Command.getLast?_of_written {trees : List Tree} {command : Command}
    (h : command.Written trees) : ∃ e, trees.getLast? = some (leaf e) ∧ e.kind = .eol := by
  cases h <;> simp [List.getLast?_cons, *]

/-- Every part of a file ends with a line end. -/
theorem Order.endsLine_of_part {part : Tree} {order? : Option Order} (h : Part part order?) :
    EndsLine part.tokens := by
  cases h with
  | @command k w trees command hk hwritten _ =>
    obtain ⟨e, hlast, he⟩ := Command.getLast?_of_written hwritten
    have hsplit := (List.dropLast_append_getLast? _ hlast).symm
    rw [Tree.tokens_node, Tree.tokensOf_cons, Tree.tokens_node, Tree.tokensOf_nil,
      List.append_nil, hsplit, Tree.tokensOf_append]
    exact (Token.endsLine_singleton he).append_left _
  | blank he => exact Token.endsLine_singleton he
  | unknown hts he =>
    rw [Tree.tokens_node, Tree.tokensOf_append]
    exact (Token.endsLine_singleton he).append_left _

namespace Grammar

open Pattern

/-! ### Every line is read -/

theorem skipFront?_of_ended {ts : List Token} (h : Ended false ts) :
    ∃ trees e rest, skipFront? ts = some (trees, e :: rest) ∧ e.kind = .eol := by
  induction ts with
  | nil => cases h
  | cons t ts ih =>
    rw [skipFront?]
    split
    · next hstop =>
      cases h with
      | cons ht hts =>
        have heol : t.kind = .eol := by simpa [ht] using hstop
        exact ⟨[], t, ts, rfl, heol⟩
    · next hstop =>
      have hother : (t.kind == .eol) = false := by simp_all
      cases h with
      | cons ht hts =>
        rw [hother] at hts
        obtain ⟨trees, e, rest, hskip, he⟩ := ih hts
        exact ⟨leaf t :: trees, e, rest, by rw [hskip]; rfl, he⟩

/-- Tokens that end well have a line that can be read as no order. -/
theorem unknownFront?_of_ended {ts : List Token} (h : Ended false ts) :
    ∃ trees rest, unknownFront? ts = some (trees, rest) := by
  obtain ⟨trees, e, rest, hskip, he⟩ := skipFront?_of_ended h
  refine ⟨[node "unknown" (trees ++ [leaf e])], rest, ?_⟩
  rw [unknownFront?, hskip]
  simp [andThen, eolFront?, frontToken?, he]

/-- A line is read wherever tokens are left before the end. -/
theorem lineFront?_of_ended {closed : Bool} {ts : List Token} (h : Ended closed ts)
    (hmore : ¬ ts.head?.any (·.kind == .eof) = true) :
    ∃ trees rest, lineFront? false ts = some (trees, rest) := by
  rw [lineFront?]
  cases orderFront? ts with
  | some read => exact ⟨read.1, read.2, rfl⟩
  | none =>
    cases eolFront? ts with
    | some read => exact ⟨read.1, read.2, rfl⟩
    | none =>
      refine unknownFront?_of_ended ?_
      cases h with
      | eof hf => simp [hf] at hmore
      | cons ht hts => exact .cons ht hts

/-- What is left after a line still ends well. -/
theorem lineFront?_ended {stop closed : Bool} {ts rest : List Token} {trees : List Tree}
    (hts : Ended closed ts) (h : lineFront? stop ts = some (trees, rest)) : Ended true rest := by
  obtain ⟨part, order?, rfl, hpart⟩ := part_of_lineFront? h
  rw [lineFront?_append h, Tree.tokensOf_cons, Tree.tokensOf_nil, List.append_nil] at hts
  exact hts.drop (Order.endsLine_of_part hpart)

/-- All lines are read, up to the end token. -/
theorem linesFront?_of_ended {closed : Bool} {ts : List Token} (h : Ended closed ts) :
    ∃ trees f, linesFront? false ts = some (trees, [f]) ∧ f.kind = .eof := by
  by_cases heof : ts.head?.any (·.kind == .eof) = true
  · rw [linesFront?_of_eof heof]
    cases h with
    | @eof f hf => exact ⟨[], f, rfl, hf⟩
    | cons ht hts => simp [ht] at heof
  · obtain ⟨trees, rest, hline⟩ := lineFront?_of_ended h heof
    have hshorter := lineFront?_length_lt hline
    obtain ⟨others, f, hothers, hf⟩ := linesFront?_of_ended (lineFront?_ended h hline)
    refine ⟨trees ++ others, f, ?_, hf⟩
    rw [linesFront?_of_not_eof heof, hline]
    simp [andThen, hothers]
termination_by ts.length

theorem fileTree?_of_ended {closed : Bool} {ts : List Token} (h : Ended closed ts) :
    ∃ tree, fileTree? false ts = some tree := by
  obtain ⟨lines, f, hlines, hf⟩ := linesFront?_of_ended h
  exact ⟨_, fileTree?_of_linesFront? hlines hf⟩

/-- The tree of a file holds all of its tokens. -/
theorem tokens_of_fileTree? {stop closed : Bool} {ts : List Token} {tree : Tree}
    (hts : Ended closed ts) (h : fileTree? stop ts = some tree) : tree.tokens = ts := by
  obtain ⟨lines, f, rest, hlines, hf, rfl⟩ := linesFront?_of_fileTree? h
  have happend := linesFront?_append hlines
  have hrest : rest = [] := (happend ▸ hts).eq_nil_of_eof hf
  rw [hrest] at happend
  rw [happend, Tree.tokens_node, Tree.tokensOf_append]
  rfl

end Grammar

/-! ### Readings of bytes -/

/-- A token stream with a tree is read. -/
theorem exists_readTokens_of_fileTree? {tokens : List Token} {options : Options} {tree : Tree}
    (h : Grammar.fileTree? options.stopOnFirstError (Token.prepare tokens) = some tree) :
    ∃ reading, readTokens tokens options = .ok reading :=
  ⟨⟨(Order.allOfTree tree).1, (Order.allOfTree tree).2, tree, _⟩,
    readTokens_eq_ok_iff.mpr ⟨h, rfl, rfl⟩⟩

/-- Reading that keeps lines that are no orders never fails. In either mode, the tokens of the tree
are those of the prepared stream, and each of them lies in an order, in a line that is none, is the
end of an empty line or the end of the file. -/
theorem readBytes_recovers (bytes : List UInt8) :
    (∀ emitTrace, ∃ reading, readBytes bytes ⟨false, emitTrace⟩ = .ok reading) ∧
      ∀ options reading, readBytes bytes options = .ok reading →
        reading.tree.tokens = Token.prepare (Token.ofBytes bytes) ∧
          ∃ parts f, reading.tree = node "orders" (parts ++ [leaf f]) ∧ f.kind = .eof ∧
            ∀ part ∈ parts,
              (∃ children, part = node "order" children) ∨
                (∃ children, part = node "unknown" children) ∨
                ∃ e, part = leaf e ∧ e.kind = .eol := by
  have hended := Token.prepare_scan_ended (Utf8.decode bytes)
  constructor
  · intro emitTrace
    obtain ⟨tree, htree⟩ := Grammar.fileTree?_of_ended hended
    exact exists_readTokens_of_fileTree? htree
  · intro options reading h
    refine ⟨Grammar.tokens_of_fileTree? hended (readTokens_eq_ok_iff.mp h).1, ?_⟩
    obtain ⟨parts, orders?, f, htree, hf, hparts, -, -⟩ := Order.parts_of_reading h
    refine ⟨parts, f, htree, hf, fun part hpart ↦ ?_⟩
    obtain ⟨order?, hwritten⟩ := Order.part_of_mem hparts hpart
    cases hwritten with
    | command => exact .inl ⟨_, rfl⟩
    | blank he => exact .inr (.inr ⟨_, rfl, he⟩)
    | unknown => exact .inr (.inl ⟨_, rfl⟩)

/-- A word and a byte that belongs to no character: the word is kept. -/
theorem readBytes_recovers_brokenByte :
    ∃ reading, readBytes [0x6D, 0xFF] ⟨false, false⟩ = .ok reading ∧
      reading.tree.tokens.map (·.kind) = [.text, .eol, .eof] := by
  obtain ⟨reading, hread⟩ := (readBytes_recovers [0x6D, 0xFF]).1 false
  have htokens := ((readBytes_recovers [0x6D, 0xFF]).2 ⟨false, false⟩ reading hread).1
  refine ⟨reading, hread, ?_⟩
  rw [htokens]
  decide +kernel

end OrderFile
