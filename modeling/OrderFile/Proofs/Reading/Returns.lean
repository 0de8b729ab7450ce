import OrderFile.Proofs.Reading.Reworded
import OrderFile.Proofs.Token.Reended

/-!
Files whose lines end with a carriage return and a newline. They come to the same as files whose
lines end with a newline, but for a carriage return at the end of texts whose quote is not closed:
`readText_withReturns`. Both files are compared with one stream in which each of these texts ends
with a newline, which stands for what comes at its end.
-/

set_option autoImplicit false

namespace OrderFile

open OrderFile.Tree (leaf node)

theorem Token.retells_reend (ending : String) : Retells (reend ending) (reended ending) id where
  kind t := by
    rw [reend]
    split <;> rfl
  integer? t := by
    rw [reend]
    split
    · exact integer?_mapText _ t
    · rfl
  word t ht := by rw [reend_of_ne (by simp [ht])]
  line t := by
    rw [reend]
    split <;> rfl
  number? t := by
    rw [reend]
    split
    · exact number?_mapText _ t
    · rfl
  material t ht := by rw [reend_of_ne ht]
  text? t ht := by rw [reend_of_kind ht, text?_mapText]
  said_empty := rfl

namespace Order

/-- What is kept of a line that is no order ends with what the line ends with. -/
theorem unknownText_reend {stop : Bool} {ts : List Token} {tree part : Tree}
    (hts : ∀ t ∈ ts, t.OneLine)
    (h : Grammar.fileTree? stop (Token.extendOpen "\n" ts) = some tree)
    (hpart : part ∈ tree.children) (hunknown : part.isRule "unknown" = true) (ending : String) :
    unknownText (part.map (Token.reend ending)) = reended ending (unknownText part) := by
  obtain ⟨parts, f, rest, hlines, hf, rfl⟩ := Grammar.linesFront?_of_fileTree? h
  obtain ⟨orders?, hparts⟩ := Grammar.parts_of_linesFront? hlines
  have hmem : part ∈ parts := by
    rcases List.mem_append.mp hpart with hmem | hlast
    · exact hmem
    · obtain rfl := List.mem_singleton.mp hlast
      cases hunknown
  obtain ⟨order?, hread⟩ := part_of_mem hparts hmem
  obtain ⟨front, back, hstream, -⟩ := Grammar.exists_line_of_mem hlines hmem
  cases hread with
  | command => cases hunknown
  | blank => cases hunknown
  | @unknown t e line hline he =>
    rw [unknownText_map (Token.retells_reend ending), filter_tokens_line hline he,
      unknownText_line hline he]
    rw [Tree.tokens_node, Tree.tokensOf_append, Grammar.tokensOf_map_leaf, List.append_assoc]
      at hstream
    refine Token.intercalate_reend ?_ (fun s hs ↦ (hline s hs).1) (fun s hs hkind ↦ ?_) ending
    · have hchain := Token.chain_extendOpen hts
      rw [hstream] at hchain
      exact hchain.right_of_append.left_of_append
    · have hs' : s ∈ Token.extendOpen "\n" ts := by
        rw [hstream]
        exact List.mem_append_right _ (List.mem_append_left _ hs)
      exact (hts s ((Token.mem_extendOpen hs').resolve_right hkind)).lexeme (hline s hs).1

end Order

/-- Carriage returns before the newlines of a text change nothing in its prepared tokens, except that
a quoted text ends with one where its quote is still open. So the text is accepted and rejected as
before, with the same orders up to such a carriage return at the end of their free texts. -/
theorem readText_withReturns (text : List Char) :
    Token.prepare (Token.scan (Token.withReturns text)) =
        Token.extendOpen "\r" (Token.prepare (Token.scan text)) ∧
      ∀ options, SameOutcome
        (Order.SameButTexts fun words other ↦ other = words ∨ other = words ++ "\r")
        (readText text options) (readText (Token.withReturns text) options) := by
  have htokens := Token.prepare_scan_withReturns text
  refine ⟨htokens, fun options ↦ ?_⟩
  have hlines : ∀ t ∈ Token.prepare (Token.scan text), t.OneLine :=
    fun t ht ↦ Token.oneLine_of_mem_scanFrom (Token.mem_of_mem_prepare ht)
  have hboth {others : List Token} {ending : String}
      (h : Token.prepare others = Token.extendOpen ending (Token.prepare (Token.scan text))) :
      SameOutcome (fun order other ↦ other = order.retell (reended ending) id)
        (readTokens (Token.extendOpen "\n" (Token.prepare (Token.scan text))) options)
        (readTokens others options) := by
    refine readTokens_map (Token.retells_reend ending) ?_ options fun tree htree part hpart hrule ↦
      ?_
    · rw [Token.prepare_extendOpen, Token.map_reend_extendOpen hlines, h]
    · rw [Token.prepare_extendOpen] at htree
      exact Order.unknownText_reend hlines htree hpart hrule ending
  have htext := @hboth _ "" (Token.extendOpen_empty _).symm
  refine (htext.symm id).trans (hboth htokens) fun horder hother ↦ ?_
  rw [horder, hother]
  exact Order.sameButTexts_retell reended_return _

example :
    (readText (Token.withReturns "name 1 \"Ada\nname 2 \"Bea\"\n".toList) ⟨true, false⟩).toOption.map
      (·.orders.map (·.command)) = some [.name 1 "Ada\r", .name 2 "Bea"] := by
  decide +kernel

end OrderFile
