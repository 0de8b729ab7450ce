import OrderFile.Proofs.Grammar.Predictive
import OrderFile.Proofs.Grammar.Published
import OrderFile.Proofs.Reading.Recovery

/-!
Reading that stops at the first line that is no order accepts the published grammar and nothing
else. A tree that is read is a derivation, since every line of it fits the pattern of its rule; and
a derivation is read, since the first word of a line tells its rule and one token of lookahead
settles every choice in it.
-/

set_option autoImplicit false

namespace OrderFile

open OrderFile.Tree (leaf node tokensOf)
open Token (Ended)

/-! ### The rule of a line -/

theorem Token.Kind.mem_all (k : Token.Kind) : k ∈ all := by
  cases k <;> decide

namespace Grammar

open Pattern

/-- The tree of an order starts with a word that tells its rule. -/
theorem head_of_fits {k : Keyword} {trees : List Tree} (h : (command k).Fits trees) :
    ∃ w ts, tokensOf trees = w :: ts ∧ w.kind = .text ∧ Keyword.ofToken? w = some k := by
  obtain ⟨_, hbody, rfl⟩ := h
  obtain ⟨w, back, rfl, hw, -⟩ := fits_word_cons_iff.mp hbody
  refine ⟨w, tokensOf back, ?_, Token.kind_of_spells hw, Keyword.ofToken?_of_spells hw⟩
  rw [Tree.tokensOf_cons, Tree.tokens_node, Tree.tokensOf_nil, List.append_nil]
  rfl

/-! ### What is derived is read -/

/-- An order that fits its pattern is read off its own tokens, whatever comes after them. -/
theorem orderFront?_of_fits {k : Keyword} {children : List Tree}
    (h : (command k).Fits children) (rest : List Token) :
    orderFront? (tokensOf children ++ rest) = some ([node "order" children], rest) := by
  obtain ⟨w, ts, hts, -, hk⟩ := head_of_fits h
  have hhead : (tokensOf children ++ rest).head?.bind Keyword.ofToken? = some k := by
    rw [hts]
    exact hk
  have hfront := @front?_of_fits _ _ _ rest (command_predictive k) h fun t _ ↦ t.kind.mem_all
  rw [orderFront?, hhead, Option.bind_some, hfront, Option.map_some]

/-- A line end starts no order. -/
theorem orderFront?_of_eol {e : Token} (he : e.kind = .eol) (rest : List Token) :
    orderFront? (e :: rest) = none := by
  have hnone : Keyword.ofToken? e = none := if_neg (by simp [he])
  rw [orderFront?, List.head?_cons, Option.bind_some, hnone]
  rfl

theorem lineFront?_of_fits {stop : Bool} {line : Tree} (h : linePattern.Fits [line])
    (rest : List Token) : lineFront? stop (line.tokens ++ rest) = some ([line], rest) := by
  rcases fits_linePattern_iff.mp h with ⟨k, children, hk, heq⟩ | ⟨e, he, heq⟩
  · obtain rfl := List.singleton_inj.mp heq
    rw [lineFront?, Tree.tokens_node, orderFront?_of_fits hk, Option.some_or]
  · obtain rfl := List.singleton_inj.mp heq
    have heol : eolFront? (e :: rest) = some ([leaf e], rest) := if_pos (beq_iff_eq.mpr he)
    rw [lineFront?, Tree.tokens_leaf, List.singleton_append, orderFront?_of_eol he, heol]
    rfl

/-- A line does not start with the end token. -/
theorem not_eof_of_fits {line : Tree} (h : linePattern.Fits [line]) (rest : List Token) :
    ¬ (line.tokens ++ rest).head?.any (·.kind == .eof) = true := by
  rcases fits_linePattern_iff.mp h with ⟨k, children, hk, heq⟩ | ⟨e, he, heq⟩
  · obtain rfl := List.singleton_inj.mp heq
    obtain ⟨w, ts, hts, htext, -⟩ := head_of_fits hk
    simp [hts, htext]
  · obtain rfl := List.singleton_inj.mp heq
    simp [he]

theorem linesFront?_of_fits {stop : Bool} {lines : List Tree} {f : Token}
    (hlines : ∀ line ∈ lines, linePattern.Fits [line]) (hf : f.kind = .eof) :
    linesFront? stop (tokensOf lines ++ [f]) = some (lines, [f]) := by
  induction lines with
  | nil => exact linesFront?_of_eof (by simp [hf])
  | cons line lines ih =>
    obtain ⟨hline, hothers⟩ := List.forall_mem_cons.mp hlines
    rw [Tree.tokensOf_cons, List.append_assoc, linesFront?_of_not_eof (not_eof_of_fits hline _)]
    exact andThen_of_eq_some (lineFront?_of_fits hline _) (ih hothers)

/-- A tree that the published grammar derives is read off its own tokens. -/
theorem fileTree?_of_derives {stop : Bool} {tree : Tree}
    (h : Ebnf.Derives published (.name "orders") [tree]) :
    fileTree? stop tree.tokens = some tree := by
  obtain ⟨lines, f, hlines, hf, rfl⟩ := derives_published_iff.mp h
  rw [Tree.tokens_node, Tree.tokensOf_append, Tree.tokensOf_cons, Tree.tokens_leaf,
    Tree.tokensOf_nil, List.append_nil]
  exact fileTree?_of_linesFront? (linesFront?_of_fits hlines hf) hf

/-! ### What is read is derived -/

/-- A line that is read without keeping unknown ones fits its pattern. -/
theorem fits_of_lineFront? {ts rest : List Token} {trees : List Tree}
    (h : lineFront? true ts = some (trees, rest)) : linePattern.Fits trees := by
  rw [lineFront?, Option.or_eq_some_iff, Option.or_eq_some_iff] at h
  rw [fits_linePattern_iff]
  rcases h with horder | ⟨-, heol | ⟨-, hnone⟩⟩
  · obtain ⟨k, children, -, hcommand, rfl⟩ := orderFront?_eq_some horder
    exact .inl ⟨k, children, fits_of_front? hcommand, rfl⟩
  · obtain ⟨e, he, rfl, -⟩ := eolFront?_eq_some heol
    exact .inr ⟨e, he, rfl⟩
  · cases hnone

theorem fits_of_linesFront? {ts rest : List Token} {lines : List Tree}
    (h : linesFront? true ts = some (lines, rest)) :
    ∀ line ∈ lines, linePattern.Fits [line] := by
  by_cases heof : ts.head?.any (·.kind == .eof) = true
  · rw [linesFront?_of_eof heof] at h
    cases h
    simp
  · rw [linesFront?_of_not_eof heof] at h
    obtain ⟨first, middle, others, hline, hothers, rfl⟩ := andThen_eq_some h
    have hshorter := lineFront?_length_lt hline
    have hfits := fits_of_lineFront? hline
    obtain ⟨line, rfl⟩ := singleton_of_fits_linePattern hfits
    exact List.forall_mem_cons.mpr ⟨hfits, fits_of_linesFront? hothers⟩
termination_by ts.length

/-- A tree that is read so is one that the published grammar derives. -/
theorem derives_of_fileTree? {ts : List Token} {tree : Tree} (h : fileTree? true ts = some tree) :
    Ebnf.Derives published (.name "orders") [tree] := by
  obtain ⟨lines, f, rest, hlines, hf, rfl⟩ := linesFront?_of_fileTree? h
  exact derives_published_iff.mpr ⟨lines, f, fits_of_linesFront? hlines, hf, rfl⟩

/-- Reading that stops at the first line that is no order gives the derivation of the tokens. -/
theorem fileTree?_eq_some_iff {closed : Bool} {ts : List Token} (hts : Ended closed ts)
    {tree : Tree} :
    fileTree? true ts = some tree ↔
      Ebnf.Derives published (.name "orders") [tree] ∧ tree.tokens = ts := by
  constructor
  · intro h
    exact ⟨derives_of_fileTree? h, tokens_of_fileTree? hts h⟩
  · rintro ⟨hderives, rfl⟩
    exact fileTree?_of_derives hderives

end Grammar

/-! ### Readings of bytes -/

/-- Reading that stops at the first line that is no order accepts exactly the texts whose prepared
tokens are derived from `orders` in the published grammar; and the tree of a reading is their
derivation, the only one there is. -/
theorem readBytes_derives (bytes : List UInt8) (emitTrace : Bool) :
    ((∃ reading, readBytes bytes ⟨true, emitTrace⟩ = .ok reading) ↔
        ∃ tree, Ebnf.Derives Grammar.published (.name "orders") [tree] ∧
          tree.tokens = Token.prepare (Token.ofBytes bytes)) ∧
      ∀ reading, readBytes bytes ⟨true, emitTrace⟩ = .ok reading →
        ∀ tree, (Ebnf.Derives Grammar.published (.name "orders") [tree] ∧
          tree.tokens = Token.prepare (Token.ofBytes bytes)) ↔ tree = reading.tree := by
  have hended := Token.prepare_scan_ended (Utf8.decode bytes)
  constructor
  · constructor
    · rintro ⟨reading, h⟩
      exact ⟨reading.tree, (Grammar.fileTree?_eq_some_iff hended).mp (readTokens_eq_ok_iff.mp h).1⟩
    · rintro ⟨tree, htree⟩
      exact exists_readTokens_of_fileTree? ((Grammar.fileTree?_eq_some_iff hended).mpr htree)
  · intro reading h tree
    have hread := (readTokens_eq_ok_iff.mp h).1
    constructor
    · intro htree
      have hother := (Grammar.fileTree?_eq_some_iff hended).mpr htree
      exact Option.some.inj (hother.symm.trans hread)
    · rintro rfl
      exact (Grammar.fileTree?_eq_some_iff hended).mp hread

/-- A move order to an orbit. -/
def moveFile (orbit : String) : List UInt8 :=
  ("move 7 (1,2,3," ++ orbit ++ ")").toList.map (UInt8.ofNat ·.toNat)

/-- The tenth orbit is in the grammar, and the eleventh is not. -/
theorem readBytes_derives_moveFile :
    (∃ tree, Ebnf.Derives Grammar.published (.name "orders") [tree] ∧
        tree.tokens = Token.prepare (Token.ofBytes (moveFile "10"))) ∧
      ¬ ∃ tree, Ebnf.Derives Grammar.published (.name "orders") [tree] ∧
        tree.tokens = Token.prepare (Token.ofBytes (moveFile "11")) := by
  have haccepted : (readBytes (moveFile "10") ⟨true, false⟩).isOk = true := by decide +kernel
  have hrejected : (readBytes (moveFile "11") ⟨true, false⟩).isOk = false := by decide +kernel
  constructor
  · refine (readBytes_derives (moveFile "10") false).1.mp ?_
    cases hread : readBytes (moveFile "10") ⟨true, false⟩ with
    | error rejection =>
      rw [hread] at haccepted
      cases haccepted
    | ok reading => exact ⟨reading, rfl⟩
  · intro hderived
    obtain ⟨reading, hread⟩ := (readBytes_derives (moveFile "11") false).1.mpr hderived
    rw [hread] at hrejected
    cases hrejected

end OrderFile
