import OrderFile.Proofs.Grammar.FirstLine
import OrderFile.Proofs.Order.Parts
import OrderFile.Proofs.Parse.Unread

/-!
What is left unread of tokens that are read. Reading stops at the first end token, which is the last
token of the tree, and it succeeds if nothing comes after that token or another end token does
(`readTokens_unread`). So tokens may stay unread behind two end tokens, and they do not if nothing
but end tokens comes after an end token.
-/

set_option autoImplicit false

namespace OrderFile

open OrderFile.Tree (leaf node tokensOf)
open Token (StaysEnded)

namespace Grammar

open Pattern

/-! ### No end token before the last one -/

theorem command_kinds (k : Keyword) : ∀ kind ∈ (command k).kinds, kind ≠ Token.Kind.eof := by
  cases k <;> decide

/-- A line holds no end token. -/
theorem kind_ne_eof_of_part {part : Tree} {order? : Option Order} (h : Order.Part part order?) :
    ∀ t ∈ part.tokens, t.kind ≠ .eof := by
  intro t ht
  cases h with
  | command hk hwritten hfits => exact command_kinds _ t.kind (kind_mem_of_fits hfits t ht)
  | blank he =>
    obtain rfl := List.mem_singleton.mp ht
    rw [he]
    exact Token.Kind.noConfusion
  | @unknown first e others hothers he =>
    rw [Tree.tokens_node, Tree.tokensOf_append, tokensOf_map_leaf, List.mem_append] at ht
    obtain hline | hlast := ht
    · exact (hothers t hline).2
    · obtain rfl : t = e := by simpa using hlast
      rw [he]
      exact Token.Kind.noConfusion

/-- No part of a file holds an end token. -/
theorem kind_ne_eof_of_parts {parts : List Tree} {orders? : List (Option Order)}
    (h : List.Forall₂ Order.Part parts orders?) : ∀ t ∈ tokensOf parts, t.kind ≠ .eof := by
  induction h with
  | nil => exact List.forall_mem_nil _
  | cons hpart _ ih =>
    rw [Tree.tokensOf_cons]
    exact List.forall_mem_append.mpr ⟨kind_ne_eof_of_part hpart, ih⟩

/-! ### What a parse leaves -/

/-- Taking trees in the root leaves only the root open. -/
theorem frames_of_took {p later : Parse} {frame : Parse.Frame} {trees : List Tree}
    (hframes : p.frames = [frame]) (h : later.bare = p.bare.took trees) :
    ∃ last, later.frames = [last] := by
  have hlength := congrArg (·.frames.length) h
  simp only [Parse.bare, Parse.took, hframes, List.length_map, List.map_cons, List.map_nil,
    List.modifyHead_cons, List.length_singleton] at hlength
  exact List.length_eq_one_iff.mp hlength

/-- A parse of a file that is read leaves what comes after the end token. -/
theorem rest_orders {stop : Bool} {ts rest : List Token} {trees : List Tree}
    (h : fileFront? stop ts = some (trees, rest))
    (hend : rest.head?.all (·.kind == .eof) = true) :
    (orders stop (Parse.start ts)).2.rest = rest := by
  have hbody := fileBody_agrees stop ts
  rw [h] at hbody
  obtain ⟨hsuccess, hbare⟩ := hbody
  obtain ⟨last, hlast⟩ := frames_of_took rfl hbare
  have hrest := rest_of_took hbare (by rw [Parse.rest_enter, rest_start]; exact fileFront?_append h)
  obtain ⟨r, hclose, hr⟩ := Parse.close_of_atEnd hlast (by rw [Parse.atEnd_eq, hrest]; exact hend)
  have horders : orders stop (Parse.start ts) = (true, r) := by
    rw [← hclose, ← hsuccess]
    rfl
  rw [horders, hr, hrest]

end Grammar

open Grammar Grammar.Pattern
open Parse (LeavesUnread leavesUnread_iff forall_leavesUnread_iff)

/-- Whatever the tokens, a root rule that succeeds can leave any rest of them that is empty or
starts with an end token, and no other rest. So it never leaves a token that is no end token exactly
if none stands behind an end token. Tokens that are read make up the tree of the reading up to the
first end token, and stay unread behind it; all of those are end tokens in the same case, and
otherwise only the next one has to be. -/
theorem readTokens_unread (ts : List Token) :
    (∀ unread, LeavesUnread ts unread ↔
        unread <:+ ts ∧ unread.head?.all (·.kind == .eof) = true) ∧
      ((∀ unread, LeavesUnread ts unread → ∀ t ∈ unread, t.kind = .eof) ↔ StaysEnded ts) ∧
      ∀ tokens options reading, Token.prepare tokens = ts →
        readTokens tokens options = .ok reading →
          ∃ front e unread, ts = front ++ e :: unread ∧ (∀ t ∈ front, t.kind ≠ .eof) ∧
            e.kind = .eof ∧ reading.tree.tokens = front ++ [e] ∧
            (parseTokens tokens options).rest = unread ∧
            unread.head?.all (·.kind == .eof) = true ∧
            ((∀ t ∈ unread, t.kind = .eof) ↔ StaysEnded ts) := by
  refine ⟨fun unread ↦ leavesUnread_iff, forall_leavesUnread_iff, ?_⟩
  rintro tokens options reading rfl hread
  obtain ⟨htree, -, -⟩ := readTokens_eq_ok_iff.mp hread
  obtain ⟨lines, e, rest, hlines, he, hend, htree⟩ := fileTree?_iff_linesFront?.mp htree
  obtain ⟨orders?, hparts⟩ := parts_of_linesFront? hlines
  have hfront := kind_ne_eof_of_parts hparts
  have hts := linesFront?_append hlines
  refine ⟨tokensOf lines, e, rest, hts, hfront, he, ?_, ?_, hend, ?_⟩
  · rw [htree, Tree.tokens_node, Tree.tokensOf_append]
    rfl
  · have hfile : fileFront? options.stopOnFirstError (Token.prepare tokens) =
        some (lines ++ [leaf e], rest) := andThen_of_eq_some hlines (if_pos (beq_iff_eq.mpr he))
    exact rest_orders hfile hend
  · rw [hts]
    exact (Token.staysEnded_append_iff hfront he).symm

/-- A word behind two end tokens. -/
def endedTwice : List Token :=
  [⟨1, .eof, "", .none⟩, ⟨1, .eof, "", .none⟩, ⟨1, .text, "survey", .text "survey"⟩]

/-- The word can be left by a root rule, and it is left unread when the tokens are read. -/
theorem readTokens_unread_endedTwice :
    LeavesUnread endedTwice endedTwice.tail ∧ Token.prepare endedTwice = endedTwice ∧
      (∃ reading, readTokens endedTwice {} = .ok reading) ∧
      (parseTokens endedTwice {}).rest = endedTwice.tail ∧
      ¬ ∀ t ∈ endedTwice.tail, t.kind = .eof := by
  obtain ⟨hleaves, -, hread⟩ := readTokens_unread endedTwice
  have hprepared : Token.prepare endedTwice = endedTwice := by decide +kernel
  have hcomputed : (readTokens endedTwice {}).toOption.map (·.orders.length) = some 0 := by
    decide +kernel
  obtain ⟨reading, hreading, -⟩ := Parse.exists_ok_of_toOption hcomputed
  obtain ⟨front, e, unread, hts, hfront, -, -, hrest, -, -⟩ :=
    hread endedTwice {} reading hprepared hreading
  have hleft : unread = endedTwice.tail := by
    cases front with
    | nil => rw [hts]; rfl
    | cons t front =>
      have hend := hfront t List.mem_cons_self
      rw [← (List.cons.inj hts).1] at hend
      exact absurd rfl hend
  exact ⟨(hleaves _).mpr ⟨List.suffix_cons _ _, rfl⟩, hprepared, ⟨reading, hreading⟩,
    hrest.trans hleft, by decide⟩

end OrderFile
