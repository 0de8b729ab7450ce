import OrderFile.Proofs.Order.Values
import OrderFile.Proofs.Reading.Modes
import OrderFile.Proofs.Reading.Recovery

/-!
The values of the orders of a file. Whatever bytes are read and in either mode, the orders that are
not unknown are the `order` nodes of the tree one for one, and each has the values that the tokens
under its node carry.
-/

set_option autoImplicit false

namespace OrderFile

open OrderFile.Tree (leaf node tokensOf)

/-- Whether a tree is the node of an order, which has the values that the tokens of the node
carry. -/
def Order.ReadFrom (tree : Tree) (order : Order) : Prop :=
  ∃ rule, tree = node "order" [rule] ∧ order.command.ReadFrom rule

namespace Order

/-- The parts that are nodes of orders, and the orders that are not unknown. -/
theorem readFrom_of_parts {parts : List Tree} {orders? : List (Option Order)}
    (h : List.Forall₂ Part parts orders?) (hs : ∀ t ∈ tokensOf parts, t.Suited) :
    List.Forall₂ ReadFrom (parts.filter (·.isRule "order"))
      (orders?.reduceOption.filter (!·.isUnknown)) := by
  induction h with
  | nil => exact .nil
  | @cons part order? parts orders? hpart _ ih =>
    rw [Tree.tokensOf_cons] at hs
    obtain ⟨hown, hothers⟩ := List.forall_mem_append.mp hs
    have hrest := ih hothers
    cases hpart with
    | @command k w trees command hk hwritten hfits =>
      have hknown := isUnknown_of_part (.command hk hwritten hfits)
      rw [List.filter_cons_of_pos rfl, List.reduceOption_cons_of_some,
        List.filter_cons_of_pos (by rw [hknown]; rfl)]
      rw [Tree.tokens_node, Tree.tokensOf_cons, Tree.tokensOf_nil, List.append_nil,
        Tree.tokens_node] at hown
      exact .cons ⟨_, rfl, Command.readFrom_of_written hwritten hk hown⟩ hrest
    | blank he =>
      rw [List.filter_cons_of_neg (by simp [Tree.isRule, Tree.rule?]),
        List.reduceOption_cons_of_none]
      exact hrest
    | unknown hts he =>
      rw [List.filter_cons_of_neg (by simp [Tree.isRule, Tree.rule?]),
        List.reduceOption_cons_of_some,
        List.filter_cons_of_neg (by simp [isUnknown, Command.isUnknown])]
      exact hrest

/-- A file that is read consists of parts of tokens that carry what their kinds ask for. -/
theorem exists_suited_parts {bytes : List UInt8} {options : Options} {reading : Reading}
    (h : readBytes bytes options = .ok reading) :
    ∃ parts orders? f, reading.tree = node "orders" (parts ++ [leaf f]) ∧
      List.Forall₂ Part parts orders? ∧ (∀ t ∈ tokensOf parts, t.Suited) ∧
      reading.orders = orders?.reduceOption := by
  have hended := Token.prepare_scan_ended (Utf8.decode bytes)
  have htokens := Grammar.tokens_of_fileTree? hended (readTokens_eq_ok_iff.mp h).1
  have hsuited := @Token.suited_of_mem_prepare_scan (Utf8.decode bytes)
  obtain ⟨parts, orders?, f, htree, -, hparts, horders, -⟩ := parts_of_reading h
  rw [← htokens, htree, Tree.tokens_node, Tree.tokensOf_append] at hsuited
  exact ⟨parts, orders?, f, htree, hparts, (List.forall_mem_append.mp hsuited).1, horders⟩

end Order

/-- The orders of a file that are not unknown are the `order` nodes of its tree, one for one and in
the same order, and their values are those of the tokens under these nodes. -/
theorem readBytes_values {bytes : List UInt8} {options : Options} {reading : Reading}
    (h : readBytes bytes options = .ok reading) :
    List.Forall₂ Order.ReadFrom (reading.tree.children.filter (·.isRule "order"))
      (reading.orders.filter (!·.isUnknown)) := by
  obtain ⟨parts, orders?, f, htree, hparts, hsuited, horders⟩ := Order.exists_suited_parts h
  have hend : [leaf f].filter (·.isRule "order") = [] := rfl
  rw [htree, horders, Tree.children, List.filter_append, hend, List.append_nil]
  exact Order.readFrom_of_parts hparts hsuited

/-- A research trade, a setup order and a line that is no order. -/
def mixedFile : List UInt8 :=
  "sell 1 tl-3 2.5\noops\nsetup 4 (5,6,7,8) SHIP transfer\n9 unsk\nend\n".toList.map
    (UInt8.ofNat ·.toNat)

theorem readBytes_values_mixedFile :
    ∃ reading, readBytes mixedFile ⟨false, false⟩ = .ok reading ∧
      reading.orders.map (·.isUnknown) = [false, true, false] ∧
      List.Forall₂ Order.ReadFrom (reading.tree.children.filter (·.isRule "order"))
        (reading.orders.filter (!·.isUnknown)) := by
  have hcomputed : (readBytes mixedFile ⟨false, false⟩).toOption.map
      (·.orders.map (·.isUnknown)) = some [false, true, false] := by decide +kernel
  cases hread : readBytes mixedFile ⟨false, false⟩ with
  | error rejection =>
    rw [hread] at hcomputed
    cases hcomputed
  | ok reading =>
    rw [hread] at hcomputed
    exact ⟨reading, rfl, Option.some.inj hcomputed, readBytes_values hread⟩

end OrderFile
