import OrderFile.Proofs.Grammar.Reworded
import OrderFile.Proofs.Order.Reworded
import OrderFile.Proofs.Reading.Recovery

/-!
Readings of tokens that are told in other words. Two readings come to the same if both reject at one
place, or both find the same orders with the same complaints, up to a relation of single orders.
`readTokens_map` says that a stream comes to the same as the stream told in other words.
-/

set_option autoImplicit false

namespace OrderFile

/-- Whether two readings fail at one place, or come to related orders and the same complaints. -/
def SameOutcome (related : Order → Order → Prop) :
    Except Rejection Reading → Except Rejection Reading → Prop
  | .ok reading, .ok other =>
    List.Forall₂ related reading.orders other.orders ∧ reading.errors = other.errors
  | .error rejection, .error other => rejection.fault.place = other.fault.place
  | _, _ => False

namespace SameOutcome

variable {related others both : Order → Order → Prop}
  {first second third : Except Rejection Reading}

/-- Two relations of orders in a row relate them through those between. -/
theorem forall₂_trans {orders middle last : List Order} (h : List.Forall₂ related orders middle)
    (hother : List.Forall₂ others middle last)
    (hboth : ∀ {a b c}, related a b → others b c → both a c) : List.Forall₂ both orders last := by
  induction h generalizing last with
  | nil =>
    cases hother
    exact .nil
  | cons hfirst _ ih =>
    cases hother with
    | cons hsecond hrest => exact .cons (hboth hfirst hsecond) (ih hrest)

/-- Outcomes that are the same are so the other way around. -/
theorem symm (h : SameOutcome related first second)
    (hboth : ∀ {a b}, related a b → both b a) : SameOutcome both second first := by
  cases first with
  | error rejection =>
    cases second with
    | error other => exact Eq.symm h
    | ok other => exact h
  | ok reading =>
    cases second with
    | error other => exact h
    | ok other => exact ⟨h.1.flip.imp fun _ _ ↦ hboth, h.2.symm⟩

/-- Outcomes that are the same as others are the same as what these are. -/
theorem trans (h : SameOutcome related first second) (hother : SameOutcome others second third)
    (hboth : ∀ {a b c}, related a b → others b c → both a c) : SameOutcome both first third := by
  cases second with
  | error rejection =>
    cases first with
    | ok reading => exact h.elim
    | error other =>
      cases third with
      | ok reading => exact hother.elim
      | error last => exact Eq.trans h hother
  | ok reading =>
    cases first with
    | error rejection => exact h.elim
    | ok other =>
      cases third with
      | error rejection => exact hother.elim
      | ok last => exact ⟨forall₂_trans h.1 hother.1 hboth, h.2.trans hother.2⟩

end SameOutcome

/-- A stream whose tokens are told in other words comes to the same, with the free texts in other
words. -/
theorem readTokens_map {f : Token → Token} {said : String → String} (hf : Token.Retells f said id)
    {tokens others : List Token} (h : Token.prepare others = (Token.prepare tokens).map f)
    (options : Options)
    (htext : ∀ tree, Grammar.fileTree? options.stopOnFirstError (Token.prepare tokens) = some tree →
      ∀ part ∈ tree.children, part.isRule "unknown" = true →
        Order.unknownText (part.map f) = said (Order.unknownText part)) :
    SameOutcome (fun order other ↦ other = order.retell said id) (readTokens tokens options)
      (readTokens others options) := by
  have hmapped := Grammar.fileTree?_map hf.toRewords options.stopOnFirstError (Token.prepare tokens)
  rw [← h] at hmapped
  cases htree : Grammar.fileTree? options.stopOnFirstError (Token.prepare tokens) with
  | none =>
    rw [htree] at hmapped
    rw [readTokens_eq_error_iff.mpr ⟨htree, rfl⟩, readTokens_eq_error_iff.mpr ⟨hmapped, rfl⟩]
    have hplace := place_parseTokens_map hf.toRewords hf.line h options
    simp only [SameOutcome, ← Option.getD_map Fault.place, hplace]
  | some tree =>
    rw [htree] at hmapped
    obtain ⟨reading, hreading⟩ := exists_readTokens_of_fileTree? htree
    obtain ⟨other, hother⟩ := exists_readTokens_of_fileTree? hmapped
    have hsaid := Order.allOfTree_map hf htree (htext tree htree)
    obtain ⟨heq, horders, -⟩ := readTokens_eq_ok_iff.mp hreading
    obtain ⟨heq', horders', -⟩ := readTokens_eq_ok_iff.mp hother
    obtain rfl := Option.some.inj (htree.symm.trans heq)
    have hothers : reading.tree.map f = other.tree := Option.some.inj (hmapped.symm.trans heq')
    rw [hothers, horders, horders'] at hsaid
    obtain ⟨hall, herrors⟩ : other.orders = reading.orders.map (Order.retell said id) ∧
        other.errors = reading.errors.map id := hsaid
    rw [List.map_id] at herrors
    rw [hreading, hother]
    refine ⟨?_, herrors.symm⟩
    rw [hall, List.forall₂_map_right_iff]
    exact List.forall₂_same.mpr fun _ _ ↦ rfl

end OrderFile
