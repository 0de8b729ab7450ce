import OrderFile.Proofs.Order.Outcome

/-!
Children that are left over. For every node that is read under the rule of an order there is one
complaint if some of its children are not reached, and none otherwise. The children of an order
after its first one are never looked at, and nothing tells of them: `ofTree_leftover`.
-/

set_option autoImplicit false

namespace OrderFile

open OrderFile.Tree (Follows Read Visit leaf node)
open OrderFile.Tree.Read

/-- Nothing is complained about exactly if no node was left before its end. -/
theorem Tree.Visit.complaints_eq_nil_iff (line : UInt32) (visits : List Visit) :
    complaints line visits = [] ↔ ∀ v ∈ visits, v.unread = [] := by
  simp [complaints, List.filter_eq_nil_iff]

namespace Order

/-- An order with nothing wrong about it is read to the end, with all nodes under its rule. -/
theorem unread_eq_nil_of_errors {k : Keyword} {rule : Tree} (h : (ofRule k rule).errors = []) :
    ∀ v ∈ (Command.layout k).visitsOf rule, v.unread = [] := by
  have htrailing := (tells_ofRule k rule).trailing
  rw [h, List.filter_nil] at htrailing
  exact (Visit.complaints_eq_nil_iff _ _).mp htrailing.symm

/-- If nothing is wrong about a tree, each order node in it starts with the rule of a keyword about
which nothing is wrong. -/
theorem exists_rule_of_clean {tree child : Tree} (h : (allOfTree tree).2 = [])
    (hchild : child ∈ tree.children) (horder : child.isRule "order" = true) :
    ∃ k rule, StartsWith child k rule ∧ (ofRule k rule).errors = [] := by
  have hroot : tree.isRule "orders" = true := by
    by_contra hother
    rw [allOfTree, if_neg hother] at h
    cases h
  rw [allOfTree, if_pos hroot] at h
  have hnone := List.flatMap_eq_nil_iff.mp h
  obtain ⟨hend, -⟩ | ⟨-, outcome, hsome, hcomes⟩ := ofChild_cases child
  · cases child with
    | leaf => cases horder
    | node => cases hend
  · have hclean := hnone outcome (List.mem_filterMap.mpr ⟨child, hchild, hsome⟩)
    cases hcomes with
    | order _ hread =>
      obtain ⟨k, rule, hstart, rfl⟩ := ofTree_eq_ok_iff.mp hread
      exact ⟨k, rule, hstart, hclean⟩
    | keywordless => cases hclean
    | unknown hunknown =>
      rw [Tree.isRule, beq_iff_eq] at horder hunknown
      rw [horder] at hunknown
      exact absurd (Option.some.inj hunknown) (by decide)
    | unexpected => cases hclean

/-- What is told of the children that an order leaves unread. Reading its rule reads the children
of the layout of the keyword, and tells once of each node under the rule, and of the rule itself,
whether it was left before its end, and of nothing else. The children of the order after the rule
are not read, and nothing tells of them. So a tree about which nothing is wrong has the rule of each
order read to its end, with all nodes under it. -/
theorem ofTree_leftover (tree : Tree) :
    (∀ k rule, StartsWith tree k rule → ∃ order, ofTree tree = .ok order ∧
      Follows (do word k.word; let command ← Command.operands k; eol; return command)
        (Command.layout k) ∧
      order.errors.filter (·.isTrailing) =
        ((Command.layout k).visitsOf rule |>.filter (!·.unread.isEmpty)).map
          (fun v ↦ ⟨order.line, .trailing v.rule⟩) ∧
      (order.errors = [] → ∀ v ∈ (Command.layout k).visitsOf rule, v.unread = []) ∧
      ∀ name others, ofTree (node name (rule :: others)) = .ok order) ∧
    ((allOfTree tree).2 = [] → ∀ child ∈ tree.children, child.isRule "order" = true →
      ∃ k rule, StartsWith child k rule ∧
        ∀ v ∈ (Command.layout k).visitsOf rule, v.unread = []) := by
  refine ⟨fun k rule hstart ↦ ⟨ofRule k rule, ofTree_of_startsWith hstart, ?_, ?_, ?_, ?_⟩, ?_⟩
  · exact Command.follows_read k
  · exact (tells_ofRule k rule).trailing
  · exact unread_eq_nil_of_errors
  · intro name others
    obtain ⟨ruleName, children, -, -, hrule, hk⟩ := hstart
    exact ofTree_of_startsWith ⟨ruleName, children, others, rfl, hrule, hk⟩
  · intro h child hchild horder
    obtain ⟨k, rule, hstart, hclean⟩ := exists_rule_of_clean h hchild horder
    exact ⟨k, rule, hstart, unread_eq_nil_of_errors hclean⟩

/-- A move to a place with a number too many. -/
def crowdedMove : Tree :=
  node "move" [leaf ⟨1, .text, "move", .text "move"⟩, leaf ⟨1, .integer, "6", .integer 6⟩,
    node "coordinate" [leaf ⟨1, .parenOpen, "(", .none⟩, leaf ⟨1, .integer, "1", .integer 1⟩,
      leaf ⟨1, .comma, ",", .none⟩, leaf ⟨1, .integer, "2", .integer 2⟩,
      leaf ⟨1, .comma, ",", .none⟩, leaf ⟨1, .integer, "3", .integer 3⟩,
      leaf ⟨1, .parenClose, ")", .none⟩, leaf ⟨1, .integer, "9", .integer 9⟩],
    leaf ⟨1, .eol, "\n", .none⟩]

/-- A survey with a number after its rule. -/
def crowdedSurvey : Tree :=
  node "order" [node "survey" [leaf ⟨1, .text, "survey", .text "survey"⟩,
    leaf ⟨1, .integer, "5", .integer 5⟩, leaf ⟨1, .eol, "\n", .none⟩],
    leaf ⟨1, .integer, "9", .integer 9⟩]

/-- What is left over in a place is told, whatever stands after the move. What is left over in an
order is not: a file with such an order may have nothing wrong with it. -/
theorem ofTree_leftover_crowded :
    (∃ order, ofTree (node "order" [crowdedMove]) = .ok order ∧
      order.errors.filter (·.isTrailing) = [⟨order.line, .trailing "coordinate"⟩] ∧
      ∀ name others, ofTree (node name (crowdedMove :: others)) = .ok order) ∧
    (allOfTree (node "orders" [crowdedSurvey])).2 = [] ∧
      ∃ k rule, StartsWith crowdedSurvey k rule ∧
        ∀ v ∈ (Command.layout k).visitsOf rule, v.unread = [] := by
  have hstart : StartsWith (node "order" [crowdedMove]) .move crowdedMove :=
    ⟨_, _, _, rfl, rfl, by decide +kernel⟩
  obtain ⟨order, horder, -, htrailing, -, hothers⟩ :=
    (ofTree_leftover (node "order" [crowdedMove])).1 _ _ hstart
  have hclean : (allOfTree (node "orders" [crowdedSurvey])).2 = [] := by decide +kernel
  refine ⟨⟨order, horder, htrailing, hothers⟩, hclean, ?_⟩
  exact (ofTree_leftover (node "orders" [crowdedSurvey])).2 hclean _ List.mem_cons_self rfl

end Order

end OrderFile
