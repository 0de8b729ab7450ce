import Mathlib.Data.List.ReduceOption
import OrderFile.Proofs.Grammar.File
import OrderFile.Proofs.Order.Walk

/-!
What the tree of a file consists of: orders, empty lines, lines that are neither, and the end. Each
part comes to one order or, if it is an empty line, to none. `parts_of_fileTree?` says that every
tree that is read consists of such parts, and `allOfTree_of_parts` that the orders of a tree are
those of its parts.
-/

set_option autoImplicit false

namespace OrderFile

open OrderFile.Tree (leaf node tokensOf)

/-- One child of the tree of a file, and the order that it comes to. -/
inductive Order.Part : Tree → Option Order → Prop
  | command {k : Keyword} {w : Token} {trees : List Tree} {command : Command}
      (hk : command.keyword? = some k) (h : command.Written (leaf w :: trees))
      (hfits : (Grammar.command k).Fits [node k.word (leaf w :: trees)]) :
      Part (node "order" [node k.word (leaf w :: trees)])
        (some ⟨w.line, command.complaints w.line, command⟩)
  | blank {e : Token} (he : e.kind = .eol) : Part (leaf e) none
  | unknown {t e : Token} {ts : List Token}
      (hts : ∀ s ∈ t :: ts, s.kind ≠ .eol ∧ s.kind ≠ .eof) (he : e.kind = .eol) :
      Part (node "unknown" ((t :: ts).map leaf ++ [leaf e]))
        (some ⟨t.line, [], .unknown (String.intercalate " " ((t :: ts).map (·.lexeme)))⟩)

namespace Grammar

open Pattern

/-! ### The parts that are read -/

theorem tokensOf_map_leaf (ts : List Token) : tokensOf (ts.map leaf) = ts := by
  induction ts with
  | nil => rfl
  | cons t ts ih =>
    rw [List.map_cons, Tree.tokensOf_cons, ih, Tree.tokens_leaf]
    rfl

/-- What is skipped are the tokens up to the end of the line. -/
theorem skipFront?_eq_some {ts rest : List Token} {trees : List Tree}
    (h : skipFront? ts = some (trees, rest)) :
    ∃ skipped : List Token, trees = skipped.map leaf ∧
      ∀ s ∈ skipped, s.kind ≠ .eol ∧ s.kind ≠ .eof := by
  induction ts generalizing trees with
  | nil => cases h
  | cons t ts ih =>
    rw [skipFront?] at h
    split at h
    · cases h
      exact ⟨[], rfl, by simp⟩
    · next hother =>
      obtain ⟨⟨others, after⟩, hrest, heq⟩ := Option.map_eq_some_iff.mp h
      cases heq
      obtain ⟨skipped, rfl, hskipped⟩ := ih hrest
      refine ⟨t :: skipped, rfl, List.forall_mem_cons.mpr ⟨?_, hskipped⟩⟩
      simpa using hother

/-- A written command starts with its keyword. -/
theorem leaf_of_written {children : List Tree} {command : Command}
    (h : command.Written children) : ∃ w trees, children = leaf w :: trees := by
  cases h <;> exact ⟨_, _, rfl⟩

/-- An order that is read is a part of a file. -/
theorem part_of_orderFront? {ts rest : List Token} {trees : List Tree}
    (h : orderFront? ts = some (trees, rest)) :
    ∃ part order, trees = [part] ∧ Order.Part part (some order) := by
  obtain ⟨k, children, -, hcommand, rfl⟩ := orderFront?_eq_some h
  have hfits := fits_of_front? hcommand
  obtain ⟨body, hbody, rfl⟩ := hfits
  obtain ⟨command, hk, hwritten⟩ := written_of_fits hbody
  obtain ⟨w, trees, rfl⟩ := leaf_of_written hwritten
  exact ⟨_, _, rfl, .command hk hwritten ⟨_, hbody, rfl⟩⟩

/-- A line that is no order and not empty is one with tokens before its end. -/
theorem part_of_unknownFront? {ts rest : List Token} {trees : List Tree}
    (heol : eolFront? ts = none) (h : unknownFront? ts = some (trees, rest)) :
    ∃ part order, trees = [part] ∧ Order.Part part (some order) := by
  obtain ⟨children, e, hskip, he, rfl⟩ := unknownFront?_eq_some h
  obtain ⟨skipped, rfl, hskipped⟩ := skipFront?_eq_some hskip
  cases skipped with
  | nil =>
    have hts := skipFront?_append hskip
    rw [hts, List.map_nil, Tree.tokensOf_nil, List.nil_append, eolFront?, frontToken?,
      if_pos (by rw [he]; rfl)] at heol
    cases heol
  | cons t skipped => exact ⟨_, _, rfl, .unknown hskipped he⟩

/-- A line that is read is a part of a file. -/
theorem part_of_lineFront? {stop : Bool} {ts rest : List Token} {trees : List Tree}
    (h : lineFront? stop ts = some (trees, rest)) :
    ∃ part order?, trees = [part] ∧ Order.Part part order? := by
  rw [lineFront?, Option.or_eq_some_iff, Option.or_eq_some_iff] at h
  rcases h with horder | ⟨-, heol | ⟨hnone, hunknown⟩⟩
  · obtain ⟨part, order, rfl, hpart⟩ := part_of_orderFront? horder
    exact ⟨part, some order, rfl, hpart⟩
  · obtain ⟨e, he, rfl, -⟩ := eolFront?_eq_some heol
    exact ⟨leaf e, none, rfl, .blank he⟩
  · split at hunknown
    · cases hunknown
    · obtain ⟨part, order, rfl, hpart⟩ := part_of_unknownFront? hnone hunknown
      exact ⟨part, some order, rfl, hpart⟩

/-- Lines that are read are parts of a file, one each. -/
theorem parts_of_linesFront? {stop : Bool} {ts rest : List Token} {trees : List Tree}
    (h : linesFront? stop ts = some (trees, rest)) :
    ∃ orders?, List.Forall₂ Order.Part trees orders? := by
  by_cases heof : ts.head?.any (·.kind == .eof) = true
  · rw [linesFront?_of_eof heof] at h
    cases h
    exact ⟨[], .nil⟩
  · rw [linesFront?_of_not_eof heof] at h
    obtain ⟨first, middle, others, hline, hothers, rfl⟩ := andThen_eq_some h
    have hshorter := lineFront?_length_lt hline
    obtain ⟨part, order?, rfl, hpart⟩ := part_of_lineFront? hline
    obtain ⟨orders?, hparts⟩ := parts_of_linesFront? hothers
    exact ⟨order? :: orders?, .cons hpart hparts⟩
termination_by ts.length

/-- Each line stands somewhere in the tokens and is read there. -/
theorem exists_line_of_mem {stop : Bool} {ts rest : List Token} {parts : List Tree} {part : Tree}
    (h : linesFront? stop ts = some (parts, rest)) (hpart : part ∈ parts) :
    ∃ front back, ts = front ++ (part.tokens ++ back) ∧
      lineFront? stop (part.tokens ++ back) = some ([part], back) := by
  by_cases heof : ts.head?.any (·.kind == .eof) = true
  · rw [linesFront?_of_eof heof] at h
    cases h
    cases hpart
  · rw [linesFront?_of_not_eof heof] at h
    obtain ⟨first, middle, others, hline, hothers, rfl⟩ := andThen_eq_some h
    have hshorter := lineFront?_length_lt hline
    have hts := lineFront?_append hline
    obtain ⟨line, order?, rfl, -⟩ := part_of_lineFront? hline
    rw [Tree.tokensOf_cons, Tree.tokensOf_nil, List.append_nil] at hts
    rcases List.mem_cons.mp hpart with rfl | hother
    · exact ⟨[], middle, hts, hts ▸ hline⟩
    · obtain ⟨front, back, hmiddle, hread⟩ := exists_line_of_mem hothers hother
      exact ⟨line.tokens ++ front, back, by rw [hts, hmiddle, List.append_assoc], hread⟩
termination_by ts.length

/-- The tree of a file is made of parts and an end token. -/
theorem parts_of_fileTree? {stop : Bool} {ts : List Token} {tree : Tree}
    (h : fileTree? stop ts = some tree) :
    ∃ parts orders? t, tree = node "orders" (parts ++ [leaf t]) ∧
      List.Forall₂ Order.Part parts orders? ∧ t.kind = .eof := by
  obtain ⟨parts, t, rest, hlines, ht, rfl⟩ := linesFront?_of_fileTree? h
  obtain ⟨orders?, hparts⟩ := parts_of_linesFront? hlines
  exact ⟨parts, orders?, t, rfl, hparts, ht⟩

/-- An unknown line stands before the end token of a file. -/
theorem rest_of_unknown {parts before after : List Tree} {line : Tree} {f : Token}
    (h : parts ++ [leaf f] = before ++ line :: after) (hunknown : line.isRule "unknown" = true) :
    ∃ rest, parts = before ++ line :: rest := by
  rcases List.eq_nil_or_concat after with rfl | ⟨rest, last, rfl⟩
  · obtain ⟨-, hlast⟩ := List.append_inj' h rfl
    obtain rfl := List.singleton_inj.mp hlast
    cases hunknown
  · rw [List.concat_eq_append, ← List.cons_append, ← List.append_assoc] at h
    obtain ⟨rfl, -⟩ := List.append_inj' h rfl
    exact ⟨rest, rfl⟩

end Grammar

/-! ### The orders of the parts -/

namespace Order

/-- A command that is written out comes to an order with that command, and its complaints about
values. -/
theorem ofTree_command {k : Keyword} {w : Token} {trees : List Tree} {command : Command}
    (hk : command.keyword? = some k) (h : command.Written (leaf w :: trees)) :
    ofTree (node "order" [node k.word (leaf w :: trees)]) =
      .ok ⟨w.line, command.complaints w.line, command⟩ := by
  have hofTree : ofTree (node "order" [node k.word (leaf w :: trees)]) =
      (fun read : Command × List Complaint ↦ .ok ⟨w.line, read.2, read.1⟩)
        ((Command.read k).run ⟨k.word, w.line, leaf w :: trees, []⟩).1 := by
    simp only [ofTree, Tree.children, List.head?_cons, Tree.rule?, Option.bind_some,
      Keyword.ofWord?_word]
    rfl
  rw [hofTree, Command.read_of_written h hk]

theorem filter_tokens_line {t e : Token} {ts : List Token}
    (hts : ∀ s ∈ t :: ts, s.kind ≠ .eol ∧ s.kind ≠ .eof) (he : e.kind = .eol) :
    (node "unknown" ((t :: ts).map leaf ++ [leaf e])).tokens.filter (·.kind != .eol) = t :: ts := by
  have hkept : (t :: ts).filter (·.kind != .eol) = t :: ts :=
    List.filter_eq_self.mpr fun s hs ↦ bne_iff_ne.mpr (hts s hs).1
  have hlast : [e].filter (·.kind != .eol) = [] := by simp [he]
  rw [Tree.tokens_node, Tree.tokensOf_append, Grammar.tokensOf_map_leaf, List.filter_append, hkept,
    Tree.tokensOf_cons, Tree.tokens_leaf, Tree.tokensOf_nil, List.append_nil, hlast,
    List.append_nil]

/-- The text of a line that is no order is what its tokens say, with single spaces between them. -/
theorem unknownText_line {t e : Token} {ts : List Token}
    (hts : ∀ s ∈ t :: ts, s.kind ≠ .eol ∧ s.kind ≠ .eof) (he : e.kind = .eol) :
    unknownText (node "unknown" ((t :: ts).map leaf ++ [leaf e])) =
      String.intercalate " " ((t :: ts).map (·.lexeme)) := by
  rw [unknownText, filter_tokens_line hts he]

/-- A part is read into the order that it comes to. -/
theorem ofChild_of_part {part : Tree} {order? : Option Order} (h : Part part order?) :
    ofChild part = order?.map .ok := by
  cases h with
  | command hk hwritten _ =>
    rw [ofChild, if_pos rfl, ofTree_command hk hwritten]
    rfl
  | blank he =>
    rw [ofChild, if_pos (.inl he)]
    rfl
  | unknown hts he =>
    rw [ofChild, if_neg (by decide), if_pos rfl, unknownText_line hts he]
    rfl

/-- Parts come to their orders, and to no complaints besides. -/
theorem outcomes_of_parts {parts : List Tree} {orders? : List (Option Order)}
    (h : List.Forall₂ Part parts orders?) :
    parts.filterMap ofChild = orders?.reduceOption.map .ok := by
  induction h with
  | nil => rfl
  | @cons part order? _ _ hpart _ ih =>
    cases order? with
    | none =>
      rw [List.filterMap_cons_none (ofChild_of_part hpart), ih, List.reduceOption_cons_of_none]
    | some order =>
      rw [List.filterMap_cons_some (ofChild_of_part hpart), ih, List.reduceOption_cons_of_some,
        List.map_cons]

/-- The orders of a tree are those of its parts, and all that is wrong with them. -/
theorem allOfTree_of_parts {parts : List Tree} {orders? : List (Option Order)} {t : Token}
    (h : List.Forall₂ Part parts orders?) (ht : t.kind = .eof) :
    allOfTree (node "orders" (parts ++ [leaf t])) =
      (orders?.reduceOption, orders?.reduceOption.flatMap (·.errors)) := by
  have hend : ofChild (leaf t) = none := if_pos (.inr ht)
  have houtcomes : (parts ++ [leaf t]).filterMap ofChild = orders?.reduceOption.map .ok := by
    rw [List.filterMap_append, outcomes_of_parts h, List.filterMap_cons_none hend,
      List.filterMap_nil, List.append_nil]
  have htrue : (node "orders" (parts ++ [leaf t])).isRule "orders" = true := rfl
  rw [allOfTree, if_pos htrue, Tree.children]
  dsimp only
  rw [houtcomes, List.filterMap_map, List.flatMap_map]
  exact congrArg₂ Prod.mk List.filterMap_some rfl

/-! ### Readings -/

/-- A reading consists of parts and an end token, and its orders are those of the parts. -/
theorem parts_of_reading {tokens : List Token} {options : Options} {reading : Reading}
    (h : readTokens tokens options = .ok reading) :
    ∃ parts orders? t, reading.tree = node "orders" (parts ++ [leaf t]) ∧ t.kind = .eof ∧
      List.Forall₂ Part parts orders? ∧ reading.orders = orders?.reduceOption ∧
      reading.errors = reading.orders.flatMap (·.errors) := by
  obtain ⟨htree, hall, -⟩ := readTokens_eq_ok_iff.mp h
  obtain ⟨parts, orders?, t, heq, hparts, ht⟩ := Grammar.parts_of_fileTree? htree
  rw [heq, allOfTree_of_parts hparts ht] at hall
  obtain ⟨horders, herrors⟩ := Prod.mk.inj hall
  exact ⟨parts, orders?, t, heq, ht, hparts, horders.symm, by rw [← horders, herrors]⟩

/-- What stands around an unknown line of a file: the parts before it come to the orders before its
own. -/
theorem around_unknown {tokens : List Token} {options : Options} {reading : Reading}
    {before after : List Tree} {line : Tree} (h : readTokens tokens options = .ok reading)
    (htree : reading.tree = node "orders" (before ++ line :: after))
    (hunknown : line.isRule "unknown" = true) :
    ∃ orders? order others?, List.Forall₂ Part before orders? ∧ Part line (some order) ∧
      reading.orders = (orders? ++ some order :: others?).reduceOption := by
  obtain ⟨parts, all?, f, hparts, -, hall, horders, -⟩ := parts_of_reading h
  have hchildren : parts ++ [leaf f] = before ++ line :: after :=
    (node.inj (hparts.symm.trans htree)).2
  obtain ⟨rest, rfl⟩ := Grammar.rest_of_unknown hchildren hunknown
  have hbefore : List.Forall₂ Part before (all?.take before.length) :=
    (List.forall₂_take_append _ _ _ hall.flip).flip
  obtain ⟨order?, others?, hline, -, hothers⟩ :=
    List.forall₂_cons_right_iff.mp (List.forall₂_drop_append _ _ _ hall.flip)
  have hline : Part line order? := hline
  cases order? with
  | none =>
    cases hline
    cases hunknown
  | some order =>
    refine ⟨_, order, others?, hbefore, hline, ?_⟩
    rw [← hothers, List.take_append_drop, horders]

/-- An unknown line is some tokens and a line end, and its order is on the line of the first one. -/
theorem tokens_of_unknown {part : Tree} {order : Order} (h : Part part (some order))
    (hunknown : part.isRule "unknown" = true) :
    ∃ t front e, part.tokens = t :: front ++ [e] ∧
      (∀ s ∈ t :: front, s.kind ≠ .eol ∧ s.kind ≠ .eof) ∧ e.kind = .eol ∧ order.line = t.line := by
  cases h with
  | command => cases hunknown
  | @unknown t e front hfront he =>
    refine ⟨t, front, e, ?_, hfront, he, rfl⟩
    rw [Tree.tokens_node, Tree.tokensOf_append, Grammar.tokensOf_map_leaf]
    rfl

/-- What is wrong with the order of a part is what its command gives rise to. -/
theorem errors_of_part {part : Tree} {order : Order} (h : Part part (some order)) :
    order.errors = order.command.complaints order.line := by
  cases h <;> rfl

theorem part_of_mem {parts : List Tree} {orders? : List (Option Order)} {part : Tree}
    (h : List.Forall₂ Part parts orders?) (hpart : part ∈ parts) :
    ∃ order?, Part part order? := by
  induction h with
  | nil => cases hpart
  | cons hfirst _ ih =>
    rcases List.mem_cons.mp hpart with rfl | hother
    · exact ⟨_, hfirst⟩
    · exact ih hother

/-- Every order of parts is the order of one of them. -/
theorem exists_part_of_mem {parts : List Tree} {orders? : List (Option Order)} {order : Order}
    (h : List.Forall₂ Part parts orders?) (horder : some order ∈ orders?) :
    ∃ part ∈ parts, Part part (some order) := by
  induction h with
  | nil => cases horder
  | cons hpart _ ih =>
    rcases List.mem_cons.mp horder with rfl | hother
    · exact ⟨_, List.mem_cons_self, hpart⟩
    · obtain ⟨part, hmem, hpart⟩ := ih hother
      exact ⟨part, List.mem_cons_of_mem _ hmem, hpart⟩

/-- The errors of an order are the complaints about its values. -/
theorem errors_of_parts {parts : List Tree} {orders? : List (Option Order)} {order : Order}
    (h : List.Forall₂ Part parts orders?) (horder : some order ∈ orders?) :
    order.errors = order.command.complaints order.line := by
  induction h with
  | nil => cases horder
  | cons hpart _ ih =>
    rcases List.mem_cons.mp horder with rfl | hother
    · exact errors_of_part hpart
    · exact ih hother

end Order

end OrderFile
