import OrderFile.Proofs.Parse.Noted
import OrderFile.Proofs.Reading.Derivation

/-!
The order rule at any place among any tokens. It reads an order exactly where the published grammar
derives one from tokens that stand there, and then it takes these tokens and no others, since no
other ones derive (`order_derives`). So a line is kept as unknown only where no order can be read.
-/

set_option autoImplicit false

namespace OrderFile

open OrderFile.Tree (leaf node tokensOf)

namespace Grammar

open Ebnf (Expr Derives)
open Pattern

/-! ### Derivations of one order -/

/-- The pattern of an order is part of the one that realizes the published rule of files. -/
theorem orderPattern_realizes : orderPattern.realizes published (.name "order") = true := by
  have hwhole := ordersPattern_realizes
  generalize published = rules at hwhole ⊢
  rw [ordersPattern, realizes, Bool.and_eq_true] at hwhole
  obtain ⟨inner, -, hlines⟩ := (Option.any_eq_true _ _).mp hwhole.2
  -- The rule of files is a repetition of lines and an end token, and a line is an order or empty.
  cases inner with
  | seq front back =>
    obtain ⟨hfront, -⟩ := (Bool.and_eq_true _ _).mp hlines
    cases front with
    | repeated line =>
      cases line with
      | either first second =>
        obtain ⟨horder, -⟩ := (Bool.and_eq_true _ _).mp hfront
        cases first with
        | name n =>
          rw [orderPattern, realizes, Bool.and_eq_true, Bool.and_eq_true] at horder
          obtain rfl := eq_of_beq horder.1.1
          rwa [orderPattern, realizes, Bool.and_eq_true, Bool.and_eq_true]
        | _ => cases horder
      | _ => cases hfront
    | _ => cases hfront
  | _ => cases hlines

/-- An order is derived by the rule of one keyword. -/
theorem derives_order_iff {tree : Tree} :
    Derives published (.name "order") [tree] ↔
      ∃ k children, (command k).Fits children ∧ tree = node "order" children := by
  rw [derives_iff_fits orderPattern_realizes]
  constructor
  · rintro ⟨children, hchildren, heq⟩
    obtain ⟨k, -, hk⟩ := fits_oneCommand_iff.mp hchildren
    exact ⟨k, children, hk, List.singleton_inj.mp heq⟩
  · rintro ⟨k, children, hk, rfl⟩
    exact ⟨children, fits_oneCommand_iff.mpr ⟨k, k.mem_all, hk⟩, rfl⟩

/-- An order that is derived is read off its own tokens, whatever comes after them. -/
theorem orderFront?_of_derives {tree : Tree} (h : Derives published (.name "order") [tree])
    (rest : List Token) : orderFront? (tree.tokens ++ rest) = some ([tree], rest) := by
  obtain ⟨k, children, hk, rfl⟩ := derives_order_iff.mp h
  exact orderFront?_of_fits hk rest

/-- An order that is read is derived, from exactly the tokens that it took. -/
theorem derives_of_orderFront? {ts rest : List Token} {trees : List Tree}
    (h : orderFront? ts = some (trees, rest)) :
    ∃ tree, trees = [tree] ∧ Derives published (.name "order") [tree] ∧
      ts = tree.tokens ++ rest := by
  obtain ⟨k, children, -, hcommand, rfl⟩ := orderFront?_eq_some h
  exact ⟨_, rfl, derives_order_iff.mpr ⟨k, children, fits_of_front? hcommand, rfl⟩,
    front?_append hcommand⟩

/-! ### Unknown lines -/

/-- Each line is read where the lines before it end. -/
theorem lineFront?_of_linesFront? {stop : Bool} {ts rest : List Token} {before after : List Tree}
    {part : Tree} (h : linesFront? stop ts = some (before ++ part :: after, rest)) :
    ∃ here back, ts = tokensOf before ++ here ∧ lineFront? stop here = some ([part], back) := by
  induction before generalizing ts with
  | nil =>
    by_cases heof : ts.head?.any (·.kind == .eof) = true
    · rw [linesFront?_of_eof heof] at h
      cases h
    rw [linesFront?_of_not_eof heof] at h
    obtain ⟨first, middle, others, hline, -, heq⟩ := andThen_eq_some h
    obtain ⟨line, -, rfl, -⟩ := part_of_lineFront? hline
    obtain ⟨rfl, -⟩ := List.cons.inj heq
    exact ⟨ts, middle, rfl, hline⟩
  | cons tree before ih =>
    by_cases heof : ts.head?.any (·.kind == .eof) = true
    · rw [linesFront?_of_eof heof] at h
      cases h
    rw [linesFront?_of_not_eof heof] at h
    obtain ⟨first, middle, others, hline, hothers, heq⟩ := andThen_eq_some h
    obtain ⟨line, -, rfl, -⟩ := part_of_lineFront? hline
    obtain ⟨rfl, rfl⟩ := List.cons.inj heq
    obtain ⟨here, back, rfl, hread⟩ := ih hothers
    refine ⟨here, back, ?_, hread⟩
    rw [lineFront?_append hline, Tree.tokensOf_cons, Tree.tokensOf_cons, Tree.tokensOf_nil,
      List.append_nil, List.append_assoc]

/-- An unknown line of a file stands where the lines before it end. -/
theorem lineFront?_of_unknown {stop : Bool} {ts : List Token} {before after : List Tree}
    {part : Tree} (h : fileTree? stop ts = some (node "orders" (before ++ part :: after)))
    (hunknown : part.isRule "unknown" = true) :
    ∃ here back, ts = tokensOf before ++ here ∧ lineFront? stop here = some ([part], back) := by
  obtain ⟨lines, f, rest, hlines, -, heq⟩ := linesFront?_of_fileTree? h
  have hchildren : before ++ part :: after = lines ++ [leaf f] := (Tree.node.inj heq).2
  obtain ⟨rest, rfl⟩ := rest_of_unknown hchildren.symm hunknown
  exact lineFront?_of_linesFront? hlines

/-- A line is unknown only where no order is read. -/
theorem orderFront?_of_unknown {ts rest : List Token} {part : Tree}
    (h : lineFront? false ts = some ([part], rest)) (hunknown : part.isRule "unknown" = true) :
    orderFront? ts = none := by
  rw [Option.eq_none_iff_forall_ne_some]
  rintro ⟨trees, after⟩ horder
  obtain ⟨k, children, -, -, rfl⟩ := orderFront?_eq_some horder
  rw [lineFront?, horder, Option.some_or] at h
  cases h
  cases hunknown

/-! ### The order rule -/

/-- Inside a rule, wherever the parse stands, an order is read exactly if the published grammar
derives one from the tokens that come next. The tokens are then taken that it is derived from, of
which there is one choice; otherwise nothing is. In a file that is read to its end, no order can be
derived from the tokens at an unknown line. -/
theorem order_derives {p : Parse} (hopen : p.frames ≠ []) :
    ((order p).1 = true ↔
        ∃ tree, Derives published (.name "order") [tree] ∧ tree.tokens <+: p.rest) ∧
      (∀ tree, Derives published (.name "order") [tree] → tree.tokens <+: p.rest →
        (order p).2.bare = p.bare.took [tree] ∧
          ∀ other, Derives published (.name "order") [other] → other.tokens <+: p.rest →
            other = tree) ∧
      ((order p).1 = false → (order p).2.bare = p.bare) ∧
      ∀ tokens emitTrace reading before part after,
        readTokens tokens ⟨false, emitTrace⟩ = .ok reading →
        reading.tree = node "orders" (before ++ part :: after) → part.isRule "unknown" = true →
        ∃ here, Token.prepare tokens = tokensOf before ++ here ∧ part.tokens <+: here ∧
          ∀ tree, Derives published (.name "order") [tree] → ¬ tree.tokens <+: here := by
  -- A parse of an order is a reading off the tokens left, and such a reading is a derivation. So
  -- all that is said of parses here is said of `orderFront?`.
  have hwhole := order_agreesWhole hopen
  have hread {tree : Tree} (htree : Derives published (.name "order") [tree]) {ts : List Token}
      (hts : tree.tokens <+: ts) : ∃ rest, orderFront? ts = some ([tree], rest) := by
    obtain ⟨rest, rfl⟩ := hts
    exact ⟨rest, orderFront?_of_derives htree rest⟩
  refine ⟨⟨fun hsuccess ↦ ?_, ?_⟩, fun tree htree hts ↦ ?_, fun hfailure ↦ ?_, ?_⟩
  · cases hfront : orderFront? p.rest with
    | none =>
      rw [hfront] at hwhole
      exact absurd (hwhole.1.symm.trans hsuccess) Bool.false_ne_true
    | some read =>
      obtain ⟨tree, -, htree, hrest⟩ := derives_of_orderFront? hfront
      exact ⟨tree, htree, read.2, hrest.symm⟩
  · rintro ⟨tree, htree, hts⟩
    obtain ⟨rest, hfront⟩ := hread htree hts
    rw [hfront] at hwhole
    exact hwhole.1
  · obtain ⟨rest, hfront⟩ := hread htree hts
    rw [hfront] at hwhole
    refine ⟨hwhole.2, fun other hother hots ↦ ?_⟩
    obtain ⟨otherRest, hsecond⟩ := hread hother hots
    have hsame := hsecond.symm.trans hfront
    cases hsame
    rfl
  · cases hfront : orderFront? p.rest with
    | none =>
      rw [hfront] at hwhole
      exact hwhole.2
    | some read =>
      rw [hfront] at hwhole
      exact absurd (hfailure.symm.trans hwhole.1) Bool.false_ne_true
  · intro tokens emitTrace reading before part after hreading htree hunknown
    have hfile := (readTokens_eq_ok_iff.mp hreading).1
    rw [htree] at hfile
    obtain ⟨here, back, hts, hline⟩ := lineFront?_of_unknown hfile hunknown
    have hnone := orderFront?_of_unknown hline hunknown
    have hhere := lineFront?_append hline
    rw [Tree.tokensOf_cons, Tree.tokensOf_nil, List.append_nil] at hhere
    refine ⟨here, hts, ⟨back, hhere.symm⟩, fun tree htree hprefix ↦ ?_⟩
    obtain ⟨rest, hfront⟩ := hread htree hprefix
    rw [hnone] at hfront
    cases hfront

/-- A parse that has come past an empty line and stands at a move order to an orbit. -/
def beforeMove (orbit : String) : Parse :=
  let tokens := Token.prepare (Token.scan ("\nmove 7 (1,2,3," ++ orbit ++ ")").toList)
  ((Parse.start tokens).enter "orders").advance.2

/-- The order is read there if its orbit is the tenth, and it is not if that is the eleventh. -/
theorem order_derives_beforeMove :
    (beforeMove "10").frames ≠ [] ∧ (beforeMove "11").frames ≠ [] ∧
      (∃ tree, Derives published (.name "order") [tree] ∧
        tree.tokens <+: (beforeMove "10").rest) ∧
      ¬ ∃ tree, Derives published (.name "order") [tree] ∧
        tree.tokens <+: (beforeMove "11").rest := by
  have hopen (orbit : String) : (beforeMove orbit).frames ≠ [] := by
    refine (Parse.noted_attempt "ANY" (fun _ ↦ true) _).frames_ne_nil (List.cons_ne_nil _ _)
  have hread : (order (beforeMove "10")).1 = true := by decide +kernel
  have hnone : (order (beforeMove "11")).1 = false := by decide +kernel
  refine ⟨hopen _, hopen _, (order_derives (hopen "10")).1.mp hread, fun hderived ↦ ?_⟩
  exact absurd (hnone.symm.trans ((order_derives (hopen "11")).1.mpr hderived)) Bool.false_ne_true

end Grammar

end OrderFile
