import OrderFile.Proofs.Order.Parts

/-!
The two ways of reading a file agree wherever both apply. A parse that stops at the first line that
is no order does, as long as it need not stop, step by step what a parse does that keeps such lines;
so where every line is an order the two end in one and the same state, the record of what was tried
included.
-/

set_option autoImplicit false

namespace OrderFile

namespace Grammar

open Pattern

/-! ### Parses step by step -/

/-- A line that is an order or empty is taken in the same way in either mode. -/
theorem line_eq_of_success {p : Parse} (h : (line true p).1 = true) :
    line false p = line true p := by
  unfold line at h ⊢
  generalize order p = first at h ⊢
  obtain ⟨success, q⟩ := first
  cases success with
  | true => rfl
  | false =>
    dsimp only at h ⊢
    generalize q.acceptKind .eol = second at h ⊢
    obtain ⟨success, r⟩ := second
    cases success with
    | true => rfl
    | false => cases h

/-- Where reading that stops need not stop, the other reading does the same. -/
theorem lines_eq_of_success {n : Nat} {p : Parse} (h : (lines true n p).1 = true) :
    lines false n p = lines true n p := by
  induction n generalizing p with
  | zero => cases h
  | succ n ih =>
    rw [lines] at h ⊢
    rw [lines]
    by_cases heof : p.sees [.eof] = true
    · rw [if_pos heof, if_pos heof]
    · rw [if_neg heof] at h ⊢
      rw [if_neg heof]
      have hline : (line true p).1 = true := by
        generalize line true p = result at h
        obtain ⟨success, q⟩ := result
        cases success with
        | true => rfl
        | false => cases h
      rw [line_eq_of_success hline]
      generalize line true p = result at h hline ⊢
      obtain ⟨success, q⟩ := result
      cases hline
      exact ih h

/-- Where a parse that stops reads a file to its end, the other one does just the same. -/
theorem orders_eq_of_fileTree? {ts : List Token} {tree : Tree} (h : fileTree? true ts = some tree) :
    orders false (Parse.start ts) = orders true (Parse.start ts) := by
  obtain ⟨trees, f, rest, hlines, -, -⟩ := linesFront?_of_fileTree? h
  have hagrees := lines_agrees true (((Parse.start ts).enter "orders").remaining + 1)
    ((Parse.start ts).enter "orders") (List.cons_ne_nil _ _)
    (by rw [Parse.remaining_eq]; omega)
  rw [Parse.rest_enter, rest_start, hlines] at hagrees
  rw [orders, orders, Parse.within_eq, Parse.within_eq, lines_eq_of_success hagrees.1]

/-! ### Traces -/

/-- A parse that agrees with a reading of a whole file has the root open, and no other rule. -/
theorem frames_of_agrees {ts : List Token} {result : Bool × Parse}
    {outcome : Option (List Tree × List Token)}
    (h : Agrees ((Parse.start ts).enter "orders") result outcome) :
    ∃ frame, result.2.frames = [frame] := by
  have hbare : ∃ frame, result.2.bare.frames = [frame] := by
    cases outcome with
    | none =>
      obtain ⟨-, cursor, children, hbare⟩ := h
      exact ⟨_, congrArg Parse.frames hbare⟩
    | some read => exact ⟨_, congrArg Parse.frames h.2⟩
  obtain ⟨bareFrame, hbare⟩ := hbare
  obtain ⟨frame, hframe, -⟩ := List.map_eq_singleton_iff.mp hbare
  exact ⟨frame, hframe⟩

/-- Closing a root rule leaves a trace, whether it succeeds or not. -/
theorem isSome_trace_close {p : Parse} {frame : Parse.Frame} (success : Bool)
    (h : p.frames = [frame]) : (p.close success).2.trace.isSome = true := by
  unfold Parse.close
  rw [h]
  dsimp only
  unfold Parse.closeRoot
  split
  · split <;> rfl
  · rfl

/-- A parse of a whole file leaves a trace in any case. -/
theorem isSome_trace_orders (stop : Bool) (ts : List Token) :
    (orders stop (Parse.start ts)).2.trace.isSome = true := by
  obtain ⟨frame, hframe⟩ := frames_of_agrees (fileBody_agrees stop ts)
  exact isSome_trace_close _ hframe

/-! ### Lines -/

/-- What reading that stops takes is what the other reading takes, unless that is a line that is no
order. -/
theorem lineFront?_true_iff {ts rest : List Token} {trees : List Tree} :
    lineFront? true ts = some (trees, rest) ↔
      lineFront? false ts = some (trees, rest) ∧ ∀ tree ∈ trees, tree.isRule "unknown" = false := by
  simp only [lineFront?, Option.or_eq_some_iff, Bool.false_eq_true, if_true, if_false]
  constructor
  · rintro (horder | ⟨hnone, heol | ⟨-, hstop⟩⟩)
    · obtain ⟨k, children, -, -, rfl⟩ := orderFront?_eq_some horder
      refine ⟨.inl horder, ?_⟩
      simp [Tree.isRule, Tree.rule?]
    · obtain ⟨t, -, rfl, -⟩ := eolFront?_eq_some heol
      refine ⟨.inr ⟨hnone, .inl heol⟩, ?_⟩
      simp [Tree.isRule, Tree.rule?]
    · cases hstop
  · rintro ⟨horder | ⟨hnone, heol | ⟨-, hunknown⟩⟩, hknown⟩
    · exact .inl horder
    · exact .inr ⟨hnone, .inl heol⟩
    · obtain ⟨skipped, t, -, -, rfl⟩ := unknownFront?_eq_some hunknown
      have hfalse := hknown _ List.mem_cons_self
      simp [Tree.isRule, Tree.rule?] at hfalse

/-- Lines are read by reading that stops exactly if the other reading finds no unknown ones. -/
theorem linesFront?_true_iff {ts rest : List Token} {trees : List Tree} :
    linesFront? true ts = some (trees, rest) ↔
      linesFront? false ts = some (trees, rest) ∧
        ∀ tree ∈ trees, tree.isRule "unknown" = false := by
  by_cases heof : ts.head?.any (·.kind == .eof) = true
  · rw [linesFront?_of_eof heof, linesFront?_of_eof heof]
    constructor
    · intro h
      cases h
      simp
    · exact And.left
  · rw [linesFront?_of_not_eof heof, linesFront?_of_not_eof heof]
    constructor
    · intro h
      obtain ⟨first, middle, others, hline, hothers, rfl⟩ := andThen_eq_some h
      have hshorter := lineFront?_length_lt hline
      obtain ⟨hline, hfirst⟩ := lineFront?_true_iff.mp hline
      obtain ⟨hothers, hknown⟩ := linesFront?_true_iff.mp hothers
      exact ⟨andThen_of_eq_some hline hothers, List.forall_mem_append.mpr ⟨hfirst, hknown⟩⟩
    · rintro ⟨h, hall⟩
      obtain ⟨first, middle, others, hline, hothers, rfl⟩ := andThen_eq_some h
      have hshorter := lineFront?_length_lt hline
      obtain ⟨hfirst, hknown⟩ := List.forall_mem_append.mp hall
      exact andThen_of_eq_some (lineFront?_true_iff.mpr ⟨hline, hfirst⟩)
        (linesFront?_true_iff.mpr ⟨hothers, hknown⟩)
termination_by ts.length

/-- Reading that stops takes a file exactly if the other reading finds no unknown line in it. -/
theorem fileTree?_true_iff {ts : List Token} {parts : List Tree} {f : Token} :
    fileTree? true ts = some (.node "orders" (parts ++ [.leaf f])) ↔
      fileTree? false ts = some (.node "orders" (parts ++ [.leaf f])) ∧
        ∀ part ∈ parts, part.isRule "unknown" = false := by
  rw [fileTree?_iff_linesFront?, fileTree?_iff_linesFront?]
  constructor
  · rintro ⟨lines, last, rest, hlines, hlast, hend, htree⟩
    obtain ⟨hlines, hknown⟩ := linesFront?_true_iff.mp hlines
    refine ⟨⟨lines, last, rest, hlines, hlast, hend, htree⟩, ?_⟩
    obtain ⟨rfl, -⟩ := List.append_inj' (Tree.node.inj htree).2 rfl
    exact hknown
  · rintro ⟨⟨lines, last, rest, hlines, hlast, hend, htree⟩, hknown⟩
    obtain ⟨rfl, -⟩ := List.append_inj' (Tree.node.inj htree).2 rfl
    exact ⟨parts, last, rest, linesFront?_true_iff.mpr ⟨hlines, hknown⟩, hlast, hend, htree⟩

end Grammar

/-! ### Readings -/

/-- An order is unknown exactly if it stands for a line that is no order. -/
theorem Order.isUnknown_of_part {part : Tree} {order : Order} (h : Part part (some order)) :
    order.isUnknown = part.isRule "unknown" := by
  cases h with
  | @command k w trees command hk =>
    have hknown : command.isUnknown = false := by
      cases command with
      | unknown => cases hk
      | _ => rfl
    rw [Order.isUnknown, hknown]
    rfl
  | unknown => rfl

/-- No order is unknown exactly if no part is. -/
theorem Order.known_iff_of_parts {parts : List Tree} {orders? : List (Option Order)}
    (h : List.Forall₂ Part parts orders?) :
    (∀ order ∈ orders?.reduceOption, order.isUnknown = false) ↔
      ∀ part ∈ parts, part.isRule "unknown" = false := by
  induction h with
  | nil => simp [List.reduceOption]
  | @cons part order? parts orders? hpart _ ih =>
    cases order? with
    | none =>
      have hblank : part.isRule "unknown" = false := by
        cases hpart
        rfl
      rw [List.reduceOption_cons_of_none, ih, List.forall_mem_cons]
      exact ⟨fun hothers ↦ ⟨hblank, hothers⟩, And.right⟩
    | some order =>
      rw [List.reduceOption_cons_of_some, List.forall_mem_cons, List.forall_mem_cons, ih,
        Order.isUnknown_of_part hpart]

/-- What is read by the one way has a tree by the other way exactly if no order is unknown. -/
theorem Order.fileTree?_true_iff_of_reading {tokens : List Token} {options : Options}
    {reading : Reading} (h : readTokens tokens options = .ok reading) :
    Grammar.fileTree? true (Token.prepare tokens) = some reading.tree ↔
      Grammar.fileTree? false (Token.prepare tokens) = some reading.tree ∧
        ∀ order ∈ reading.orders, order.isUnknown = false := by
  obtain ⟨parts, orders?, f, htree, -, hparts, horders, -⟩ := parts_of_reading h
  rw [htree, horders, Grammar.fileTree?_true_iff, known_iff_of_parts hparts]

/-- Reading that stops at the first line that is no order succeeds exactly if the other reading,
which never stops, finds no such line; and then the two come to the same orders, the same
complaints, the same tree and the same trace. There is a trace exactly if it is asked for. -/
theorem readTokens_stopping_iff (tokens : List Token) (emitTrace : Bool) (reading : Reading) :
    (readTokens tokens ⟨true, emitTrace⟩ = .ok reading ↔
        readTokens tokens ⟨false, emitTrace⟩ = .ok reading ∧
          ∀ order ∈ reading.orders, order.isUnknown = false) ∧
      (readTokens tokens ⟨true, emitTrace⟩ = .ok reading → reading.trace.isSome = emitTrace) := by
  have hparse {tree : Tree} (h : Grammar.fileTree? true (Token.prepare tokens) = some tree) :
      parseTokens tokens ⟨false, emitTrace⟩ = parseTokens tokens ⟨true, emitTrace⟩ :=
    congrArg Prod.snd (Grammar.orders_eq_of_fileTree? h)
  refine ⟨⟨fun h ↦ ?_, fun ⟨h, hknown⟩ ↦ ?_⟩, fun h ↦ ?_⟩
  · obtain ⟨htree, hall, htrace⟩ := readTokens_eq_ok_iff.mp h
    obtain ⟨hrecovered, hknown⟩ := (Order.fileTree?_true_iff_of_reading h).mp htree
    refine ⟨readTokens_eq_ok_iff.mpr ⟨hrecovered, hall, ?_⟩, hknown⟩
    rw [hparse htree]
    exact htrace
  · obtain ⟨htree, hall, htrace⟩ := readTokens_eq_ok_iff.mp h
    have hstopping := (Order.fileTree?_true_iff_of_reading h).mpr ⟨htree, hknown⟩
    refine readTokens_eq_ok_iff.mpr ⟨hstopping, hall, ?_⟩
    rw [← hparse hstopping]
    exact htrace
  · obtain ⟨-, -, htrace⟩ := readTokens_eq_ok_iff.mp h
    rw [htrace]
    cases emitTrace with
    | false => rfl
    | true => exact Grammar.isSome_trace_orders true _

end OrderFile
