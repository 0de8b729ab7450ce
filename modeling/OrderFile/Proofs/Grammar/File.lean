import OrderFile.Grammar.Rules
import OrderFile.Proofs.Grammar.Front
import OrderFile.Reading

/-!
Whole files read off token lists: orders, lines that are none, and all lines up to the end token.
`readTokens_eq_ok_iff` says that a token stream is read exactly if `fileTree?` gives a tree for the
prepared stream, and that this is the tree of the reading.
-/

set_option autoImplicit false

namespace OrderFile.Grammar

open Pattern

/-! ### Reading lines -/

/-- The order at the front of a token list, by the rule of its first word. -/
def orderFront? (ts : List Token) : Option (List Tree × List Token) :=
  ((ts.head?.bind Keyword.ofToken?).bind fun k ↦ (command k).front? ts).map
    fun (trees, rest) ↦ ([.node "order" trees], rest)

/-- The tokens before the end of a line, if the line ends. -/
def skipFront? : List Token → Option (List Tree × List Token)
  | [] => none
  | t :: ts =>
    if [Token.Kind.eol, .eof].contains t.kind then some ([], t :: ts)
    else (skipFront? ts).map fun (trees, rest) ↦ (.leaf t :: trees, rest)

def eolFront? : List Token → Option (List Tree × List Token) :=
  frontToken? (·.kind == .eol)

/-- A line that is no order. -/
def unknownFront? (ts : List Token) : Option (List Tree × List Token) :=
  (andThen (skipFront? ts) eolFront?).map fun (trees, rest) ↦ ([.node "unknown" trees], rest)

/-- One line: an order, an empty line or, unless reading is to stop there, a line that is
neither. -/
def lineFront? (stop : Bool) (ts : List Token) : Option (List Tree × List Token) :=
  (orderFront? ts).or ((eolFront? ts).or (if stop then none else unknownFront? ts))

/-! ### Nothing is lost, and every line takes a token -/

/-- What is skipped and what is left are all the tokens. -/
theorem skipFront?_append {ts rest : List Token} {trees : List Tree}
    (h : skipFront? ts = some (trees, rest)) : ts = Tree.tokensOf trees ++ rest := by
  induction ts generalizing trees with
  | nil => cases h
  | cons t ts ih =>
    rw [skipFront?] at h
    split at h
    · cases h
      rfl
    · obtain ⟨⟨others, after⟩, hrest, heq⟩ := Option.map_eq_some_iff.mp h
      cases heq
      rw [Tree.tokensOf_cons, Tree.tokens_leaf, List.append_assoc, ← ih hrest]
      rfl

theorem eolFront?_eq_some {ts rest : List Token} {trees : List Tree}
    (h : eolFront? ts = some (trees, rest)) :
    ∃ t, t.kind = .eol ∧ trees = [.leaf t] ∧ ts = t :: rest := by
  obtain ⟨t, ht, htrees, hts⟩ := frontToken?_eq_some h
  exact ⟨t, eq_of_beq ht, htrees, hts⟩

/-- An order comes from the rule of the keyword that the first token spells. -/
theorem orderFront?_eq_some {ts rest : List Token} {trees : List Tree}
    (h : orderFront? ts = some (trees, rest)) :
    ∃ k children, ts.head?.bind Keyword.ofToken? = some k ∧
      (command k).front? ts = some (children, rest) ∧ trees = [.node "order" children] := by
  obtain ⟨⟨children, after⟩, hfront, heq⟩ := Option.map_eq_some_iff.mp h
  obtain ⟨k, hk, hcommand⟩ := Option.bind_eq_some_iff.mp hfront
  cases heq
  exact ⟨k, children, hk, hcommand, rfl⟩

/-- An unknown line is the tokens skipped up to its end, and its end. -/
theorem unknownFront?_eq_some {ts rest : List Token} {trees : List Tree}
    (h : unknownFront? ts = some (trees, rest)) :
    ∃ skipped t, skipFront? ts = some (skipped, t :: rest) ∧ t.kind = .eol ∧
      trees = [.node "unknown" (skipped ++ [.leaf t])] := by
  obtain ⟨⟨children, after⟩, hfront, heq⟩ := Option.map_eq_some_iff.mp h
  obtain ⟨skipped, middle, last, hskip, heol, rfl⟩ := andThen_eq_some hfront
  obtain ⟨t, ht, rfl, rfl⟩ := eolFront?_eq_some heol
  cases heq
  exact ⟨skipped, t, hskip, ht, rfl⟩

/-- A line and what is left after it are all the tokens. -/
theorem lineFront?_append {stop : Bool} {ts rest : List Token} {trees : List Tree}
    (h : lineFront? stop ts = some (trees, rest)) : ts = Tree.tokensOf trees ++ rest := by
  rw [lineFront?, Option.or_eq_some_iff, Option.or_eq_some_iff] at h
  rcases h with horder | ⟨-, heol | ⟨-, hunknown⟩⟩
  · obtain ⟨k, children, -, hcommand, rfl⟩ := orderFront?_eq_some horder
    simpa using front?_append hcommand
  · obtain ⟨t, -, rfl, rfl⟩ := eolFront?_eq_some heol
    rfl
  · split at hunknown
    · cases hunknown
    · obtain ⟨skipped, t, hskip, -, rfl⟩ := unknownFront?_eq_some hunknown
      simpa using skipFront?_append hskip

/-- A rule takes at least its keyword. -/
theorem command_front?_ne_nil {k : Keyword} {ts rest : List Token} {trees : List Tree}
    (h : (command k).front? ts = some (trees, rest)) : Tree.tokensOf trees ≠ [] := by
  obtain ⟨⟨children, after⟩, hfront, heq⟩ := Option.map_eq_some_iff.mp h
  obtain ⟨first, middle, second, hword, -, rfl⟩ := andThen_eq_some hfront
  obtain ⟨t, -, rfl, rfl⟩ := frontToken?_eq_some hword
  cases heq
  simp

/-- A line holds a token. -/
theorem lineFront?_ne_nil {stop : Bool} {ts rest : List Token} {trees : List Tree}
    (h : lineFront? stop ts = some (trees, rest)) : Tree.tokensOf trees ≠ [] := by
  rw [lineFront?, Option.or_eq_some_iff, Option.or_eq_some_iff] at h
  rcases h with horder | ⟨-, heol | ⟨-, hunknown⟩⟩
  · obtain ⟨k, children, -, hcommand, rfl⟩ := orderFront?_eq_some horder
    simpa using command_front?_ne_nil hcommand
  · obtain ⟨t, -, rfl, -⟩ := eolFront?_eq_some heol
    simp
  · split at hunknown
    · cases hunknown
    · obtain ⟨skipped, t, -, -, rfl⟩ := unknownFront?_eq_some hunknown
      simp

/-- Less is left after a line. -/
theorem lineFront?_length_lt {stop : Bool} {ts rest : List Token} {trees : List Tree}
    (h : lineFront? stop ts = some (trees, rest)) : rest.length < ts.length := by
  have hlength := congrArg List.length (lineFront?_append h)
  have hpos := List.length_pos_iff.mpr (lineFront?_ne_nil h)
  rw [List.length_append] at hlength
  omega

/-- All lines before the end token. -/
def linesFront? (stop : Bool) (ts : List Token) : Option (List Tree × List Token) :=
  if ts.head?.any (·.kind == .eof) then some ([], ts)
  else
    match _h : lineFront? stop ts with
    | none => none
    | some (trees, rest) =>
      (linesFront? stop rest).map fun (others, after) ↦ (trees ++ others, after)
termination_by ts.length
decreasing_by exact lineFront?_length_lt _h

/-- All lines and the end token. -/
def fileFront? (stop : Bool) (ts : List Token) : Option (List Tree × List Token) :=
  andThen (linesFront? stop ts) (frontToken? (·.kind == .eof))

/-- The tree of a whole file: nothing but end tokens may be left. -/
def fileTree? (stop : Bool) (ts : List Token) : Option Tree :=
  (fileFront? stop ts).bind fun (trees, rest) ↦
    if rest.head?.all (·.kind == .eof) then some (.node "orders" trees) else none

/-- No lines are read where the end token is next. -/
theorem linesFront?_of_eof {stop : Bool} {ts : List Token}
    (h : ts.head?.any (·.kind == .eof) = true) : linesFront? stop ts = some ([], ts) := by
  rw [linesFront?, if_pos h]

/-- Otherwise a line is read, and then the others. -/
theorem linesFront?_of_not_eof {stop : Bool} {ts : List Token}
    (h : ¬ ts.head?.any (·.kind == .eof) = true) :
    linesFront? stop ts = andThen (lineFront? stop ts) (linesFront? stop) := by
  rw [linesFront?, if_neg h]
  split
  · next hline => rw [hline]; rfl
  · next trees rest hline => rw [hline]; rfl

/-- The lines and what is left after them are all the tokens. -/
theorem linesFront?_append {stop : Bool} {ts rest : List Token} {trees : List Tree}
    (h : linesFront? stop ts = some (trees, rest)) : ts = Tree.tokensOf trees ++ rest := by
  by_cases heof : ts.head?.any (·.kind == .eof) = true
  · rw [linesFront?_of_eof heof] at h
    cases h
    rfl
  · rw [linesFront?_of_not_eof heof] at h
    obtain ⟨first, middle, others, hline, hothers, rfl⟩ := andThen_eq_some h
    have hshorter := lineFront?_length_lt hline
    rw [Tree.tokensOf_append, List.append_assoc, ← linesFront?_append hothers,
      ← lineFront?_append hline]
termination_by ts.length

theorem fileFront?_append {stop : Bool} {ts rest : List Token} {trees : List Tree}
    (h : fileFront? stop ts = some (trees, rest)) : ts = Tree.tokensOf trees ++ rest := by
  obtain ⟨first, middle, last, hlines, heof, rfl⟩ := andThen_eq_some h
  obtain ⟨t, -, rfl, rfl⟩ := frontToken?_eq_some heof
  rw [Tree.tokensOf_append, List.append_assoc]
  exact linesFront?_append hlines

/-- A file is its lines and the end token after them, with nothing but end tokens behind it. -/
theorem fileTree?_iff_linesFront? {stop : Bool} {ts : List Token} {tree : Tree} :
    fileTree? stop ts = some tree ↔
      ∃ lines f rest, linesFront? stop ts = some (lines, f :: rest) ∧ f.kind = .eof ∧
        rest.head?.all (·.kind == .eof) = true ∧ tree = .node "orders" (lines ++ [.leaf f]) := by
  constructor
  · intro h
    obtain ⟨⟨trees, rest⟩, hfile, htree⟩ := Option.bind_eq_some_iff.mp h
    obtain ⟨hend, heq⟩ := Option.ite_none_right_eq_some.mp htree
    obtain ⟨lines, middle, last, hlines, heof, rfl⟩ := andThen_eq_some hfile
    obtain ⟨f, hf, rfl, rfl⟩ := frontToken?_eq_some heof
    exact ⟨lines, f, rest, hlines, eq_of_beq hf, hend, (Option.some.inj heq).symm⟩
  · rintro ⟨lines, f, rest, hlines, hf, hend, rfl⟩
    have heof : frontToken? (·.kind == .eof) (f :: rest) = some ([.leaf f], rest) :=
      if_pos (beq_iff_eq.mpr hf)
    rw [fileTree?, fileFront?, andThen_of_eq_some hlines heof]
    exact if_pos hend

/-- The tree of a file holds the lines and the end token after them. -/
theorem linesFront?_of_fileTree? {stop : Bool} {ts : List Token} {tree : Tree}
    (h : fileTree? stop ts = some tree) :
    ∃ lines f rest, linesFront? stop ts = some (lines, f :: rest) ∧ f.kind = .eof ∧
      tree = .node "orders" (lines ++ [.leaf f]) := by
  obtain ⟨lines, f, rest, hlines, hf, -, htree⟩ := fileTree?_iff_linesFront?.mp h
  exact ⟨lines, f, rest, hlines, hf, htree⟩

/-- Lines up to an end token that is the last token make a file. -/
theorem fileTree?_of_linesFront? {stop : Bool} {ts : List Token} {lines : List Tree} {f : Token}
    (h : linesFront? stop ts = some (lines, [f])) (hf : f.kind = .eof) :
    fileTree? stop ts = some (.node "orders" (lines ++ [.leaf f])) :=
  fileTree?_iff_linesFront?.mpr ⟨lines, f, [], h, hf, rfl, rfl⟩

/-! ### Parses of lines -/

theorem command_repeatsRules (k : Keyword) : (command k).repeatsRules = true := by
  cases k <;> rfl

/-- Where a keyword is next, an order is what its pattern says. -/
theorem order_of_keyword {k : Keyword} {p : Parse} (h : p.next?.bind Keyword.ofToken? = some k) :
    order p = p.within "order" (command k).follow := by
  have hnext : (p.enter "order").next?.bind Keyword.ofToken? = some k := h
  rw [order, Parse.within_eq, Parse.within_eq, hnext]

/-- Where no keyword is next, an order fails at once. -/
theorem order_of_none {p : Parse} (h : p.next?.bind Keyword.ofToken? = none) :
    order p = p.within "order" fun q ↦ (false, q) := by
  have hnext : (p.enter "order").next?.bind Keyword.ofToken? = none := h
  rw [order, Parse.within_eq, Parse.within_eq, hnext]

/-- A parse of an order goes as the reading of the tokens left goes. -/
theorem order_agreesWhole {p : Parse} (hopen : p.frames ≠ []) :
    AgreesWhole p (order p) (orderFront? p.rest) := by
  refine within_agreesWhole hopen ?_
  rw [Parse.next?_eq, Parse.rest_enter]
  cases p.rest.head?.bind Keyword.ofToken? with
  | none => exact ⟨rfl, .of_bare_eq rfl⟩
  | some k =>
    exact (@follow_agrees_and _ (command_repeatsRules k) (p.enter "order")
      (List.cons_ne_nil _ _)).1

/-- A parse that skips a line goes as the reading goes, if it may go on for as long as there are
tokens. -/
theorem skipLine_agrees (n : Nat) (p : Parse) (hfuel : p.rest.length < n) :
    Agrees p (skipLine n p) (skipFront? p.rest) := by
  induction n generalizing p with
  | zero => omega
  | succ n ih =>
    have hadvance := attempt_agreesWhole "ANY" (fun _ ↦ true) p
    rw [skipLine, Parse.sees, Parse.next?_eq, Parse.advance]
    generalize p.attempt "ANY" (fun _ ↦ true) = result at hadvance
    obtain ⟨success, later⟩ := result
    cases hrest : p.rest with
    | nil =>
      rw [hrest] at hadvance
      have hsuccess : success = false := hadvance.1
      rw [hsuccess]
      exact ⟨rfl, .of_bare_eq hadvance.2⟩
    | cons t ts =>
      rw [skipFront?, List.head?_cons, Option.any_some]
      split
      · exact ⟨rfl, (Parse.took_nil _).symm⟩
      rw [hrest] at hadvance
      have hsuccess : success = true := hadvance.1
      have hbare : later.bare = p.bare.took [.leaf t] := hadvance.2
      have hlater : later.rest = ts := rest_of_took hbare hrest
      have hskip := ih later (by rw [hlater]; simp [hrest] at hfuel; omega)
      rw [hlater] at hskip
      rw [hsuccess]
      dsimp only
      cases hread : skipFront? ts with
      | none =>
        rw [hread] at hskip
        exact ⟨hskip.1, hskip.2.of_took hbare⟩
      | some read =>
        rw [hread] at hskip
        exact ⟨hskip.1, by rw [hskip.2, hbare, Parse.took_took]; rfl⟩

theorem acceptKind_agreesWhole (kind : Token.Kind) (p : Parse) :
    AgreesWhole p (p.acceptKind kind) (frontToken? (·.kind == kind) p.rest) := by
  have haccept := accept_agreesWhole ⟨kind, none⟩ p
  rwa [frontToken?_congr _ fun t _ ↦ accepts_kind kind t] at haccept

/-- A parse of an unknown line goes as the reading goes. -/
theorem unknown_agreesWhole {p : Parse} (hopen : p.frames ≠ []) :
    AgreesWhole p (unknown p) (unknownFront? p.rest) := by
  refine within_agreesWhole hopen ?_
  have hskip := skipLine_agrees ((p.enter "unknown").remaining + 1) (p.enter "unknown")
    (by rw [Parse.remaining_eq]; omega)
  change Agrees _ (onSuccess (·.acceptKind .eol) (skipLine _ (p.enter "unknown"))) _
  exact agrees_andThen (fun _ _ ↦ skipFront?_append) hskip fun later _ _ _ _ hrest ↦
    hrest ▸ (acceptKind_agreesWhole .eol later).agrees

theorem frames_ne_nil_of_bare_eq {p later : Parse} (hopen : p.frames ≠ [])
    (h : later.bare = p.bare) : later.frames ≠ [] :=
  frames_ne_nil_of_took hopen (h.trans (Parse.took_nil _).symm)

/-- What is tried after a step, if that failed. -/
def onFailure (orElse : Parse → Bool × Parse) : Bool × Parse → Bool × Parse
  | (true, p) => (true, p)
  | (false, p) => orElse p

/-- A step that tries something else after a failure agrees with the first of two readings that
gives something. -/
theorem agreesWhole_or {orElse : Parse → Bool × Parse}
    (next : List Token → Option (List Tree × List Token)) {p : Parse} {first : Bool × Parse}
    {read : Option (List Tree × List Token)} (hfirst : AgreesWhole p first read)
    (hnext : ∀ later, later.bare = p.bare → AgreesWhole later (orElse later) (next later.rest)) :
    AgreesWhole p (onFailure orElse first) (read.or (next p.rest)) := by
  obtain ⟨success, later⟩ := first
  cases read with
  | some read =>
    have hread : success = true := hfirst.1
    rw [hread]
    exact ⟨rfl, hfirst.2⟩
  | none =>
    have hread : success = false := hfirst.1
    have hbare : later.bare = p.bare := hfirst.2
    have hafter := hnext later hbare
    rw [hread, Option.none_or, ← Parse.rest_bare, ← hbare, Parse.rest_bare]
    cases hrest : next later.rest with
    | none =>
      rw [hrest] at hafter
      exact ⟨hafter.1, hafter.2.trans hbare⟩
    | some read =>
      rw [hrest] at hafter
      refine ⟨hafter.1, ?_⟩
      change (orElse later).2.bare = _
      rw [hafter.2, hbare]

/-- A parse of a line goes as the reading goes, in either mode. -/
theorem line_agreesWhole (stop : Bool) {p : Parse} (hopen : p.frames ≠ []) :
    AgreesWhole p (line stop p) (lineFront? stop p.rest) := by
  let last (p : Parse) : Bool × Parse := if stop then (false, p) else unknown p
  change AgreesWhole p (onFailure (fun p ↦ onFailure last (p.acceptKind .eol)) (order p)) _
  refine agreesWhole_or (fun ts ↦ (eolFront? ts).or (if stop then none else unknownFront? ts))
    (order_agreesWhole hopen) ?_
  intro middle hmiddle
  refine agreesWhole_or (fun ts ↦ if stop then none else unknownFront? ts)
    (acceptKind_agreesWhole .eol middle) ?_
  intro later hlater
  cases stop with
  | true => exact ⟨rfl, rfl⟩
  | false => exact unknown_agreesWhole (frames_ne_nil_of_bare_eq hopen (hlater.trans hmiddle))

theorem sees_singleton (kind : Token.Kind) (p : Parse) :
    p.sees [kind] = p.rest.head?.any (·.kind == kind) := by
  rw [Parse.sees, Parse.next?_eq]
  simp only [List.contains_cons, List.contains_nil, Bool.or_false]

/-- A parse of all lines goes as the reading goes, if it may go on for as long as there are
tokens. -/
theorem lines_agrees (stop : Bool) (n : Nat) (p : Parse) (hopen : p.frames ≠ [])
    (hfuel : p.rest.length < n) : Agrees p (lines stop n p) (linesFront? stop p.rest) := by
  induction n generalizing p with
  | zero => omega
  | succ n ih =>
    rw [lines, sees_singleton]
    by_cases heof : p.rest.head?.any (·.kind == .eof) = true
    · rw [linesFront?_of_eof heof, if_pos heof]
      exact ⟨rfl, (Parse.took_nil _).symm⟩
    · rw [linesFront?_of_not_eof heof, if_neg heof]
      change Agrees p (onSuccess (lines stop n) (line stop p)) _
      refine agrees_andThen (fun _ _ ↦ lineFront?_append) (line_agreesWhole stop hopen).agrees
        fun later trees rest hline hbare hrest ↦ ?_
      have hshorter := lineFront?_length_lt hline
      subst hrest
      exact ih later (frames_ne_nil_of_took hopen hbare) (by omega)

/-! ### The tree of a parse -/

theorem rest_start (ts : List Token) : (Parse.start ts).rest = ts := by
  simp [Parse.start, Parse.rest]

/-- The tree after a root rule is closed whose body read what the file reads. -/
theorem tree_close_of_agrees {stop : Bool} {ts : List Token} {result : Bool × Parse}
    (h : Agrees ((Parse.start ts).enter "orders") result (fileFront? stop ts)) :
    (result.2.close result.1).2.tree = fileTree? stop ts := by
  rw [fileTree?]
  cases hread : fileFront? stop ts with
  | none =>
    rw [hread] at h
    obtain ⟨cursor, children, hbare⟩ := h.2
    rw [Parse.tree_close_root _ hbare rfl, h.1]
    rfl
  | some read =>
    obtain ⟨trees, rest⟩ := read
    rw [hread] at h
    have hrest : (((Parse.start ts).enter "orders").bare.took trees).rest = rest := by
      rw [← h.2, Parse.rest_bare]
      refine rest_of_took h.2 ?_
      rw [Parse.rest_enter, rest_start]
      exact fileFront?_append hread
    rw [Parse.tree_close_root _ h.2 rfl, hrest, h.1]
    simp [Parse.enter, Parse.start, Parse.took, Parse.bare, Parse.Frame.bare]

/-- What a parse of a whole file does before it closes the root rule. -/
theorem fileBody_agrees (stop : Bool) (ts : List Token) :
    Agrees ((Parse.start ts).enter "orders")
      (onSuccess (·.acceptKind .eof)
        (lines stop (((Parse.start ts).enter "orders").remaining + 1)
          ((Parse.start ts).enter "orders")))
      (fileFront? stop ts) := by
  have hlines := lines_agrees stop (((Parse.start ts).enter "orders").remaining + 1)
    ((Parse.start ts).enter "orders") (List.cons_ne_nil _ _)
    (by rw [Parse.remaining_eq]; omega)
  rw [Parse.rest_enter, rest_start] at hlines
  exact agrees_andThen (fun _ _ h ↦ rest_start ts ▸ linesFront?_append h) hlines
    fun later _ _ _ _ hrest ↦ hrest ▸ (acceptKind_agreesWhole .eof later).agrees

/-- The tree that a parse of a whole file ends with. -/
theorem orders_tree (stop : Bool) (ts : List Token) :
    (orders stop (Parse.start ts)).2.tree = fileTree? stop ts :=
  tree_close_of_agrees (fileBody_agrees stop ts)

end OrderFile.Grammar

namespace OrderFile

open Grammar

/-- The tree of a parse is the one that is read off the prepared stream. -/
theorem parseTokens_tree (tokens : List Token) (options : Options) :
    (parseTokens tokens options).tree =
      fileTree? options.stopOnFirstError (Token.prepare tokens) :=
  orders_tree ..

/-- A token stream is read exactly if its prepared form has a tree, and into the orders of that
tree. -/
theorem readTokens_eq_ok_iff {tokens : List Token} {options : Options} {reading : Reading} :
    readTokens tokens options = .ok reading ↔
      fileTree? options.stopOnFirstError (Token.prepare tokens) = some reading.tree ∧
        Order.allOfTree reading.tree = (reading.orders, reading.errors) ∧
        reading.trace =
          if options.emitTrace then (parseTokens tokens options).trace else none := by
  rw [← parseTokens_tree, readTokens]
  cases htree : (parseTokens tokens options).tree with
  | none => simp
  | some tree =>
    constructor
    · intro h
      cases h
      exact ⟨rfl, rfl, rfl⟩
    · rintro ⟨heq, horders, htrace⟩
      cases heq
      cases reading
      simp_all

/-- A token stream is rejected exactly if its prepared form has no tree, for the reason that its
parse gives. -/
theorem readTokens_eq_error_iff {tokens : List Token} {options : Options}
    {rejection : Rejection} :
    readTokens tokens options = .error rejection ↔
      fileTree? options.stopOnFirstError (Token.prepare tokens) = none ∧
        rejection =
          ⟨(parseTokens tokens options).fault.getD
              ⟨.unexpected 0 "" "root rule did not run", none⟩,
            (parseTokens tokens options).trace⟩ := by
  rw [← parseTokens_tree, readTokens]
  cases htree : (parseTokens tokens options).tree with
  | none => exact ⟨fun h ↦ ⟨rfl, (Except.error.inj h).symm⟩, fun h ↦ congrArg Except.error h.2.symm⟩
  | some tree => simp

end OrderFile
