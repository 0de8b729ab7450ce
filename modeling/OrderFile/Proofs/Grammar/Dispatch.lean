import OrderFile.Proofs.Grammar.Linear
import OrderFile.Proofs.Parse.Logged
import OrderFile.Proofs.Trace.Placed

/-!
One token decides which order comes. In the trace of a file every order holds the rule of the
keyword that stands where the order begins, and nothing if none stands there; no rule of a keyword
is tried in any other place (`orders_dispatch`). What comes after the keyword tries no rules but
those of the operands, and none of them has the name of a keyword.
-/

set_option autoImplicit false

namespace OrderFile.Grammar

open Parse (Composes Logged Logs logged_attempt logged_within)
open Trace (NamesIn placedAll placedAll_append cursorAfterAll)

/-! ### Rules in patterns -/

namespace Pattern

/-- The names of the rules in a pattern. -/
def ruleNames : Pattern → List String
  | seq first second | choice first second => first.ruleNames ++ second.ruleNames
  | optional body | repeated body _ => body.ruleNames
  | rule name body => name :: body.ruleNames
  | empty | token _ | anyOf _ | oneWord _ | integerIn _ _ => []

/-- A later parse that has noted entries in the innermost rule whose rules have these names. -/
abbrev LogsOnly (names : List String) : Parse → Parse → Prop :=
  Logs fun _ _ ↦ NamesIn names

/-- Rules in a row have some of the names if each of them has. -/
theorem composes_namesIn (names : List String) : Composes fun _ _ ↦ NamesIn names where
  nil _ _ := Trace.namesIn_nil names
  append hfirst hsecond := hfirst.append hsecond

theorem LogsOnly.mono {names more : List String} {p later : Parse} (h : LogsOnly names p later)
    (hnames : names ⊆ more) : LogsOnly more p later :=
  Logs.mono h fun _ _ _ hentries ↦ hentries.mono hnames

theorem logsOnly_attempt (names : List String) (expected : String) (test : Token → Bool)
    (p : Parse) : LogsOnly names p (p.attempt expected test).2 :=
  Parse.logs_attempt (fun _ _ ↦ Trace.namesIn_attempt names expected) test p

theorem logsOnly_miss (names : List String) (expected : String) (p : Parse) :
    LogsOnly names p (p.miss expected) :=
  Parse.logs_miss (fun _ _ ↦ Trace.namesIn_attempt names expected) p

/-- Repeating a step tries no rules but those of the step. -/
theorem logsOnly_repeatUntil {names : List String} {stop : String} {body : Parse → Bool × Parse}
    (hbody : ∀ p, LogsOnly names p (body p).2) (n : Nat) (p : Parse) :
    LogsOnly names p (repeatUntil stop body n p) := by
  induction n generalizing p with
  | zero => exact .refl (composes_namesIn names) p
  | succ n ih =>
    have hfirst := hbody p
    rw [repeatUntil]
    split
    · exact .refl (composes_namesIn names) p
    generalize body p = result at hfirst
    obtain ⟨success, later⟩ := result
    cases success with
    | false => exact hfirst
    | true => exact hfirst.trans (composes_namesIn names) (ih later)

/-- A pattern that is followed tries no rules but its own. -/
theorem follow_logsOnly (pattern : Pattern) (p : Parse) :
    LogsOnly pattern.ruleNames p (pattern.follow p).2 := by
  induction pattern generalizing p with
  | empty => exact .refl (composes_namesIn _) p
  | token shape => exact logsOnly_attempt _ _ _ p
  | anyOf kinds =>
    rw [follow, Parse.acceptAnyOf]
    split
    · exact logsOnly_attempt _ _ _ p
    · exact logsOnly_miss _ _ p
  | oneWord words =>
    unfold follow
    split
    · exact logsOnly_attempt _ _ _ p
    · exact logsOnly_attempt _ _ _ p
    · exact .refl (composes_namesIn _) p
  | integerIn low high => exact logsOnly_attempt _ _ _ p
  | seq first second ihfirst ihsecond =>
    have hfirst := (ihfirst p).mono (List.subset_append_left _ second.ruleNames)
    rw [follow]
    generalize first.follow p = result at hfirst
    obtain ⟨success, later⟩ := result
    cases success with
    | false => exact hfirst
    | true =>
      have hsecond := (ihsecond later).mono (List.subset_append_right first.ruleNames _)
      exact Logs.trans (composes_namesIn _) hfirst hsecond
  | optional body ih =>
    rw [follow]
    split
    · exact ih p
    · exact .refl (composes_namesIn _) p
  | choice first second ihfirst ihsecond =>
    rw [follow]
    split
    · exact (ihfirst p).mono (List.subset_append_left _ _)
    · exact (ihsecond p).mono (List.subset_append_right _ _)
  | repeated body stop ih => exact logsOnly_repeatUntil ih _ p
  | rule name body ih =>
    exact Parse.logs_within (fun _ _ _ succeeded hentries ↦ hentries.rule name succeeded) (ih _)

end Pattern

open Pattern

/-! ### Entries that dispatch -/

/-- What an entry of a trace holds that begins at an index. -/
structure DispatchesAt (ts : List Token) (cursor : Nat) (node : Trace) : Prop where
  /-- An order tries at most one rule. -/
  single : node.ruleName? = some "order" → node.children.length ≤ 1
  /-- It tries one just if the token where it begins spells a keyword. -/
  tries_iff : node.ruleName? = some "order" → (node.children ≠ [] ↔
    ∃ (t : Token) (k : Keyword), ts[cursor]? = some t ∧ t.spells k.word = true)
  /-- This is the rule of the keyword, in which that token is matched before all else. -/
  keyword : node.ruleName? = some "order" → ∀ (t : Token) (k : Keyword), ts[cursor]? = some t →
    t.spells k.word = true → ∃ succeeded others, node.children =
      [.entry (.rule k.word succeeded)
        (.entry (.attempt (Shape.keyword k.word).display (some t) true) [] :: others)]
  /-- Only an order tries the rule of a keyword. -/
  elsewhere : node.ruleName? ≠ some "order" →
    ∀ child ∈ node.children, ∀ k : Keyword, child.ruleName? ≠ some k.word

/-- Entries of a rule other than an order, replayed from an index. -/
structure Dispatched (ts : List Token) (cursor : Nat) (entries : List Trace) : Prop where
  everywhere : ∀ place ∈ placedAll cursor entries, DispatchesAt ts place.1 place.2
  top : ∀ entry ∈ entries, ∀ k : Keyword, entry.ruleName? ≠ some k.word

/-- An entry that is no order dispatches if what is under it does. -/
theorem dispatchesAt_of_ne {ts : List Token} {cursor : Nat} {node : Trace}
    (hname : node.ruleName? ≠ some "order")
    (htop : ∀ child ∈ node.children, ∀ k : Keyword, child.ruleName? ≠ some k.word) :
    DispatchesAt ts cursor node where
  single h := absurd h hname
  tries_iff h := absurd h hname
  keyword h := absurd h hname
  elsewhere _ := htop

/-- Entries in a row are dispatched if each of them is. -/
theorem composes_dispatched : Composes Dispatched where
  nil ts cursor := ⟨by simp, by simp⟩
  append {ts cursor first second} hfirst hsecond := by
    constructor
    · intro place hplace
      rw [placedAll_append, List.mem_append] at hplace
      exact hplace.elim (hfirst.everywhere place) (hsecond.everywhere place)
    · intro entry hentry
      exact (List.mem_append.mp hentry).elim (hfirst.top entry) (hsecond.top entry)

/-- The names of the rules that only an order tries, and its own. -/
def orderNames : List String := "order" :: Keyword.all.map Keyword.word

theorem word_mem_orderNames (k : Keyword) : k.word ∈ orderNames :=
  List.mem_cons_of_mem _ (List.mem_map_of_mem k.mem_all)

/-- Entries without orders and rules of keywords. -/
theorem dispatched_of_namesIn {names : List String} {entries : List Trace}
    (hnames : ∀ name ∈ names, name ∉ orderNames) (h : NamesIn names entries) (ts : List Token)
    (cursor : Nat) : Dispatched ts cursor entries := by
  have hkeyword {start : Nat} {entry : Trace} (hentry : (start, entry) ∈ placedAll cursor entries)
      (k : Keyword) : entry.ruleName? ≠ some k.word := by
    intro hk
    exact hnames _ (h cursor _ hentry _ hk) (word_mem_orderNames k)
  constructor
  · rintro ⟨start, entry⟩ hentry
    refine dispatchesAt_of_ne (fun horder ↦ ?_) fun child hchild k ↦ ?_
    · exact hnames _ (h cursor _ hentry _ horder) List.mem_cons_self
    · obtain ⟨index, hindex⟩ := Trace.exists_placedAll_child hchild entries hentry
      exact hkeyword hindex k
  · intro entry hentry k
    obtain ⟨start, hstart⟩ := Trace.exists_placed_of_mem hentry cursor
    exact hkeyword hstart k

/-- An entry that is no rule of a keyword is dispatched if it and all below it dispatch as they
should. -/
theorem dispatched_singleton {ts : List Token} {cursor : Nat} {node : Trace}
    (hnode : DispatchesAt ts cursor node) (hname : ∀ k : Keyword, node.ruleName? ≠ some k.word)
    (hbelow : ∀ place ∈ placedAll cursor node.children, DispatchesAt ts place.1 place.2) :
    Dispatched ts cursor [node] := by
  obtain ⟨label, children⟩ := node
  constructor
  · intro place hplace
    rw [Trace.placedAll_singleton, Trace.placed_entry, List.mem_cons] at hplace
    obtain rfl | hplace := hplace
    · exact hnode
    · exact hbelow place hplace
  · intro entry hentry
    obtain rfl := List.mem_singleton.mp hentry
    exact hname

/-- A rule with another name. -/
theorem Dispatched.rule {ts : List Token} {cursor : Nat} {entries : List Trace}
    (h : Dispatched ts cursor entries) {name : String} (hname : name ∉ orderNames)
    (succeeded : Bool) : Dispatched ts cursor [.entry (.rule name succeeded) entries] := by
  refine dispatched_singleton (dispatchesAt_of_ne (fun horder ↦ hname ?_) h.top)
    (fun k hk ↦ hname ?_) h.everywhere
  · rw [Option.some.inj horder]
    exact List.mem_cons_self
  · rw [Option.some.inj hk]
    exact word_mem_orderNames k

/-! ### Orders -/

/-- The rule of a keyword that comes next matches it and goes on with its operands. -/
theorem command_logged {k : Keyword} {p : Parse} {t : Token} (hopen : p.frames ≠ [])
    (ht : p.next? = some t) (hk : t.spells k.word = true) :
    ∃ succeeded others, NamesIn (sequence (operands k)).ruleNames others ∧
      Logged [.entry (.rule k.word succeeded)
        (.entry (.attempt (Shape.keyword k.word).display (some t) true) [] :: others)] p
          ((command k).follow p).2 := by
  have hword : (p.enter k.word).acceptWord k.word =
      (true, (p.enter k.word).take (Shape.keyword k.word).display t) := by
    have hnext : (p.enter k.word).next? = some t := ht
    rw [Parse.acceptWord, Parse.accept, Parse.attempt, hnext]
    exact if_pos hk
  have hbody := commandBody_of_taken hword
  have hfirst := Parse.logged_take (Shape.keyword k.word).display (p := p.enter k.word) ht
  obtain ⟨others, hothers, hnames⟩ := follow_logsOnly (sequence (operands k)) _
    (hfirst.noted.frames_ne_nil (List.cons_ne_nil _ _))
  have hinside := hfirst.append hothers
  rw [← hbody] at hinside
  exact ⟨_, others, hnames, logged_within hopen hinside⟩

/-- No rule of operands has the name of an order. -/
theorem operands_names (k : Keyword) :
    ∀ name ∈ (sequence (operands k)).ruleNames, name ∉ orderNames := by
  cases k <;> decide

theorem word_ne_order (k : Keyword) : k.word ≠ "order" := by
  cases k <;> decide

/-- An order in which the rule of a keyword was tried. -/
theorem dispatched_order {ts : List Token} {cursor : Nat} {k : Keyword} {t : Token}
    (ht : ts[cursor]? = some t) (hk : t.spells k.word = true) {others : List Trace}
    (hothers : NamesIn (sequence (operands k)).ruleNames others) (success succeeded : Bool) :
    Dispatched ts cursor [.entry (.rule "order" success) [.entry (.rule k.word succeeded)
      (.entry (.attempt (Shape.keyword k.word).display (some t) true) [] :: others)]] := by
  have hinside : Dispatched ts cursor
      (.entry (.attempt (Shape.keyword k.word).display (some t) true) [] :: others) :=
    dispatched_of_namesIn (operands_names k) ((Trace.namesIn_attempt _ _ _ _).append hothers) ts
      cursor
  refine dispatched_singleton ⟨fun _ ↦ Nat.le_refl 1, fun _ ↦ ?_, fun _ ↦ ?_, absurd rfl⟩
    (fun k' hk' ↦ word_ne_order k' (Option.some.inj hk').symm) ?_
  · exact ⟨fun _ ↦ ⟨t, k, ht, hk⟩, fun _ ↦ List.cons_ne_nil _ _⟩
  · intro t' k' ht' hk'
    obtain rfl : t = t' := Option.some.inj (ht.symm.trans ht')
    -- A token spells one keyword at most.
    obtain rfl : k = k' := Option.some.inj
      ((Keyword.ofToken?_of_spells hk).symm.trans (Keyword.ofToken?_of_spells hk'))
    exact ⟨succeeded, others, rfl⟩
  · intro place hplace
    rw [Trace.children, Trace.placedAll_singleton, Trace.placed_entry, List.mem_cons] at hplace
    obtain rfl | hbelow := hplace
    · exact dispatchesAt_of_ne (fun h ↦ word_ne_order k (Option.some.inj h)) hinside.top
    · exact hinside.everywhere place hbelow

/-- An order that no keyword starts. -/
theorem dispatched_order_nil {ts : List Token} {cursor : Nat}
    (hnone : ts[cursor]?.bind Keyword.ofToken? = none) (success : Bool) :
    Dispatched ts cursor [.entry (.rule "order" success) []] := by
  have hnever (t : Token) (k : Keyword) (ht : ts[cursor]? = some t) : ¬ t.spells k.word = true := by
    intro hk
    rw [ht, Option.bind_some, Keyword.ofToken?_of_spells hk] at hnone
    cases hnone
  refine dispatched_singleton ⟨fun _ ↦ Nat.zero_le 1, fun _ ↦ ?_,
    fun _ t k ht hk ↦ absurd hk (hnever t k ht), absurd rfl⟩
    (fun k hk ↦ word_ne_order k (Option.some.inj hk).symm) (by simp [Trace.children])
  refine ⟨fun h ↦ absurd rfl h, ?_⟩
  rintro ⟨t, k, ht, hk⟩
  exact absurd hk (hnever t k ht)

/-- An order is dispatched, whether it succeeds or fails. -/
theorem order_logs (p : Parse) : Logs Dispatched p (order p).2 := by
  intro hopen
  have hnext : p.next? = p.tokens.toList[p.cursor]? := by rw [Parse.next?, Array.getElem?_toList]
  cases hk : p.next?.bind Keyword.ofToken? with
  | none =>
    rw [order_of_none hk]
    refine ⟨_, logged_within hopen (Parse.logged_nil (p.enter "order")), ?_⟩
    exact dispatched_order_nil (hnext ▸ hk) _
  | some k =>
    obtain ⟨t, ht, hkeyword⟩ := Option.bind_eq_some_iff.mp hk
    have hspells := Keyword.spells_of_ofToken? hkeyword
    obtain ⟨succeeded, others, hnames, hlogged⟩ :=
      @command_logged k (p.enter "order") t (List.cons_ne_nil _ _) ht hspells
    rw [order_of_keyword hk]
    refine ⟨_, logged_within hopen hlogged, ?_⟩
    exact dispatched_order (hnext ▸ ht) hspells hnames _ succeeded

/-! ### Lines and files -/

/-- A step after a success keeps entries dispatched if both steps do. -/
theorem logs_onSuccess {p : Parse} {first : Bool × Parse} {next : Parse → Bool × Parse}
    (hfirst : Logs Dispatched p first.2) (hnext : ∀ later, Logs Dispatched later (next later).2) :
    Logs Dispatched p (onSuccess next first).2 := by
  obtain ⟨success, later⟩ := first
  cases success with
  | false => exact hfirst
  | true => exact hfirst.trans composes_dispatched (hnext later)

theorem logs_onFailure {p : Parse} {first : Bool × Parse} {orElse : Parse → Bool × Parse}
    (hfirst : Logs Dispatched p first.2)
    (horElse : ∀ later, Logs Dispatched later (orElse later).2) :
    Logs Dispatched p (onFailure orElse first).2 := by
  obtain ⟨success, later⟩ := first
  cases success with
  | true => exact hfirst
  | false => exact hfirst.trans composes_dispatched (horElse later)

theorem attempt_logs (expected : String) (test : Token → Bool) (p : Parse) :
    Logs Dispatched p (p.attempt expected test).2 :=
  Logs.mono (logsOnly_attempt [] expected test p) fun ts cursor _ hnames ↦
    dispatched_of_namesIn (by simp) hnames ts cursor

theorem skipLine_logs (n : Nat) (p : Parse) : Logs Dispatched p (skipLine n p).2 := by
  induction n generalizing p with
  | zero => exact .refl composes_dispatched p
  | succ n ih =>
    rw [skipLine]
    split
    · exact .refl composes_dispatched p
    · exact logs_onSuccess (attempt_logs "ANY" (fun _ ↦ true) p) ih

theorem unknown_logs (p : Parse) : Logs Dispatched p (unknown p).2 := by
  refine Parse.logs_within (Q := Dispatched) (fun ts cursor entries succeeded h ↦ ?_) ?_
  · exact h.rule (by decide) succeeded
  · exact logs_onSuccess (skipLine_logs _ _) (attempt_logs _ _)

theorem line_logs (stop : Bool) (p : Parse) : Logs Dispatched p (line stop p).2 := by
  let last (p : Parse) : Bool × Parse := if stop then (false, p) else unknown p
  change Logs Dispatched p
    (onFailure (fun p ↦ onFailure last (p.acceptKind .eol)) (order p)).2
  refine logs_onFailure (order_logs p) fun middle ↦ ?_
  refine logs_onFailure (attempt_logs _ _ middle) fun later ↦ ?_
  cases stop with
  | true => exact .refl composes_dispatched later
  | false => exact unknown_logs later

theorem lines_logs (stop : Bool) (n : Nat) (p : Parse) : Logs Dispatched p (lines stop n p).2 := by
  induction n generalizing p with
  | zero => exact .refl composes_dispatched p
  | succ n ih =>
    rw [lines]
    split
    · exact .refl composes_dispatched p
    · exact logs_onSuccess (line_logs stop p) ih

/-- Whatever the tokens, in either mode a parse leaves a trace that replays over them. Each order in
it tries the rule of the keyword that the token spells where the order begins, and no other one; and
the rule of a keyword is tried in orders only. -/
theorem orders_dispatch (stop : Bool) (ts : List Token) :
    ∃ trace, (orders stop (Parse.start ts)).2.trace = some trace ∧
      trace.ruleName? = some "orders" ∧ trace.Replays ts 0 ∧
      ∀ cursor node, (cursor, node) ∈ trace.placed 0 → DispatchesAt ts cursor node := by
  have hbody : Logs Dispatched ((Parse.start ts).enter "orders")
      (onSuccess (·.acceptKind .eof)
        (lines stop (((Parse.start ts).enter "orders").remaining + 1)
          ((Parse.start ts).enter "orders"))).2 :=
    logs_onSuccess (lines_logs stop _ _) (attempt_logs _ _)
  obtain ⟨entries, hlogged, hdispatched⟩ := hbody (List.cons_ne_nil _ _)
  obtain ⟨success, htrace⟩ : ∃ success, (orders stop (Parse.start ts)).2.trace =
      some (.entry (.rule "orders" success) entries) :=
    trace_within_root rfl hlogged.noted
  have hroot : Dispatched ts 0 [.entry (.rule "orders" success) entries] :=
    hdispatched.rule (by decide) success
  refine ⟨_, htrace, rfl, hlogged.replays, fun cursor node hnode ↦ ?_⟩
  refine hroot.everywhere (cursor, node) ?_
  rwa [Trace.placedAll_singleton]

end OrderFile.Grammar
