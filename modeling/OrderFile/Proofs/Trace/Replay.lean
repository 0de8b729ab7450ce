import OrderFile.Proofs.Parse.Bare

/-!
A trace read as a recording. Replaying it moves a cursor over the tokens: a match moves it by one, a
miss leaves it, and a rule that failed puts it back. What is left of a trace without its failures is
a parse tree, and `tokens_of_replays` says that the tokens of that tree are those that the replay
moves over.
-/

set_option autoImplicit false

namespace OrderFile

/-- The tokens from one index up to another one. -/
def Token.between (ts : List Token) (first last : Nat) : List Token :=
  (ts.take last).drop first

namespace Token

variable {ts : List Token}

@[simp] theorem between_self (index : Nat) : between ts index index = [] := by
  simp [between]

/-- What lies between two places lies before or after one between them. -/
theorem between_append {first middle last : Nat} (hfirst : first ≤ middle) (hlast : middle ≤ last)
    (hmiddle : middle ≤ ts.length) :
    between ts first middle ++ between ts middle last = between ts first last := by
  have hsplit : ts.take last = ts.take middle ++ between ts middle last := by
    rw [between, ← List.take_append_drop middle (ts.take last), List.take_take,
      Nat.min_eq_left hlast, List.drop_left' (List.length_take_of_le hmiddle)]
  have hlength : first ≤ (ts.take middle).length := by
    rwa [List.length_take_of_le hmiddle]
  symm
  rw [between, hsplit, List.drop_append_of_le_length hlength]
  rfl

theorem between_succ {index : Nat} {t : Token} (ht : ts[index]? = some t) :
    between ts index (index + 1) = [t] := by
  have hlt : index < ts.length := (List.getElem?_eq_some_iff.mp ht).1
  rw [between, List.take_add_one, ht, Option.toList_some,
    List.drop_left' (List.length_take_of_le (Nat.le_of_lt hlt))]

end Token

namespace Trace

/-! ### Replaying -/

mutual

/-- Where the cursor stands after a trace is replayed from an index on. -/
def cursorAfter (cursor : Nat) : Trace → Nat
  | entry (.attempt _ _ matched) _ => if matched then cursor + 1 else cursor
  | entry (.rule _ succeeded) children =>
    if succeeded then cursorAfterAll cursor children else cursor

def cursorAfterAll (cursor : Nat) : List Trace → Nat
  | [] => cursor
  | trace :: traces => cursorAfterAll (trace.cursorAfter cursor) traces

end

mutual

/-- Whether every attempt in a trace found the token that the cursor stands at when the trace is
replayed, or nothing if the cursor is past the end. Only a token can be matched. -/
def Replays (ts : List Token) (cursor : Nat) : Trace → Prop
  | entry (.attempt _ found matched) _ =>
    found = ts[cursor]? ∧ (matched = true → found.isSome = true)
  | entry (.rule _ _) children => ReplaysAll ts cursor children

def ReplaysAll (ts : List Token) (cursor : Nat) : List Trace → Prop
  | [] => True
  | trace :: traces => trace.Replays ts cursor ∧ ReplaysAll ts (trace.cursorAfter cursor) traces

end

mutual

/-- The parse tree that is left of a trace when every rule that failed and every miss is taken out
and every match is replaced by its token. -/
def kept? : Trace → Option Tree
  | entry (.attempt _ found matched) _ => if matched then found.map .leaf else none
  | entry (.rule name succeeded) children =>
    if succeeded then some (.node name (keptOf children)) else none

def keptOf : List Trace → List Tree
  | [] => []
  | trace :: traces => trace.kept?.toList ++ keptOf traces

end

/-! ### Traces in a row -/

/-- Replaying two parts is replaying one and then the other. -/
theorem cursorAfterAll_append (cursor : Nat) (first second : List Trace) :
    cursorAfterAll cursor (first ++ second) =
      cursorAfterAll (cursorAfterAll cursor first) second := by
  induction first generalizing cursor with
  | nil => rw [List.nil_append, cursorAfterAll]
  | cons trace first ih => rw [List.cons_append, cursorAfterAll, cursorAfterAll, ih]

/-- Two parts are a recording exactly if the second one is from where the first one ends. -/
theorem replaysAll_append_iff {ts : List Token} {cursor : Nat} {first second : List Trace} :
    ReplaysAll ts cursor (first ++ second) ↔
      ReplaysAll ts cursor first ∧ ReplaysAll ts (cursorAfterAll cursor first) second := by
  induction first generalizing cursor with
  | nil => simp [ReplaysAll, cursorAfterAll]
  | cons trace first ih =>
    rw [List.cons_append, ReplaysAll, ReplaysAll, cursorAfterAll, ih, and_assoc]

theorem keptOf_append (first second : List Trace) :
    keptOf (first ++ second) = keptOf first ++ keptOf second := by
  induction first with
  | nil => rw [List.nil_append, keptOf, List.nil_append]
  | cons trace first ih => rw [List.cons_append, keptOf, keptOf, ih, List.append_assoc]

/-! ### What a replay moves over -/

mutual

/-- A replay moves forward and not past the end, and what is left of the trace are the tokens that
it moved over. -/
theorem tokens_of_replays {ts : List Token} {cursor : Nat} (hcursor : cursor ≤ ts.length) :
    (trace : Trace) → trace.Replays ts cursor →
      cursor ≤ trace.cursorAfter cursor ∧ trace.cursorAfter cursor ≤ ts.length ∧
        Tree.tokensOf trace.kept?.toList = Token.between ts cursor (trace.cursorAfter cursor)
  | entry (.attempt _ found matched) _, h => by
    obtain ⟨hfound, hmatched⟩ := h
    cases matched with
    | false => simpa [cursorAfter, kept?] using hcursor
    | true =>
      obtain ⟨t, rfl⟩ := Option.isSome_iff_exists.mp (hmatched rfl)
      have hlt : cursor < ts.length := (List.getElem?_eq_some_iff.mp hfound.symm).1
      rw [cursorAfter, if_pos rfl, kept?, if_pos rfl]
      refine ⟨Nat.le_succ cursor, hlt, ?_⟩
      rw [Token.between_succ hfound.symm]
      simp
  | entry (.rule _ succeeded) children, h => by
    cases succeeded with
    | false => simpa [cursorAfter, kept?] using hcursor
    | true =>
      rw [cursorAfter, if_pos rfl, kept?, if_pos rfl, Option.toList_some, Tree.tokensOf_cons,
        Tree.tokens_node, Tree.tokensOf_nil, List.append_nil]
      exact tokens_of_replaysAll hcursor children h

theorem tokens_of_replaysAll {ts : List Token} {cursor : Nat} (hcursor : cursor ≤ ts.length) :
    (traces : List Trace) → ReplaysAll ts cursor traces →
      cursor ≤ cursorAfterAll cursor traces ∧ cursorAfterAll cursor traces ≤ ts.length ∧
        Tree.tokensOf (keptOf traces) = Token.between ts cursor (cursorAfterAll cursor traces)
  | [], _ => by simpa [cursorAfterAll, keptOf] using hcursor
  | trace :: traces, h => by
    obtain ⟨hfirst, hothers⟩ := h
    obtain ⟨hle, hlength, htokens⟩ := tokens_of_replays hcursor trace hfirst
    obtain ⟨hle', hlength', htokens'⟩ := tokens_of_replaysAll hlength traces hothers
    rw [cursorAfterAll, keptOf, Tree.tokensOf_append, htokens, htokens',
      Token.between_append hle hle' hlength]
    exact ⟨Nat.le_trans hle hle', hlength', rfl⟩

end

end Trace

end OrderFile
