import OrderFile.Proofs.Token.Reworded

/-!
Parses of tokens that are told in other words. Each step of a parse does the same with the changed
tokens, up to the change: `attempt_map`, `acceptAnyOf_map`, `within_map`,
`place_close_root_map`.
-/

set_option autoImplicit false

namespace OrderFile

open Token (Rewords)

/-! ### Trees and traces with changed tokens -/

mutual

/-- The tree with every token changed. -/
def Tree.map (f : Token → Token) : Tree → Tree
  | leaf t => leaf (f t)
  | node rule children => node rule (mapAll f children)

def Tree.mapAll (f : Token → Token) : List Tree → List Tree
  | [] => []
  | tree :: trees => tree.map f :: mapAll f trees

end

namespace Tree

variable {f : Token → Token}

@[simp] theorem mapAll_eq_map (trees : List Tree) : mapAll f trees = trees.map (map f) := by
  induction trees with
  | nil => rfl
  | cons tree trees ih => rw [mapAll, ih, List.map_cons]

@[simp] theorem map_leaf (t : Token) : (leaf t).map f = leaf (f t) := rfl

@[simp] theorem map_node (rule : String) (children : List Tree) :
    (node rule children).map f = node rule (children.map (map f)) := by
  rw [map, mapAll_eq_map]

mutual

/-- A tree in other words holds the same tokens in other words. -/
theorem tokens_map (tree : Tree) : (tree.map f).tokens = tree.tokens.map f := by
  cases tree with
  | leaf t => rfl
  | node rule children => exact tokensOf_mapAll children

theorem tokensOf_mapAll (trees : List Tree) : tokensOf (mapAll f trees) = (tokensOf trees).map f := by
  cases trees with
  | nil => rfl
  | cons tree trees =>
    rw [mapAll, tokensOf, tokensOf, tokens_map tree, tokensOf_mapAll trees, List.map_append]

end

end Tree

mutual

/-- The trace with every token changed. -/
def Trace.map (f : Token → Token) : Trace → Trace
  | entry (.rule name succeeded) children => entry (.rule name succeeded) (mapAll f children)
  | entry (.attempt expected found matched) children =>
    entry (.attempt expected (found.map f) matched) (mapAll f children)

def Trace.mapAll (f : Token → Token) : List Trace → List Trace
  | [] => []
  | trace :: traces => trace.map f :: mapAll f traces

end

namespace Trace

variable {f : Token → Token}

@[simp] theorem mapAll_eq_map (traces : List Trace) : mapAll f traces = traces.map (map f) := by
  induction traces with
  | nil => rfl
  | cons trace traces ih => rw [mapAll, ih, List.map_cons]

@[simp] theorem map_rule (name : String) (succeeded : Bool) (children : List Trace) :
    (entry (.rule name succeeded) children).map f =
      entry (.rule name succeeded) (children.map (map f)) := by
  rw [map, mapAll_eq_map]

@[simp] theorem map_attempt (expected : String) (found : Option Token) (matched : Bool) :
    (entry (.attempt expected found matched) []).map f =
      entry (.attempt expected (found.map f) matched) [] := rfl

end Trace

/-- Where a fault is: its line, and what is known of the place. -/
def Fault.place (fault : Fault) : Option UInt32 × Option Context :=
  (fault.line?, fault.context)

namespace Parse

/-- The frame with every token changed. -/
def Frame.map (f : Token → Token) (frame : Frame) : Frame :=
  { frame with
    children := frame.children.map (Tree.map f)
    trace := frame.trace.map (Trace.map f) }

/-- The parse with every token changed, while its root rule is open. -/
def map (f : Token → Token) (p : Parse) : Parse :=
  { p with tokens := p.tokens.map f, frames := p.frames.map (Frame.map f) }

/-- The answer of a step, and the parse after it with every token changed. -/
def mapResult (f : Token → Token) (result : Bool × Parse) : Bool × Parse :=
  (result.1, result.2.map f)

section

variable {f : Token → Token} {p : Parse}

/-- A parse starts in other words. -/
theorem start_map (ts : List Token) : start (ts.map f) = (start ts).map f := by
  simp [start, map]

/-- The next token is the same one in other words. -/
theorem next?_map : (p.map f).next? = p.next?.map f := by
  simp [next?, map]

theorem remaining_map : (p.map f).remaining = p.remaining := by
  simp [remaining, map]

theorem enter_map (rule : String) : (p.map f).enter rule = (p.enter rule).map f := by
  simp [enter, map, Frame.map]

theorem take_map (expected : String) (t : Token) :
    (p.map f).take expected (f t) = (p.take expected t).map f := by
  obtain ⟨tokens, cursor, frames⟩ := p
  cases frames <;> simp [take, map, Frame.map]

theorem miss_map (expected : String) : (p.map f).miss expected = (p.miss expected).map f := by
  obtain ⟨tokens, cursor, frames⟩ := p
  cases frames <;> simp [miss, map, Frame.map, next?, Function.comp_def]

/-- An attempt comes out the same if its test cannot tell the words apart. -/
theorem attempt_map (expected : String) {test : Token → Bool} (htest : ∀ t, test (f t) = test t) :
    (p.map f).attempt expected test = mapResult f (p.attempt expected test) := by
  rw [attempt, attempt, next?_map]
  cases p.next? with
  | none => exact congrArg (Prod.mk false) (miss_map expected)
  | some t =>
    rw [Option.map_some]
    dsimp only
    rw [htest, take_map, miss_map]
    split <;> rfl

theorem any_next?_map {test : Token → Bool} (htest : ∀ t, test (f t) = test t) :
    (p.map f).next?.any test = p.next?.any test := by
  rw [next?_map]
  cases p.next? with
  | none => rfl
  | some t => exact htest t

/-! ### Closing rules -/

/-- A rule inside another one is closed in other words. -/
theorem closeInner_map (success : Bool) (frame parent : Frame) (outer : List Frame) :
    (p.map f).closeInner success (frame.map f) (parent.map f) (outer.map (Frame.map f)) =
      (p.closeInner success frame parent outer).map f := by
  cases success <;> simp [closeInner, map, Frame.map]

theorem frames_map_of_root {frame : Frame} (h : p.frames = [frame]) :
    (p.map f).frames = [frame.map f] := by
  rw [map, h]
  rfl

/-- A rule inside another one does the same with the changed tokens if its body does. -/
theorem within_map {name : String} {body : Parse → Bool × Parse}
    (hbody : body ((p.enter name).map f) = mapResult f (body (p.enter name)))
    (hopen : 2 ≤ (body (p.enter name)).2.frames.length) :
    (p.map f).within name body = mapResult f (p.within name body) := by
  rw [within, within, enter_map, hbody, mapResult]
  generalize body (p.enter name) = result at hopen
  obtain ⟨success, later⟩ := result
  obtain ⟨frame, parent, outer, hframes⟩ :
      ∃ frame parent outer, later.frames = frame :: parent :: outer := by
    obtain ⟨frame, others, hframe⟩ := List.exists_cons_of_length_pos (Nat.zero_lt_of_lt hopen)
    rw [hframe] at hopen
    obtain ⟨parent, outer, rfl⟩ :=
      List.exists_cons_of_length_pos (Nat.lt_of_succ_le (Nat.le_of_succ_le_succ hopen))
    exact ⟨frame, parent, outer, hframe⟩
  have hmapped : (later.map f).frames = frame.map f :: parent.map f :: outer.map (Frame.map f) := by
    rw [map, hframes]
    rfl
  dsimp only
  rw [close, close, hmapped, hframes]
  dsimp only
  rw [closeInner_map]
  rfl

/-! ### Where a parse fails -/

/-- Tokens in other words stand on the same lines. -/
theorem lineAt_map (hline : ∀ t, (f t).line = t.line) (index : Nat) :
    (p.map f).lineAt index = p.lineAt index := by
  have hback : (p.tokens.map f).back? = p.tokens.back?.map f := by
    simp [Array.back?_eq_getElem?]
  rw [lineAt, lineAt, map]
  dsimp only
  rw [Array.getElem?_map, hback]
  cases p.tokens[index]? with
  | some t => exact hline t
  | none =>
    cases p.tokens.back? with
    | some t => exact hline t
    | none => rfl

/-- A failure is explained at the same place. -/
theorem place_explain_map (hline : ∀ t, (f t).line = t.line) :
    (p.map f).explain.place = p.explain.place := by
  have hlineAt (index : Nat) := lineAt_map (p := p) hline index
  have hfarthest : (p.map f).farthest = p.farthest := rfl
  rw [explain, explain, hfarthest]
  cases p.farthest with
  | none => exact congrArg (fun line ↦ (some line, none)) (hlineAt p.cursor)
  | some miss =>
    have hmiss := hlineAt miss.index
    simp only [Option.map_some, Option.getD_some, Fault.place, Fault.line?, hmiss]

end

section

variable {f : Token → Token} {p : Parse} (hf : Rewords f)

include hf

/-- A shape that asks for no text is met by the same tokens. -/
theorem accept_map {shape : Shape} (h : shape.isPlain = true) :
    (p.map f).accept shape = mapResult f (p.accept shape) :=
  attempt_map _ (hf.accepts h)

theorem acceptKind_map (kind : Token.Kind) :
    (p.map f).acceptKind kind = mapResult f (p.acceptKind kind) :=
  accept_map hf rfl

theorem sees_map (kinds : List Token.Kind) : (p.map f).sees kinds = p.sees kinds :=
  any_next?_map fun t ↦ by rw [hf.kind]

theorem acceptAnyOf_map (kinds : List Token.Kind) :
    (p.map f).acceptAnyOf kinds = mapResult f (p.acceptAnyOf kinds) := by
  rw [acceptAnyOf, acceptAnyOf]
  simp only [sees_map hf]
  cases kinds.find? fun kind ↦ p.sees [kind] with
  | none => exact congrArg (Prod.mk false) (miss_map _)
  | some kind => exact acceptKind_map hf kind

theorem atEnd_map : (p.map f).atEnd = p.atEnd := by
  rw [atEnd, atEnd, next?_map]
  cases p.next? with
  | none => rfl
  | some t => simp [hf.kind]

/-! ### Closing the root rule -/

/-- A root rule that is closed with tokens that stay on their lines fails at the same place. -/
theorem place_close_root_map {frame : Frame} (success : Bool) (hline : ∀ t, (f t).line = t.line)
    (hframes : p.frames = [frame]) :
    ((p.map f).close success).2.fault.map Fault.place =
      (p.close success).2.fault.map Fault.place := by
  rw [close, close, frames_map_of_root hframes, hframes]
  dsimp only
  rw [closeRoot, closeRoot, atEnd_map hf]
  cases success with
  | false =>
    exact congrArg some
      (place_explain_map (p := { p with cursor := frame.start, frames := [] }) hline)
  | true =>
    rw [if_pos rfl, if_pos rfl]
    split
    · rfl
    · exact congrArg (fun line ↦ some (some line, none)) (lineAt_map hline p.cursor)

end

end Parse

end OrderFile
