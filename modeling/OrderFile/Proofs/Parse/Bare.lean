import OrderFile.Parse

/-!
A parse without the record of what was tried. Up to that record a step that succeeds takes trees
into the innermost rule and moves the cursor over their tokens, and a rule that fails changes
nothing: `bare_within_of_took` and `bare_within_of_strayed`.
-/

set_option autoImplicit false

namespace OrderFile

/-! ### Tokens of several trees -/

/-- The tokens of trees in a row are those of the first ones and then of the others. -/
@[simp] theorem Tree.tokensOf_append (first second : List Tree) :
    tokensOf (first ++ second) = tokensOf first ++ tokensOf second := by
  induction first with
  | nil => rfl
  | cons tree trees ih => simp [tokensOf, ih]

@[simp] theorem Tree.tokens_leaf (t : Token) : (leaf t).tokens = [t] := rfl

@[simp] theorem Tree.tokens_node (rule : String) (children : List Tree) :
    (node rule children).tokens = tokensOf children := rfl

@[simp] theorem Tree.tokensOf_nil : tokensOf [] = [] := rfl

@[simp] theorem Tree.tokensOf_cons (tree : Tree) (trees : List Tree) :
    tokensOf (tree :: trees) = tree.tokens ++ tokensOf trees := rfl

namespace Parse

/-! ### The state behind the record -/

/-- A frame without what was tried in it. -/
def Frame.bare (frame : Frame) : Frame :=
  { frame with trace := #[] }

/-- A parse without the record of what was tried. -/
def bare (p : Parse) : Parse :=
  { p with farthest := none, trace := none, frames := p.frames.map Frame.bare }

/-- The tokens that are left. -/
def rest (p : Parse) : List Token :=
  p.tokens.toList.drop p.cursor

@[simp] theorem rest_bare (p : Parse) : p.bare.rest = p.rest := rfl

@[simp] theorem rest_enter (rule : String) (p : Parse) : (p.enter rule).rest = p.rest := rfl

/-- The next token is the first of those that are left. -/
theorem next?_eq (p : Parse) : p.next? = p.rest.head? := by
  rw [next?, rest, List.head?_drop, Array.getElem?_toList]

theorem remaining_eq (p : Parse) : p.remaining = p.rest.length := by
  rw [remaining, rest, List.length_drop, Array.length_toList]

/-- A parse that has taken some trees into the innermost rule. -/
def took (trees : List Tree) (p : Parse) : Parse :=
  { p with
    cursor := p.cursor + (Tree.tokensOf trees).length
    frames := p.frames.modifyHead fun frame ↦
      { frame with children := frame.children ++ trees.toArray } }

/-- Taking trees moves over as many tokens as they hold. -/
theorem rest_took (trees : List Tree) (p : Parse) :
    (p.took trees).rest = p.rest.drop (Tree.tokensOf trees).length := by
  simp [took, rest]

theorem took_nil (p : Parse) : p.took [] = p := by
  cases p with
  | mk tokens cursor frames => cases frames <;> simp [took]

/-- Taking some trees and then others is taking all of them. -/
theorem took_took (first second : List Tree) (p : Parse) :
    (p.took first).took second = p.took (first ++ second) := by
  cases p with
  | mk tokens cursor frames => cases frames <;> simp [took, Nat.add_assoc]

/-- A later parse that has moved inside the innermost rule only: no other rule has more children,
and none was closed. -/
def Strayed (p later : Parse) : Prop :=
  ∃ cursor children, later.bare =
    { p.bare with
      cursor
      frames := p.bare.frames.modifyHead fun frame ↦ { frame with children } }

/-- A parse in which nothing was taken has not strayed at all. -/
theorem Strayed.of_bare_eq {p later : Parse} (h : later.bare = p.bare) : p.Strayed later := by
  cases p with
  | mk tokens cursor frames =>
    cases frames with
    | nil => exact ⟨cursor, #[], h⟩
    | cons frame outer => exact ⟨cursor, frame.children, h⟩

/-- What strays from a parse that has taken trees has strayed from the parse before. -/
theorem Strayed.of_took {p middle later : Parse} {trees : List Tree}
    (hmiddle : middle.bare = p.bare.took trees) (h : middle.Strayed later) : p.Strayed later := by
  obtain ⟨cursor, children, hlater⟩ := h
  refine ⟨cursor, children, ?_⟩
  rw [hlater, hmiddle]
  cases p with
  | mk tokens cursor frames => cases frames <;> rfl

/-! ### Single steps -/

/-- An attempt takes the next token or misses. -/
theorem attempt_cases (expected : String) (test : Token → Bool) (p : Parse) :
    (∃ t, p.next? = some t ∧ p.attempt expected test = (true, p.take expected t)) ∨
      p.attempt expected test = (false, p.miss expected) := by
  rw [attempt]
  cases p.next? with
  | none => exact .inr rfl
  | some t =>
    dsimp only
    split
    · exact .inl ⟨t, rfl, rfl⟩
    · exact .inr rfl

/-- A token that is taken becomes a leaf of the innermost rule. -/
theorem bare_take (expected : String) (t : Token) (p : Parse) :
    (p.take expected t).bare = p.bare.took [.leaf t] := by
  cases p with
  | mk tokens cursor frames => cases frames <;> simp [take, took, bare, Frame.bare]

/-- A miss leaves nothing but its record. -/
theorem bare_miss (expected : String) (p : Parse) : (p.miss expected).bare = p.bare := by
  cases p with
  | mk tokens cursor frames => cases frames <;> simp [miss, bare, Frame.bare]

/-! ### Rules inside other rules -/

/-- A rule is entered, its body is tried, and it is closed as the body came out. -/
theorem within_eq (name : String) (body : Parse → Bool × Parse) (p : Parse) :
    p.within name body = (body (p.enter name)).2.close (body (p.enter name)).1 := rfl

/-- Closing a rule inside another one, seen without the record. -/
theorem bare_close_inner {p q : Parse} {frame parent : Frame} {outer : List Frame}
    (success : Bool) (hbare : p.bare = q) (hframes : q.frames = frame :: parent :: outer) :
    (p.close success).1 = success ∧
      (p.close success).2.bare =
        { q with
          cursor := if success then q.cursor else frame.start
          frames :=
            { parent with
              children :=
                if success then parent.children.push (.node frame.rule frame.children.toList)
                else parent.children } ::
            outer } := by
  subst hbare
  obtain ⟨tokens, cursor, frames⟩ := p
  obtain ⟨first, others, rfl, rfl, hothers⟩ := List.map_eq_cons_iff.mp hframes
  obtain ⟨second, outermost, rfl, rfl, rfl⟩ := List.map_eq_cons_iff.mp hothers
  exact ⟨rfl, rfl⟩

/-- A rule whose body succeeds becomes one tree of the rule around it. -/
theorem bare_within_of_took {name : String} {body : Parse → Bool × Parse} {p : Parse}
    {trees : List Tree} (hopen : p.frames ≠ []) (hsuccess : (body (p.enter name)).1 = true)
    (hbody : (body (p.enter name)).2.bare = (p.enter name).bare.took trees) :
    (p.within name body).1 = true ∧
      (p.within name body).2.bare = p.bare.took [.node name trees] := by
  obtain ⟨tokens, cursor, frames⟩ := p
  obtain ⟨parent, outer, rfl⟩ := List.exists_cons_of_ne_nil hopen
  have hclose := bare_close_inner true hbody rfl
  rw [within_eq, hsuccess]
  refine ⟨hclose.1, hclose.2.trans ?_⟩
  simp [took, bare, enter, Frame.bare]

/-- A rule whose body fails gives back all that the body took. -/
theorem bare_within_of_strayed {name : String} {body : Parse → Bool × Parse} {p : Parse}
    (hopen : p.frames ≠ []) (hfailure : (body (p.enter name)).1 = false)
    (hbody : (p.enter name).Strayed (body (p.enter name)).2) :
    (p.within name body).1 = false ∧ (p.within name body).2.bare = p.bare := by
  obtain ⟨tokens, cursor, frames⟩ := p
  obtain ⟨parent, outer, rfl⟩ := List.exists_cons_of_ne_nil hopen
  obtain ⟨moved, children, hbody⟩ := hbody
  have hclose := bare_close_inner false hbody rfl
  rw [within_eq, hfailure]
  exact hclose

/-! ### Root rules -/

/-- A parse is at the end if no token is left, or an end token is next. -/
theorem atEnd_eq (p : Parse) : p.atEnd = p.rest.head?.all (·.kind == .eof) := by
  rw [atEnd, next?_eq]

/-- A root that succeeds at the end leaves its tree; one that does not leaves the tree as it was. -/
theorem tree_close_root {p q : Parse} {frame : Frame} (success : Bool) (hbare : p.bare = q)
    (hframes : q.frames = [frame]) :
    (p.close success).2.tree =
      if success ∧ q.rest.head?.all (·.kind == .eof) then
        some (.node frame.rule frame.children.toList)
      else q.tree := by
  subst hbare
  obtain ⟨root, others, hp, rfl, hothers⟩ := List.map_eq_cons_iff.mp hframes
  obtain rfl := List.map_eq_nil_iff.mp hothers
  have hclose : p.close success = p.closeRoot success root := by
    rw [close, hp]
  rw [hclose, closeRoot, rest_bare, ← atEnd_eq]
  cases success with
  | false => rfl
  | true =>
    by_cases hend : p.atEnd
    · rw [if_pos rfl, if_pos hend, if_pos ⟨rfl, hend⟩]
      rfl
    · rw [if_pos rfl, if_neg hend, if_neg fun h ↦ hend h.2]
      rfl

end Parse

end OrderFile
