import Mathlib.Data.List.Basic
import OrderFile.Trace

/-!
The entries of a trace under their addresses. An address is the list of indices of the children on
the way from the root; in the order of a trace an address comes before those that go on from it, and
before those that take a later child where they part. `nodes` lists the entries in this order.
-/

set_option autoImplicit false

namespace OrderFile.Trace

/-- The entry at an address. -/
def at? (trace : Trace) : List Nat → Option Trace
  | [] => some trace
  | i :: path => trace.children[i]?.bind (·.at? path)

/-- An address with a first step leads through the child that the step takes. -/
theorem at?_cons_eq_some_iff {trace node : Trace} {i : Nat} {path : List Nat} :
    trace.at? (i :: path) = some node ↔
      ∃ child, trace.children[i]? = some child ∧ child.at? path = some node :=
  Option.bind_eq_some_iff

/-- The label of the entry at an address. -/
def labelAt? (trace : Trace) (path : List Nat) : Option Label :=
  (trace.at? path).map label

theorem labelAt?_nil (trace : Trace) : trace.labelAt? [] = some trace.label :=
  rfl

theorem labelAt?_cons_eq_some_iff {trace : Trace} {i : Nat} {path : List Nat} {found : Label} :
    trace.labelAt? (i :: path) = some found ↔
      ∃ child, trace.children[i]? = some child ∧ child.labelAt? path = some found := by
  rw [labelAt?, at?, Option.map_bind, Option.bind_eq_some_iff]
  rfl

/-! ### The order of addresses -/

/-- Whether an address comes before another one. -/
def Precedes (path other : List Nat) : Prop :=
  List.Lex (· < ·) path other

/-- Whether an address is another one or comes before it. -/
def UpTo (path other : List Nat) : Prop :=
  path = other ∨ Precedes path other

section

variable {i j : Nat} {path other : List Nat}

/-- What is under an earlier child comes before what is under a later one. -/
theorem precedes_of_lt (h : i < j) (path other : List Nat) : Precedes (i :: path) (j :: other) :=
  .rel h

theorem Precedes.cons (h : Precedes path other) (i : Nat) : Precedes (i :: path) (i :: other) :=
  List.Lex.cons h

/-- What comes after an address is not up to it. -/
theorem Precedes.not_upTo (h : Precedes path other) : ¬ UpTo other path := by
  rintro (rfl | hback)
  · exact List.lex_irrefl Nat.lt_irrefl _ h
  · exact List.lex_asymm (fun hlt ↦ Nat.lt_asymm hlt) h hback

/-- No two addresses come one up to the other both ways. -/
theorem UpTo.antisymm (h : UpTo path other) (h' : UpTo other path) : path = other :=
  h.resolve_right fun hlt ↦ hlt.not_upTo h'

theorem UpTo.cons (h : UpTo path other) (i : Nat) : UpTo (i :: path) (i :: other) :=
  h.imp (congrArg (i :: ·)) (·.cons i)

theorem UpTo.succ (h : UpTo (i :: path) (j :: other)) :
    UpTo ((i + 1) :: path) ((j + 1) :: other) := by
  rcases h with heq | hlex
  · obtain ⟨rfl, rfl⟩ := List.cons.inj heq
    exact .inl rfl
  · cases hlex with
    | rel h => exact .inr (.rel (Nat.succ_lt_succ h))
    | cons h => exact .inr (Precedes.cons h _)

end

/-! ### Entries in their order -/

mutual

/-- The entries of a trace with their addresses, the root before what is under it. -/
def nodes : Trace → List (List Nat × Trace)
  | entry label children => ([], entry label children) :: nodesFrom 0 children

/-- The entries of some traces, the first of which has the given index. -/
def nodesFrom (i : Nat) : List Trace → List (List Nat × Trace)
  | [] => []
  | trace :: traces =>
    trace.nodes.map (fun (path, node) ↦ (i :: path, node)) ++ nodesFrom (i + 1) traces

end

mutual

/-- The entries of a trace are those that its addresses lead to. -/
theorem mem_nodes_iff {path : List Nat} {node : Trace} :
    (trace : Trace) → ((path, node) ∈ trace.nodes ↔ trace.at? path = some node)
  | entry label children => by
    rw [nodes, List.mem_cons, mem_nodesFrom_iff 0 children]
    cases path with
    | nil => simp [at?, eq_comm]
    | cons i path =>
      rw [at?_cons_eq_some_iff]
      simp [Trace.children]

theorem mem_nodesFrom_iff {path : List Nat} {node : Trace} (i : Nat) :
    (traces : List Trace) → ((path, node) ∈ nodesFrom i traces ↔
      ∃ j rest child, path = (i + j) :: rest ∧ traces[j]? = some child ∧
        child.at? rest = some node)
  | [] => by simp [nodesFrom]
  | trace :: traces => by
    rw [nodesFrom, List.mem_append, mem_nodesFrom_iff (i + 1) traces, List.mem_map]
    constructor
    · rintro (⟨⟨rest, found⟩, hfound, heq⟩ | ⟨j, rest, child, rfl, hchild, hnode⟩)
      · obtain ⟨rfl, rfl⟩ := Prod.mk.inj heq
        exact ⟨0, rest, trace, rfl, rfl, (mem_nodes_iff trace).mp hfound⟩
      · refine ⟨j + 1, rest, child, ?_, hchild, hnode⟩
        rw [Nat.add_assoc, Nat.add_comm 1 j]
    · rintro ⟨j, rest, child, rfl, hchild, hnode⟩
      cases j with
      | zero =>
        obtain rfl := Option.some.inj hchild
        exact .inl ⟨(rest, node), (mem_nodes_iff trace).mpr hnode, rfl⟩
      | succ j =>
        refine .inr ⟨j, rest, child, ?_, hchild, hnode⟩
        rw [Nat.add_assoc, Nat.add_comm 1 j]

end

mutual

/-- The entries are listed in the order of their addresses. -/
theorem pairwise_nodes : (trace : Trace) →
    trace.nodes.Pairwise fun first second ↦ Precedes first.1 second.1
  | entry label children => by
    rw [nodes]
    refine List.pairwise_cons.mpr ⟨fun (path, node) hmem ↦ ?_, pairwise_nodesFrom 0 children⟩
    obtain ⟨j, rest, child, rfl, -⟩ := (mem_nodesFrom_iff 0 children).mp hmem
    exact .nil

theorem pairwise_nodesFrom (i : Nat) : (traces : List Trace) →
    (nodesFrom i traces).Pairwise fun first second ↦ Precedes first.1 second.1
  | [] => .nil
  | trace :: traces => by
    rw [nodesFrom]
    refine List.pairwise_append.mpr ⟨?_, pairwise_nodesFrom (i + 1) traces, ?_⟩
    · exact List.pairwise_map.mpr ((pairwise_nodes trace).imp fun h ↦ h.cons i)
    · intro first hfirst (path, node) hmem
      obtain ⟨found, -, rfl⟩ := List.mem_map.mp hfirst
      obtain ⟨j, rest, child, rfl, -⟩ := (mem_nodesFrom_iff (i + 1) traces).mp hmem
      exact precedes_of_lt (by omega) ..

end

end OrderFile.Trace
