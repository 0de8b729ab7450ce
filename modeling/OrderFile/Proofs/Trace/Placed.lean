import OrderFile.Proofs.Trace.Replay

/-!
The entries of a trace with the places where they begin. A replay of the trace comes to each entry
at some index of the tokens, and `placed` lists the entries with these indices.
-/

set_option autoImplicit false

namespace OrderFile.Trace

mutual

/-- The entries of a trace, the root before what is under it, each with the index of the cursor when
a replay comes to it. -/
def placed (cursor : Nat) : Trace → List (Nat × Trace)
  | entry label children => (cursor, entry label children) :: placedAll cursor children

def placedAll (cursor : Nat) : List Trace → List (Nat × Trace)
  | [] => []
  | trace :: traces => trace.placed cursor ++ placedAll (trace.cursorAfter cursor) traces

end

@[simp] theorem placedAll_nil (cursor : Nat) : placedAll cursor [] = [] := by
  rw [placedAll]

@[simp] theorem placedAll_singleton (cursor : Nat) (trace : Trace) :
    placedAll cursor [trace] = trace.placed cursor := by
  rw [placedAll, placedAll, List.append_nil]

@[simp] theorem placed_entry (cursor : Nat) (label : Label) (children : List Trace) :
    (entry label children).placed cursor =
      (cursor, entry label children) :: placedAll cursor children := by
  rw [placed]

/-- The second of two parts begins where a replay of the first one ends. -/
theorem placedAll_append (cursor : Nat) (first second : List Trace) :
    placedAll cursor (first ++ second) =
      placedAll cursor first ++ placedAll (cursorAfterAll cursor first) second := by
  induction first generalizing cursor with
  | nil => rw [List.nil_append, placedAll_nil, cursorAfterAll, List.nil_append]
  | cons trace first ih =>
    rw [List.cons_append, placedAll, placedAll, cursorAfterAll, ih, List.append_assoc]

/-- Every one of several traces begins somewhere. -/
theorem exists_placed_of_mem {trace : Trace} {traces : List Trace} (h : trace ∈ traces)
    (cursor : Nat) : ∃ start, (start, trace) ∈ placedAll cursor traces := by
  obtain ⟨before, after, rfl⟩ := List.append_of_mem h
  obtain ⟨label, children⟩ := trace
  refine ⟨cursorAfterAll cursor before, ?_⟩
  rw [placedAll_append, placedAll, placed_entry]
  simp

mutual

/-- What stands directly under an entry is an entry too. -/
theorem exists_placed_child {cursor start : Nat} {node child : Trace}
    (hchild : child ∈ node.children) : (trace : Trace) → (start, node) ∈ trace.placed cursor →
      ∃ index, (index, child) ∈ trace.placed cursor
  | entry label children, h => by
    rw [placed_entry, List.mem_cons] at h
    obtain ⟨index, hindex⟩ : ∃ index, (index, child) ∈ placedAll cursor children := by
      obtain hroot | hbelow := h
      · cases hroot
        exact exists_placed_of_mem hchild cursor
      · exact exists_placedAll_child hchild children hbelow
    exact ⟨index, by rw [placed_entry]; exact List.mem_cons_of_mem _ hindex⟩

/-- A child of an entry with a place has a place. -/
theorem exists_placedAll_child {cursor start : Nat} {node child : Trace}
    (hchild : child ∈ node.children) : (traces : List Trace) →
      (start, node) ∈ placedAll cursor traces → ∃ index, (index, child) ∈ placedAll cursor traces
  | [], h => by
    rw [placedAll_nil] at h
    exact absurd h List.not_mem_nil
  | trace :: traces, h => by
    rw [placedAll] at h ⊢
    obtain hfirst | hothers := List.mem_append.mp h
    · obtain ⟨index, hindex⟩ := exists_placed_child hchild trace hfirst
      exact ⟨index, List.mem_append_left _ hindex⟩
    · obtain ⟨index, hindex⟩ := exists_placedAll_child hchild traces hothers
      exact ⟨index, List.mem_append_right _ hindex⟩

end

/-! ### Names of rules -/

/-- Whether every rule in some traces has one of the names. -/
def NamesIn (names : List String) (traces : List Trace) : Prop :=
  ∀ cursor place, place ∈ placedAll cursor traces →
    ∀ name, place.2.ruleName? = some name → name ∈ names

section

variable {names more : List String} {traces others : List Trace}

theorem namesIn_nil (names : List String) : NamesIn names [] := by
  intro cursor place hplace
  rw [placedAll_nil] at hplace
  exact absurd hplace List.not_mem_nil

theorem NamesIn.append (h : NamesIn names traces) (hothers : NamesIn names others) :
    NamesIn names (traces ++ others) := by
  intro cursor place hplace
  rw [placedAll_append, List.mem_append] at hplace
  exact hplace.elim (h _ place) (hothers _ place)

theorem NamesIn.mono (h : NamesIn names traces) (hnames : names ⊆ more) : NamesIn more traces :=
  fun cursor place hplace name hname ↦ hnames (h cursor place hplace name hname)

theorem namesIn_attempt (names : List String) (expected : String) (found : Option Token)
    (matched : Bool) : NamesIn names [.entry (.attempt expected found matched) []] := by
  intro cursor place hplace name hname
  rw [placedAll_singleton, placed_entry, placedAll_nil, List.mem_singleton] at hplace
  subst hplace
  cases hname

/-- A rule adds its own name to those of the rules under it. -/
theorem NamesIn.rule (h : NamesIn names traces) (name : String) (succeeded : Bool) :
    NamesIn (name :: names) [.entry (.rule name succeeded) traces] := by
  intro cursor place hplace other hother
  rw [placedAll_singleton, placed_entry, List.mem_cons] at hplace
  obtain rfl | hbelow := hplace
  · cases hother
    exact List.mem_cons_self
  · exact List.mem_cons_of_mem _ (h cursor place hbelow other hother)

end

end OrderFile.Trace
