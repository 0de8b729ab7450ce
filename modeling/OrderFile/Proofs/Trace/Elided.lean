import Mathlib.Data.List.Basic
import OrderFile.Proofs.Trace.Address
import OrderFile.Trace.Outline

/-!
What an outline of a trace leaves out. It has the lines of the listing of the trace, except for
those of the entries under one that is closed: an outermost entry among those that the outline may
not go on from. Such an entry has a mark with the number of entries under it, and every entry that
has no line is counted by one of these marks: `text_eq_listing_elided`.
-/

set_option autoImplicit false

namespace OrderFile.Trace

/-- An entry of a trace with its address. -/
abbrev Placed : Type := List Nat × Trace

/-- Whether an address goes on from another one. -/
def Under (path top : List Nat) : Prop :=
  top <+: path ∧ path ≠ top

instance (path top : List Nat) : Decidable (Under path top) :=
  inferInstanceAs (Decidable (_ ∧ _))

section

variable {i j : Nat} {path middle top : List Nat}

/-- Everything but the root is under the root. -/
theorem under_nil_iff : Under path [] ↔ path ≠ [] :=
  and_iff_right List.nil_prefix

theorem not_under_nil : ¬ Under [] top := by
  rintro ⟨hbelow, hne⟩
  exact hne (List.prefix_nil.mp hbelow).symm

/-- Addresses with a first step stand one under the other only if they take the same one. -/
theorem under_cons_iff : Under (i :: path) (j :: top) ↔ i = j ∧ Under path top := by
  rw [Under, Under, List.cons_prefix_cons]
  constructor
  · rintro ⟨⟨rfl, hbelow⟩, hne⟩
    exact ⟨rfl, hbelow, fun heq ↦ hne (by rw [heq])⟩
  · rintro ⟨rfl, hbelow, hne⟩
    exact ⟨⟨rfl, hbelow⟩, fun heq ↦ hne (List.cons.inj heq).2⟩

theorem Under.length_lt (h : Under path top) : top.length < path.length := by
  refine Nat.lt_of_le_of_ne h.1.length_le fun hlength ↦ h.2 ?_
  exact (h.1.eq_of_length hlength).symm

theorem Under.trans (h : Under path middle) (h' : Under middle top) : Under path top := by
  refine ⟨h'.1.trans h.1, ?_⟩
  rintro rfl
  exact Nat.lt_asymm h.length_lt h'.length_lt

end

/-! ### Entries and their addresses -/

/-- An entry under the children of an entry has an address that starts with the place of a child. -/
theorem ne_nil_of_mem_nodesFrom {i : Nat} {traces : List Trace} {e : Placed}
    (h : e ∈ nodesFrom i traces) : ∃ j path, i ≤ j ∧ e.1 = j :: path := by
  obtain ⟨path, node⟩ := e
  obtain ⟨j, rest, child, rfl, -⟩ := (mem_nodesFrom_iff i traces).mp h
  exact ⟨i + j, rest, Nat.le_add_right .., rfl⟩

mutual

/-- A trace has as many addresses as it counts entries. -/
theorem length_nodes : (trace : Trace) → trace.nodes.length = trace.nodeCount
  | entry label children => by
    rw [nodes, List.length_cons, length_nodesFrom 0 children, nodeCount, Nat.add_comm]

theorem length_nodesFrom (i : Nat) : (traces : List Trace) →
    (nodesFrom i traces).length = nodeCountOf traces
  | [] => rfl
  | trace :: traces => by
    rw [nodesFrom, List.length_append, List.length_map, length_nodes trace,
      length_nodesFrom (i + 1) traces, nodeCountOf]

end

/-- Whether a label tells of a rule that succeeded or of a token that matched. -/
def Label.TellsSuccess (label : Label) : Prop :=
  (∃ name, label = .rule name true) ∨ ∃ expected found, label = .attempt expected found true

theorem Label.succeeded_iff {label : Label} : label.succeeded = true ↔ label.TellsSuccess := by
  cases label with
  | rule name succeeded => simp [Label.succeeded, Label.TellsSuccess]
  | attempt expected found matched => simp [Label.succeeded, Label.TellsSuccess]

instance (label : Label) : Decidable label.TellsSuccess :=
  decidable_of_iff _ Label.succeeded_iff

namespace Outline

/-- Whether an outline may not go on from an entry at a depth: it has entries under it, and it is a
success, which the outline collapses, or as deep as the outline may go. -/
def Closes (outline : Outline) (depth : Nat) (trace : Trace) : Prop :=
  trace.children ≠ [] ∧
    (outline.collapseSuccesses = true ∧ trace.label.TellsSuccess ∨
      ∃ limit ∈ outline.maxDepth, limit ≤ depth)

instance (outline : Outline) (depth : Nat) (trace : Trace) :
    Decidable (outline.Closes depth trace) :=
  inferInstanceAs (Decidable (_ ∧ _))

/-- Closed entries are those whose children the outline leaves out. -/
theorem elides_iff {outline : Outline} {depth : Nat} {label : Label} {children : List Trace} :
    outline.elides depth label children = true ↔ outline.Closes depth (entry label children) := by
  rw [elides, Closes, Bool.and_eq_true, Bool.or_eq_true, Bool.and_eq_true, Option.any_eq_true,
    Label.succeeded_iff]
  simp [Trace.children, Trace.label]

/-! ### The lines of an outline -/

section

variable (outline : Outline) (depth : Nat) (entries : List Placed)

/-- Whether an entry at an address has no line of its own, if the root stands at a depth. -/
def Hides (path : List Nat) : Prop :=
  ∃ e ∈ entries, outline.Closes (depth + e.1.length) e.2 ∧ Under path e.1

instance (path : List Nat) : Decidable (outline.Hides depth entries path) :=
  inferInstanceAs (Decidable (∃ e ∈ entries, _))

/-- The line of an entry, with the number of entries under it if it is closed. -/
def line (e : Placed) : String :=
  String.ofList (List.replicate (2 * (depth + e.1.length)) ' ') ++ e.2.label.display ++
    (if outline.Closes (depth + e.1.length) e.2 then
      " ... (+" ++ toString (entries.countP fun f ↦ Under f.1 e.1) ++ ")"
    else "") ++ "\n"

/-- The lines of the entries that have one. -/
def lines : List String :=
  (entries.filter fun e ↦ ¬ outline.Hides depth entries e.1).map (outline.line depth entries)

end

section

variable {outline : Outline} {depth : Nat} {as bs : List Placed}

/-- Whether an entry has a line, and which one, depends only on what closed entries it is under and
on how many entries are under it. -/
theorem lines_among {all : List Placed}
    (hhides : ∀ a ∈ as, outline.Hides depth all a.1 ↔ outline.Hides depth as a.1)
    (hcount : ∀ a ∈ as, all.countP (fun f ↦ Under f.1 a.1) = as.countP fun f ↦ Under f.1 a.1) :
    (as.filter fun e ↦ ¬ outline.Hides depth all e.1).map (outline.line depth all) =
      outline.lines depth as := by
  have hkept : (as.filter fun e ↦ ¬ outline.Hides depth all e.1) =
      as.filter fun e ↦ ¬ outline.Hides depth as e.1 :=
    List.filter_congr fun a ha ↦ decide_eq_decide.mpr (not_congr (hhides a ha))
  rw [lines, hkept]
  refine List.map_congr_left fun a ha ↦ ?_
  rw [line, line, hcount a (List.mem_filter.mp ha).1]

theorem countP_under_eq_zero {path : List Nat} (h : ∀ b ∈ bs, ¬ Under b.1 path) :
    (bs.countP fun f ↦ Under f.1 path) = 0 :=
  List.countP_eq_zero.mpr fun b hb ↦ by simpa using h b hb

/-- Entries none of which is under one of others have the same lines beside these. -/
theorem lines_append (h : ∀ a ∈ as, ∀ b ∈ bs, ¬ Under a.1 b.1 ∧ ¬ Under b.1 a.1) :
    outline.lines depth (as ++ bs) = outline.lines depth as ++ outline.lines depth bs := by
  have hhides (path : List Nat) : outline.Hides depth (as ++ bs) path ↔
      outline.Hides depth as path ∨ outline.Hides depth bs path := by
    simp only [Hides, List.mem_append, or_and_right, exists_or]
  have hcount (path : List Nat) : ((as ++ bs).countP fun f ↦ Under f.1 path) =
      (as.countP fun f ↦ Under f.1 path) + bs.countP fun f ↦ Under f.1 path :=
    List.countP_append
  rw [lines, List.filter_append, List.map_append, lines_among, lines_among]
  · intro b hb
    rw [hhides, or_iff_right]
    rintro ⟨a, ha, -, hunder⟩
    exact (h a ha b hb).2 hunder
  · intro b hb
    rw [hcount, countP_under_eq_zero fun a ha ↦ (h a ha b hb).1, Nat.zero_add]
  · intro a ha
    rw [hhides, or_iff_left]
    rintro ⟨b, hb, -, hunder⟩
    exact (h a ha b hb).1 hunder
  · intro a ha
    rw [hcount, countP_under_eq_zero fun b hb ↦ (h a ha b hb).2, Nat.add_zero]

/-- Entries under a child have the same lines as from the child on, one level deeper. -/
theorem lines_map_cons (i : Nat) :
    outline.lines depth (as.map fun (path, node) ↦ (i :: path, node)) =
      outline.lines (depth + 1) as := by
  have hdepth (path : List Nat) : depth + (i :: path).length = depth + 1 + path.length := by
    rw [List.length_cons]
    omega
  have hunder (path top : List Nat) : Under (i :: path) (i :: top) ↔ Under path top := by
    rw [under_cons_iff, and_iff_right rfl]
  have hhides (path : List Nat) :
      outline.Hides depth (as.map fun (path, node) ↦ (i :: path, node)) (i :: path) ↔
        outline.Hides (depth + 1) as path := by
    simp only [Hides, List.mem_map, exists_exists_and_eq_and, hdepth, hunder]
  rw [lines, List.filter_map, List.map_map]
  simp only [Function.comp_def, hhides, line, hdepth, List.countP_map, hunder]
  rfl

/-- The line of the root, whatever entries there are beside it. -/
theorem line_root (trace : Trace) :
    outline.line depth as ([], trace) =
      String.ofList (List.replicate (2 * depth) ' ') ++ trace.label.display ++
        (if outline.Closes depth trace then
          " ... (+" ++ toString (as.countP fun f ↦ Under f.1 []) ++ ")"
        else "") ++ "\n" :=
  rfl

/-- A root that is closed hides all other entries. -/
theorem lines_of_closes {trace : Trace} (h : outline.Closes depth trace)
    (has : ∀ a ∈ as, a.1 ≠ []) :
    outline.lines depth (([], trace) :: as) =
      [String.ofList (List.replicate (2 * depth) ' ') ++ trace.label.display ++
        (" ... (+" ++ toString as.length ++ ")") ++ "\n"] := by
  have hroot : ¬ outline.Hides depth (([], trace) :: as) [] :=
    fun ⟨_, _, _, hunder⟩ ↦ not_under_nil hunder
  have hothers : ∀ a ∈ as, outline.Hides depth (([], trace) :: as) a.1 :=
    fun a ha ↦ ⟨_, List.mem_cons_self, h, under_nil_iff.mpr (has a ha)⟩
  have hcount : ((([], trace) :: as).countP fun f ↦ Under f.1 []) = as.length := by
    rw [List.countP_cons_of_neg (by simpa using not_under_nil), List.countP_eq_length]
    exact fun a ha ↦ decide_eq_true (under_nil_iff.mpr (has a ha))
  have hkept : (as.filter fun e ↦ ¬ outline.Hides depth (([], trace) :: as) e.1) = [] :=
    List.filter_eq_nil_iff.mpr fun a ha ↦ by simpa using hothers a ha
  rw [lines, List.filter_cons_of_pos (by simpa using hroot), hkept, List.map_singleton,
    line_root, hcount, if_pos h]

/-- A root that is not closed has its own line. -/
theorem lines_of_not_closes {trace : Trace} (h : ¬ outline.Closes depth trace) :
    outline.lines depth (([], trace) :: as) =
      (String.ofList (List.replicate (2 * depth) ' ') ++ trace.label.display ++ "\n") ::
        outline.lines depth as := by
  have hroot : ¬ outline.Hides depth (([], trace) :: as) [] :=
    fun ⟨_, _, _, hunder⟩ ↦ not_under_nil hunder
  rw [lines, List.filter_cons_of_pos (by simpa using hroot), List.map_cons, lines_among,
    line_root, if_neg h, String.append_empty]
  · intro a _
    rw [Hides, List.exists_mem_cons_iff, or_iff_right fun hclosed ↦ h hclosed.1]
    rfl
  · intro a _
    rw [List.countP_cons_of_neg (by simpa using not_under_nil)]

end

/-! ### The outline of a trace -/

mutual

/-- An outline is made of its lines, whatever the depth of its root. -/
theorem textAt_eq (outline : Outline) (depth : Nat) : (trace : Trace) →
    outline.textAt depth trace = String.join (outline.lines depth trace.nodes)
  | entry label children => by
    have hplaced : ∀ a ∈ nodesFrom 0 children, a.1 ≠ [] := by
      intro a ha
      obtain ⟨j, path, -, hpath⟩ := ne_nil_of_mem_nodesFrom ha
      rw [hpath]
      exact List.cons_ne_nil _ _
    rw [textAt, nodes]
    by_cases hcloses : outline.Closes depth (entry label children)
    · rw [if_pos (elides_iff.mpr hcloses), if_pos (elides_iff.mpr hcloses),
        lines_of_closes hcloses hplaced, length_nodesFrom, String.join_cons, String.join_nil]
      rfl
    · rw [if_neg (mt elides_iff.mp hcloses), if_neg (mt elides_iff.mp hcloses),
        lines_of_not_closes hcloses, String.join_cons, String.append_empty,
        textsAt_eq outline depth 0 children]
      rfl

theorem textsAt_eq (outline : Outline) (depth i : Nat) : (traces : List Trace) →
    outline.textsAt (depth + 1) traces = String.join (outline.lines depth (nodesFrom i traces))
  | [] => rfl
  | trace :: traces => by
    -- What is under the first child and what is under a later one part at the first step.
    have hapart : ∀ a ∈ trace.nodes.map (fun (path, node) ↦ (i :: path, node)),
        ∀ b ∈ nodesFrom (i + 1) traces, ¬ Under a.1 b.1 ∧ ¬ Under b.1 a.1 := by
      intro a ha b hb
      obtain ⟨⟨path, node⟩, -, rfl⟩ := List.mem_map.mp ha
      obtain ⟨j, other, hj, hother⟩ := ne_nil_of_mem_nodesFrom hb
      have hne : i ≠ j := by omega
      rw [hother, under_cons_iff, under_cons_iff]
      exact ⟨fun hunder ↦ hne hunder.1, fun hunder ↦ hne hunder.1.symm⟩
    rw [textsAt, nodesFrom, lines_append hapart, lines_map_cons, String.join_append,
      textAt_eq outline (depth + 1) trace, textsAt_eq outline depth (i + 1) traces]

end

mutual

/-- An outline with no settings leaves out nothing. -/
theorem textAt_default (depth : Nat) : (trace : Trace) →
    ({} : Outline).textAt depth trace = trace.listingAt depth
  | entry label children => by
    have helides : ({} : Outline).elides depth label children = false := Bool.and_false _
    rw [textAt, helides, if_neg Bool.false_ne_true, if_neg Bool.false_ne_true, String.append_empty,
      textsAt_default (depth + 1) children, listingAt, Tree.listingLine]

theorem textsAt_default (depth : Nat) : (traces : List Trace) →
    ({} : Outline).textsAt depth traces = listingsAt depth traces
  | [] => rfl
  | trace :: traces => by
    rw [textsAt, textAt_default depth trace, textsAt_default depth traces, listingsAt]

end

theorem not_closes_default {depth : Nat} {trace : Trace} : ¬ ({} : Outline).Closes depth trace := by
  rintro ⟨-, ⟨hcollapse, -⟩ | ⟨limit, hlimit, -⟩⟩
  · cases hcollapse
  · cases hlimit

/-! ### Closed entries -/

section

variable {outline : Outline} {trace : Trace}

/-- Whether an entry of a trace is closed, but none that it is under. -/
def IsOutermost (outline : Outline) (trace : Trace) (e : Placed) : Prop :=
  outline.Closes e.1.length e.2 ∧
    ∀ f ∈ trace.nodes, outline.Closes f.1.length f.2 → ¬ Under e.1 f.1

instance (outline : Outline) (trace : Trace) (e : Placed) :
    Decidable (outline.IsOutermost trace e) :=
  inferInstanceAs (Decidable (_ ∧ _))

/-- What is under an entry that may not be gone on from is under an outermost one. -/
theorem exists_isOutermost {path : List Nat} {e : Placed} (he : e ∈ trace.nodes)
    (hcloses : outline.Closes e.1.length e.2) (hunder : Under path e.1) :
    ∃ f ∈ trace.nodes, outline.IsOutermost trace f ∧ Under path f.1 := by
  -- Going up from a closed entry ends at an outermost one, since addresses get shorter.
  induction hlength : e.1.length using Nat.strongRecOn generalizing e with
  | ind n ih =>
    by_cases houtermost : outline.IsOutermost trace e
    · exact ⟨e, he, houtermost, hunder⟩
    · have habove : ∃ f ∈ trace.nodes, outline.Closes f.1.length f.2 ∧ Under e.1 f.1 := by
        by_contra hnone
        exact houtermost ⟨hcloses, fun f hf hclosed habove ↦ hnone ⟨f, hf, hclosed, habove⟩⟩
      obtain ⟨f, hf, hclosed, habove⟩ := habove
      exact ih f.1.length (hlength ▸ habove.length_lt) hf hclosed (hunder.trans habove) rfl

/-- An entry has no line exactly if it is under an outermost closed entry. -/
theorem hides_iff {path : List Nat} : outline.Hides 0 trace.nodes path ↔
    ∃ f ∈ trace.nodes, outline.IsOutermost trace f ∧ Under path f.1 := by
  constructor
  · rintro ⟨e, he, hcloses, hunder⟩
    rw [Nat.zero_add] at hcloses
    exact exists_isOutermost he hcloses hunder
  · rintro ⟨f, hf, ⟨hcloses, -⟩, hunder⟩
    exact ⟨f, hf, by rwa [Nat.zero_add], hunder⟩

/-- A closed entry with a line of its own is an outermost one. -/
theorem isOutermost_iff {e : Placed} (h : ¬ outline.Hides 0 trace.nodes e.1) :
    outline.IsOutermost trace e ↔ outline.Closes e.1.length e.2 := by
  refine ⟨And.left, fun hcloses ↦ ⟨hcloses, fun f hf hclosed hunder ↦ h ⟨f, hf, ?_, hunder⟩⟩⟩
  rwa [Nat.zero_add]

/-- No entry is under two outermost ones. -/
theorem IsOutermost.unique {path : List Nat} {e f : Placed} (he : e ∈ trace.nodes)
    (hf : f ∈ trace.nodes) (houter : outline.IsOutermost trace e)
    (houter' : outline.IsOutermost trace f) (hunder : Under path e.1) (hunder' : Under path f.1) :
    e = f := by
  have hpath : e.1 = f.1 := by
    by_contra hne
    rcases List.prefix_or_prefix_of_prefix hunder.1 hunder'.1 with hbelow | hbelow
    · exact houter'.2 e he houter.1 ⟨hbelow, Ne.symm hne⟩
    · exact houter.2 f hf houter'.1 ⟨hbelow, hne⟩
  obtain ⟨path, node⟩ := e
  obtain ⟨other, node'⟩ := f
  obtain rfl : path = other := hpath
  have hnode := ((mem_nodes_iff trace).mp he).symm.trans ((mem_nodes_iff trace).mp hf)
  rw [Option.some.inj hnode]

end

end Outline

open Outline in
/-- A listing has one line for each entry: its label after two spaces for every entry that it is
under. An outline has the same lines, except for the entries under an outermost closed one, which
has their number after its label. No entry is under two of these, so each one has a line or is
counted once. With no settings an outline is the listing. A label says how a rule ended, or which
token was found, whether it matched and what was expected. -/
theorem text_eq_listing_elided (outline : Outline) (trace : Trace) :
    trace.listing =
        String.join (trace.nodes.map fun e ↦
          String.ofList (List.replicate (2 * e.1.length) ' ') ++ e.2.label.display ++ "\n") ∧
      outline.text trace =
        String.join ((trace.nodes.filter fun e ↦
            ¬ ∃ f ∈ trace.nodes, outline.IsOutermost trace f ∧ Under e.1 f.1).map fun e ↦
          String.ofList (List.replicate (2 * e.1.length) ' ') ++ e.2.label.display ++
            (if outline.IsOutermost trace e then
              " ... (+" ++ toString (trace.nodes.countP fun f ↦ Under f.1 e.1) ++ ")"
            else "") ++ "\n") ∧
      (∀ path, ∀ e ∈ trace.nodes, ∀ f ∈ trace.nodes, outline.IsOutermost trace e →
        outline.IsOutermost trace f → Under path e.1 → Under path f.1 → e = f) ∧
      ({} : Outline).text trace = trace.listing ∧
      (∀ name succeeded,
        (Label.rule name succeeded).display = name ++ "(" ++ toString succeeded ++ ")") ∧
      (∀ expected found matched,
        (Label.attempt expected found matched).display =
          found.elim "<none>" Token.display ++ (if matched then " = " else " != ") ++ expected) := by
  have hdefault : ({} : Outline).text trace = trace.listing := textAt_default 0 trace
  refine ⟨?_, ?_, fun path e he f hf ↦ IsOutermost.unique he hf, hdefault, fun _ _ ↦ rfl, ?_⟩
  -- Without settings no entry is closed, so every entry has its line.
  · have hnone (path : List Nat) : ¬ ({} : Outline).Hides 0 trace.nodes path :=
      fun ⟨_, _, hcloses, _⟩ ↦ not_closes_default hcloses
    rw [← hdefault, text, textAt_eq, lines,
      List.filter_eq_self.mpr fun e _ ↦ decide_eq_true (hnone e.1)]
    refine congrArg String.join (List.map_congr_left fun e _ ↦ ?_)
    rw [line, if_neg not_closes_default, Nat.zero_add, String.append_empty]
  · rw [text, textAt_eq, lines]
    -- An entry is hidden by any closed one above it exactly if an outermost one is above it.
    have hkept : (trace.nodes.filter fun e ↦ ¬ outline.Hides 0 trace.nodes e.1) =
        trace.nodes.filter fun e ↦
          ¬ ∃ f ∈ trace.nodes, outline.IsOutermost trace f ∧ Under e.1 f.1 :=
      List.filter_congr fun e _ ↦ decide_eq_decide.mpr (not_congr hides_iff)
    rw [← hkept]
    refine congrArg String.join (List.map_congr_left fun e he ↦ ?_)
    have hshown : ¬ outline.Hides 0 trace.nodes e.1 := by simpa using (List.mem_filter.mp he).2
    rw [line, Nat.zero_add]
    simp only [isOutermost_iff hshown]
  · intro expected found matched
    cases found with
    | none => rfl
    | some token => rfl

end OrderFile.Trace
