import OrderFile.Proofs.Tree.Reader

/-!
Which children of a rule are read. A layout says it for any children, whether they fit or not: a
child that is asked for is read whatever it is, and under it if it is the rule that should be there.
A reading that follows a layout (`Follows`) complains about its own line only, and of its complaints
about children that are left over there is one for each node that was left before its end.
-/

set_option autoImplicit false

namespace OrderFile

/-- Whether a complaint is about children that are left over. -/
def Complaint.isTrailing (c : Complaint) : Bool :=
  match c.problem with
  | .trailing _ => true
  | _ => false

namespace Tree

/-- Whether a tree is a token of one of the kinds. -/
def isToken (kinds : List Token.Kind) (tree : Tree) : Bool :=
  tree.token?.any fun t ↦ kinds.contains t.kind

/-- A node whose children were read, and those of them that were not reached. -/
structure Visit where
  rule : String
  unread : List Tree

/-- The complaints about the nodes that were left before their end. -/
def Visit.complaints (line : UInt32) (visits : List Visit) : List Complaint :=
  (visits.filter (!·.unread.isEmpty)).map fun v ↦ ⟨line, .trailing v.rule⟩

/-- Which of the next children of a rule are read. -/
inductive Layout where
  | nothing
  /-- The next child, whatever it is. -/
  | child
  /-- The next child, whatever it is, and if it is a certain rule the children under it. -/
  | inner (rule : String) (body : Layout)
  /-- The children that come next as long as they are a certain rule, each with those under it. -/
  | each (rule : String) (body : Layout)
  /-- One thing or another, by a test of the next child. -/
  | branch (test : Tree → Bool) (yes no : Layout)
  | both (first second : Layout)

namespace Layout

/-- The children that are left. -/
def rest : Layout → List Tree → List Tree
  | nothing, trees => trees
  | child, trees | inner _ _, trees => trees.tail
  | each rule _, trees => trees.dropWhile (·.isRule rule)
  | branch test yes no, trees => if trees.head?.any test then yes.rest trees else no.rest trees
  | both first second, trees => second.rest (first.rest trees)

/-- The nodes under the children that are read, in the order in which their reading ends. -/
def visits : Layout → List Tree → List Visit
  | nothing, _ | child, _ => []
  | inner _ _, [] => []
  | inner rule body, tree :: _ =>
    if tree.isRule rule then
      body.visits tree.children ++ [⟨tree.rule?.getD "?", body.rest tree.children⟩]
    else []
  | each rule body, trees =>
    (trees.takeWhile (·.isRule rule)).flatMap fun tree ↦
      body.visits tree.children ++ [⟨tree.rule?.getD "?", body.rest tree.children⟩]
  | branch test yes no, trees =>
    if trees.head?.any test then yes.visits trees else no.visits trees
  | both first second, trees => first.visits trees ++ second.visits (first.rest trees)

/-- The nodes that are read under a tree and the tree itself. -/
def visitsOf (layout : Layout) (tree : Tree) : List Visit :=
  layout.visits tree.children ++ [⟨tree.rule?.getD "?", layout.rest tree.children⟩]

/-- One layout after another. -/
def sequence : List Layout → Layout :=
  List.foldr both nothing

/-- A token of one of the kinds, if it comes next, and what is read after it. -/
def optional (kinds : List Token.Kind) (after : Layout) : Layout :=
  branch (isToken kinds) (both child after) nothing

end Layout

theorem Visit.complaints_append (line : UInt32) (first second : List Visit) :
    complaints line (first ++ second) = complaints line first ++ complaints line second := by
  rw [complaints, List.filter_append, List.map_append]
  rfl

/-! ### Complaints of a reading -/

/-- Whether complaints are all about a line, and those about children left over are about the nodes
that were left before their end. -/
structure Tells (line : UInt32) (visits : List Visit) (found : List Complaint) : Prop where
  about : ∀ c ∈ found, c.line = line
  trailing : found.filter (·.isTrailing) = Visit.complaints line visits

theorem tells_nil (line : UInt32) : Tells line [] [] :=
  ⟨List.forall_mem_nil _, rfl⟩

/-- Complaints about one visit after another. -/
theorem Tells.append {line : UInt32} {first second : List Visit} {found more : List Complaint}
    (h : Tells line first found) (hmore : Tells line second more) :
    Tells line (first ++ second) (found ++ more) where
  about := List.forall_mem_append.mpr ⟨h.about, hmore.about⟩
  trailing := by rw [List.filter_append, h.trailing, hmore.trailing, Visit.complaints_append]

/-- Complaints on the line of the rule tell of no visit if none is about children left over. -/
theorem tells_of_not_trailing {line : UInt32} {found : List Complaint}
    (h : ∀ c ∈ found, c.line = line ∧ c.isTrailing = false) : Tells line [] found where
  about c hc := (h c hc).1
  trailing := List.filter_eq_nil_iff.mpr fun c hc ↦ by simp [(h c hc).2]

/-- What is left over of a node is one complaint. -/
theorem tells_visit (line : UInt32) (v : Visit) : Tells line [v] (Visit.complaints line [v]) := by
  by_cases hunread : v.unread.isEmpty = true
  · have hnone : Visit.complaints line [v] = [] := by simp [Visit.complaints, hunread]
    rw [hnone]
    exact ⟨List.forall_mem_nil _, hnone.symm⟩
  · have hone : Visit.complaints line [v] = [⟨line, .trailing v.rule⟩] := by
      simp [Visit.complaints, hunread]
    rw [hone]
    exact ⟨List.forall_mem_singleton.mpr rfl, hone.symm⟩

/-! ### Readings that follow a layout -/

/-- What a layout says about the places before and after a reading. -/
structure Layout.Leads (layout : Layout) (r s : Reader) : Prop where
  rule : s.rule = r.rule
  line : s.line = r.line
  rest : s.rest = layout.rest r.rest
  errors : ∃ found, s.errors = r.errors ++ found ∧ Tells r.line (layout.visits r.rest) found

/-- Whether a reading reads the children that a layout says, whatever they are. -/
def Follows {α : Type} (body : Read α) (layout : Layout) : Prop :=
  ∀ r, layout.Leads r (body.run r).2

/-- One layout after another leads where the second leads from where the first one does. -/
theorem Layout.Leads.trans {first second : Layout} {r s t : Reader} (h : first.Leads r s)
    (hnext : second.Leads s t) : (both first second).Leads r t := by
  obtain ⟨found, hfound, htells⟩ := h.errors
  obtain ⟨more, hmore, htellsMore⟩ := hnext.errors
  rw [h.line, h.rest] at htellsMore
  refine ⟨hnext.rule.trans h.rule, hnext.line.trans h.line, ?_, found ++ more, ?_, ?_⟩
  · rw [hnext.rest, h.rest]
    rfl
  · rw [hmore, hfound, List.append_assoc]
  · exact htells.append htellsMore

/-- Two layouts that say the same of the next children. -/
theorem Layout.Leads.of_eq {first second : Layout} {r s : Reader} (h : first.Leads r s)
    (hrest : second.rest r.rest = first.rest r.rest)
    (hvisits : second.visits r.rest = first.visits r.rest) : second.Leads r s where
  rule := h.rule
  line := h.line
  rest := h.rest.trans hrest.symm
  errors := by
    rw [hvisits]
    exact h.errors

/-- A layout that depends on the next child goes the first way if the test holds of it. -/
theorem Layout.Leads.yes {test : Tree → Bool} {first second : Layout} {r s : Reader}
    (htest : r.rest.head?.any test = true) (h : first.Leads r s) :
    (branch test first second).Leads r s :=
  h.of_eq (if_pos htest) (if_pos htest)

/-- A layout goes the second way if the test does not hold, or if no child is left. -/
theorem Layout.Leads.no {test : Tree → Bool} {first second : Layout} {r s : Reader}
    (htest : ¬ r.rest.head?.any test = true) (h : second.Leads r s) :
    (branch test first second).Leads r s :=
  h.of_eq (if_neg htest) (if_neg htest)

/-- Nothing more is read after a layout. -/
theorem Layout.Leads.both_nothing {layout : Layout} {r s : Reader}
    (h : (both layout nothing).Leads r s) : layout.Leads r s :=
  h.of_eq rfl (List.append_nil _).symm

namespace Read

section

variable {α β : Type} {body : Read α} {next : α → Read β} {layout first second : Layout}

theorem follows_pure (a : α) : Follows (pure a : Read α) .nothing :=
  fun _ ↦ ⟨rfl, rfl, rfl, [], (List.append_nil _).symm, tells_nil _⟩

/-- A reading in two steps follows the layouts of the steps in turn. -/
theorem follows_bind (h : Follows body first) (hnext : ∀ a, Follows (next a) second) :
    Follows (body >>= next) (.both first second) := by
  intro r
  rw [run_bind]
  exact (h r).trans (hnext _ _)

/-- A reading, and then something that reads no more. -/
theorem follows_bind_nothing (h : Follows body layout) (hnext : ∀ a, Follows (next a) .nothing) :
    Follows (body >>= next) layout :=
  fun r ↦ (follows_bind h hnext r).both_nothing

/-- A value made of what is read. -/
theorem follows_bind_pure {f : α → β} (h : Follows body layout) :
    Follows (body >>= fun a ↦ pure (f a)) layout :=
  follows_bind_nothing h fun a ↦ follows_pure (f a)

/-- The end of a sequence. -/
theorem follows_last (h : Follows body layout) : Follows body (.sequence [layout]) := by
  have hbind := follows_bind h fun a ↦ follows_pure a
  rwa [bind_pure] at hbind

/-- A reading that starts with a look at the kind of the next token. -/
theorem follows_peekKind? {next : Option Token.Kind → Read β} {kinds : List Token.Kind}
    (hyes : ∀ kind, kinds.contains kind = true → Follows (next (some kind)) first)
    (hno : ∀ kind?, (∀ kind ∈ kind?, kinds.contains kind = false) → Follows (next kind?) second) :
    Follows (peekKind? >>= next) (.branch (isToken kinds) first second) := by
  intro r
  have hrun : ((peekKind? >>= next).run r).2 =
      ((next (r.rest.head?.bind fun tree ↦ tree.token?.map (·.kind))).run r).2 := rfl
  rw [hrun]
  by_cases htest : r.rest.head?.any (isToken kinds) = true
  · obtain ⟨tree, hhead, htree⟩ := (Option.any_eq_true ..).mp htest
    obtain ⟨t, ht, hkind⟩ := (Option.any_eq_true ..).mp htree
    rw [hhead, Option.bind_some, ht]
    exact .yes htest (hyes t.kind hkind r)
  · refine .no htest (hno _ (fun kind hkind ↦ ?_) r)
    obtain ⟨tree, hhead, htree⟩ := Option.bind_eq_some_iff.mp hkind
    obtain ⟨t, ht, rfl⟩ := Option.map_eq_some_iff.mp htree
    rw [hhead, Option.any_some, isToken, ht, Option.any_some, Bool.not_eq_true] at htest
    exact htest

end

/-! ### Single children -/

section

variable {α : Type}

/-- A complaint that is not about children left over reads nothing. -/
theorem follows_complain {problem : String → Complaint.Problem}
    (h : ∀ rule line, Complaint.isTrailing ⟨line, problem rule⟩ = false) :
    Follows (complain problem) .nothing := by
  intro r
  refine ⟨rfl, rfl, rfl, [⟨r.line, problem r.rule⟩], rfl, tells_of_not_trailing ?_⟩
  exact List.forall_mem_singleton.mpr ⟨rfl, h _ _⟩

/-- Checking a range reads nothing. -/
theorem follows_checkRange (field : String) (value low high : Int64) :
    Follows (checkRange field value low high) .nothing := by
  rw [checkRange]
  split
  · exact follows_pure ()
  · exact follows_complain fun _ _ ↦ rfl

/-- A child that is asked for is read, whatever it is. -/
theorem follows_child? (expected : String) (test : Tree → Option α) :
    Follows (child? expected test) .child := by
  intro r
  obtain ⟨rule, line, trees, errors⟩ := r
  cases trees with
  | nil =>
    refine ⟨rfl, rfl, rfl, [⟨line, .missing rule expected⟩], rfl, tells_of_not_trailing ?_⟩
    exact List.forall_mem_singleton.mpr ⟨rfl, rfl⟩
  | cons tree trees =>
    cases htest : test tree with
    | some a =>
      rw [run_child? htest]
      exact ⟨rfl, rfl, rfl, [], (List.append_nil _).symm, tells_nil _⟩
    | none =>
      have hrun : ((child? expected test).run ⟨rule, line, tree :: trees, errors⟩).2 =
          ⟨rule, line, trees, errors ++ [⟨line, .wrongKind rule expected tree.describe⟩]⟩ := by
        simp [child?, htest]
        rfl
      rw [hrun]
      refine ⟨rfl, rfl, rfl, _, rfl, tells_of_not_trailing ?_⟩
      exact List.forall_mem_singleton.mpr ⟨rfl, rfl⟩

theorem follows_tokenOf? (kinds : List Token.Kind) : Follows (tokenOf? kinds) .child :=
  follows_child? _ _

/-- A token of a kind is asked for as one child. -/
theorem follows_token? (kind : Token.Kind) : Follows (token? kind) .child :=
  follows_tokenOf? [kind]

theorem follows_word (w : String) : Follows (word w) .child :=
  follows_bind_pure (follows_child? _ _)

theorem follows_eol : Follows eol .child :=
  follows_bind_pure (follows_token? .eol)

theorem follows_integer : Follows integer .child :=
  follows_bind_pure (follows_token? .integer)

theorem follows_natural (field : String) : Follows (natural field) .child :=
  follows_bind_nothing follows_integer fun value ↦
    follows_bind_pure (follows_checkRange field value 0 Int64.maxValue)

theorem follows_percentage (field : String) : Follows (percentage field) .child :=
  follows_bind_nothing (follows_token? .percentage) fun _ ↦
    follows_bind_pure (follows_checkRange field _ 0 100)

theorem follows_quotedText : Follows quotedText .child :=
  follows_bind_pure (follows_token? .quotedText)

/-- A token that may be left out is left where it is if it is of another kind. -/
theorem run_optional?_of_not {kinds : List Token.Kind} {r : Reader}
    (h : r.rest.head?.any (isToken kinds) = false) : (optional? kinds).run r = (none, r) := by
  obtain ⟨rule, line, trees, errors⟩ := r
  cases trees with
  | nil => rfl
  | cons tree trees =>
    cases tree with
    | leaf t => exact run_optional?_none h
    | node name children => rfl

/-- What may be left out, what is read after it if it is there, and what is read in any case. -/
theorem follows_optional?_bind {kinds : List Token.Kind} {next : Option Token → Read α}
    {after last : Layout} (hsome : ∀ t, Follows (next (some t)) (.both after last))
    (hnone : Follows (next none) last) :
    Follows (optional? kinds >>= next) (.both (.optional kinds after) last) := by
  intro r
  rw [run_bind]
  by_cases h : r.rest.head?.any (isToken kinds) = true
  · obtain ⟨rule, line, trees, errors⟩ := r
    obtain ⟨tree, hhead, htree⟩ := (Option.any_eq_true ..).mp h
    obtain ⟨t, ht, hkind⟩ := (Option.any_eq_true ..).mp htree
    obtain ⟨others, rfl⟩ := List.head?_eq_some_iff.mp hhead
    obtain rfl : tree = .leaf t := by
      cases tree <;> cases ht
      rfl
    have hchild : Layout.child.Leads ⟨rule, line, .leaf t :: others, errors⟩
        ⟨rule, line, others, errors⟩ :=
      ⟨rfl, rfl, rfl, [], (List.append_nil _).symm, tells_nil _⟩
    rw [run_optional?_some hkind]
    refine (hchild.trans (hsome t _)).of_eq ?_ ?_
    · rw [Layout.rest, Layout.optional, Layout.rest, if_pos h]
      rfl
    · rw [Layout.visits, Layout.optional, Layout.visits, Layout.rest, if_pos h, if_pos h]
      rfl
  · rw [run_optional?_of_not (Bool.not_eq_true _ ▸ h)]
    refine (hnone r).of_eq ?_ ?_
    · rw [Layout.rest, Layout.optional, Layout.rest, if_neg h]
      rfl
    · rw [Layout.visits, Layout.optional, Layout.visits, Layout.rest, if_neg h, if_neg h]
      rfl

/-- A token that may be left out. -/
theorem follows_optional? (kinds : List Token.Kind) :
    Follows (optional? kinds) (.optional kinds .nothing) := by
  have hbind : Follows (optional? kinds >>= pure) (.both (.optional kinds .nothing) .nothing) :=
    follows_optional?_bind (fun t ↦ follows_bind (follows_pure ()) fun _ ↦ follows_pure (some t))
      (follows_pure none)
  rw [bind_pure] at hbind
  exact fun r ↦ (hbind r).both_nothing

end

/-! ### Rules -/

section

variable {α : Type} {body : Read α} {layout : Layout}

/-- Where a rule ends, what is left of its children is complained about. -/
theorem run_finish_eq (r : Reader) :
    (finish.run r).1 = r.errors ++ Visit.complaints r.line [⟨r.rule, r.rest⟩] := by
  obtain ⟨rule, line, trees, errors⟩ := r
  cases trees with
  | nil => exact (List.append_nil errors).symm
  | cons => rfl

/-- All that a reading tells of a node whose children it reads to their end. -/
theorem tells_finish (h : Follows body layout) (tree : Tree) (line : UInt32) :
    Tells line (layout.visitsOf tree)
      ((do return (← body, ← finish) : Read _).run (tree.reader line)).1.2 := by
  obtain ⟨hrule, hline, hrest, found, hfound, htells⟩ := h (tree.reader line)
  have hrun : ((do return (← body, ← finish) : Read _).run (tree.reader line)).1.2 =
      (finish.run (body.run (tree.reader line)).2).1 := rfl
  rw [hrun, run_finish_eq, hrule, hline, hrest, hfound]
  exact htells.append (tells_visit _ _)

theorem run_inside_eq (h : Follows body layout) (tree : Tree) (r : Reader) :
    ∃ found, ((inside tree body).run r).2 = { r with errors := r.errors ++ found } ∧
      Tells r.line (layout.visitsOf tree) found :=
  ⟨_, rfl, tells_finish h tree r.line⟩

/-- A child that should be a certain rule. -/
theorem follows_nested? {name : String} (h : Follows body layout) :
    Follows (nested? name body) (.inner name layout) := by
  intro r
  obtain ⟨rule, line, trees, errors⟩ := r
  cases trees with
  | nil =>
    refine ⟨rfl, rfl, rfl, [⟨line, .missing rule name⟩], rfl, tells_of_not_trailing ?_⟩
    exact List.forall_mem_singleton.mpr ⟨rfl, rfl⟩
  | cons tree trees =>
    by_cases hrule : tree.isRule name = true
    · obtain ⟨found, hfound, htells⟩ := run_inside_eq h tree ⟨rule, line, trees, errors⟩
      have hrun : ((nested? name body).run ⟨rule, line, tree :: trees, errors⟩).2 =
          ((inside tree body).run ⟨rule, line, trees, errors⟩).2 := by
        rw [nested?, run_bind, run_child? (if_pos hrule)]
        rfl
      have hvisits : (Layout.inner name layout).visits (tree :: trees) = layout.visitsOf tree :=
        if_pos hrule
      rw [hrun, hfound]
      refine ⟨rfl, rfl, rfl, found, rfl, ?_⟩
      rw [hvisits]
      exact htells
    · have hrun : ((nested? name body).run ⟨rule, line, tree :: trees, errors⟩).2 =
          ⟨rule, line, trees, errors ++ [⟨line, .wrongKind rule name tree.describe⟩]⟩ := by
        simp [nested?, child?, hrule]
        rfl
      have hvisits : (Layout.inner name layout).visits (tree :: trees) = [] := if_neg hrule
      rw [hrun]
      refine ⟨rfl, rfl, rfl, [⟨line, .wrongKind rule name tree.describe⟩], rfl, ?_⟩
      rw [hvisits]
      exact tells_of_not_trailing (List.forall_mem_singleton.mpr ⟨rfl, rfl⟩)

/-- The children that are a certain rule, one after the other. -/
theorem run_mapM_inside (h : Follows body layout) (trees : List Tree) (r : Reader) :
    ∃ found, ((trees.mapM (inside · body)).run r).2 = { r with errors := r.errors ++ found } ∧
      Tells r.line (trees.flatMap layout.visitsOf) found := by
  induction trees generalizing r with
  | nil => exact ⟨[], by rw [List.append_nil]; rfl, tells_nil _⟩
  | cons tree trees ih =>
    obtain ⟨found, hfound, htells⟩ := run_inside_eq h tree r
    obtain ⟨more, hmore, htellsMore⟩ := ih ((inside tree body).run r).2
    have hrun : (((tree :: trees).mapM (inside · body)).run r).2 =
        ((trees.mapM (inside · body)).run ((inside tree body).run r).2).2 := by
      rw [List.mapM_cons]
      rfl
    rw [hfound] at hmore htellsMore
    refine ⟨found ++ more, ?_, htells.append htellsMore⟩
    rw [hrun, hfound, hmore, List.append_assoc]

end

end Read

end Tree

end OrderFile
