import Mathlib.Data.List.TakeDrop
import OrderFile.Order.OfTree
import OrderFile.Proofs.Tree.Layout

/-!
Which children the rule of each keyword reads. `follows_read` says that the reading of a command
reads the children of its layout, whatever these are, and tells of every node on the way that it
left before its end.
-/

set_option autoImplicit false

namespace OrderFile

open OrderFile.Tree (Follows Layout Read Tells isToken)
open OrderFile.Tree.Read

namespace Command

/-! ### Layouts -/

/-- A rule with one token under it. -/
def oneToken (rule : String) : Layout :=
  .inner rule .child

/-- A place: brackets and commas around three numbers, and perhaps a comma and an orbit. -/
def placeLayout : Layout :=
  .inner "coordinate" <| .sequence
    [.child, .child, .child, .child, .child, .child, .optional [.comma] .child, .child]

/-- A traded material, and its quantity if it is not research. -/
def tradeLayout : Layout :=
  .branch (isToken [.research]) .child (.both .child .child)

/-- A line of a setup order. -/
def itemLayout : Layout :=
  .sequence [.child, oneToken "cargo", .child]

/-- What a probe is sent to: an orbit, a star system, or nothing that is named. -/
def targetLayout : Layout :=
  .branch (isToken [.integer]) .child (.branch (·.isRule "coordinate") placeLayout .nothing)

/-- The children between the keyword and the line end. -/
def operandLayouts : Keyword → List Layout
  | .assemble =>
    [.child, .optional [.depositId, .factoryGroupId, .mineGroupId] .nothing, .child,
      oneToken "material"]
  | .bombard | .invade => [.child, .child, .child]
  | .buy | .sell => [.child, tradeLayout, oneToken "number"]
  | .disassemble =>
    [.child, .optional [.factoryGroupId, .mineGroupId] .nothing, .child, oneToken "material"]
  | .move => [.child, placeLayout]
  | .name => [.child, .child]
  | .news => [placeLayout, .child, .optional [.quotedText] .nothing]
  | .pay => [.optional [.integer] .nothing, .child, oneToken "number"]
  | .probe => [.child, targetLayout]
  | .raid => [.child, .child, .child, oneToken "cargo"]
  | .ration => [.optional [.integer] .nothing, .child]
  | .retool => [.child, .child, oneToken "material"]
  | .setup =>
    [.child, placeLayout, .child, .child, .child, .each "xfer_detail" itemLayout, .child]
  | .support => [.child, .child, .branch (isToken [.integer]) (.both .child .child) .child]
  | .survey => [.child]
  | .transfer => [.child, .child, oneToken "cargo", .child]

/-- The children of the rule of a keyword. -/
def layout (k : Keyword) : Layout :=
  .both .child (.both (.sequence (operandLayouts k)) .child)

/-! ### Parts of commands -/

section

variable {α : Type}

theorem follows_materialToken (kinds : List Token.Kind) : Follows (materialToken kinds) .child :=
  follows_bind_pure (follows_tokenOf? kinds)

theorem follows_material : Follows material (oneToken "material") :=
  follows_bind_pure (follows_nested? (follows_materialToken _))

theorem follows_cargo : Follows cargo (oneToken "cargo") :=
  follows_bind_pure (follows_nested? (follows_materialToken _))

theorem follows_number : Follows number (oneToken "number") :=
  follows_bind_pure (follows_nested? (follows_bind_pure (follows_tokenOf? _)))

theorem follows_orbit : Follows orbit .child :=
  follows_bind_nothing follows_integer fun value ↦
    follows_bind_pure (follows_checkRange "orbit" value 0 maxOrbit)

/-- A group that may be left out is one child, or none. -/
theorem follows_group? (kinds : List Token.Kind) :
    Follows (group? kinds) (.optional kinds .nothing) :=
  follows_bind_pure (follows_optional? kinds)

/-- A place is read as its layout says. -/
theorem follows_location : Follows location placeLayout := by
  refine follows_bind_pure (follows_nested? ?_)
  refine follows_bind (follows_token? _) fun _ ↦ ?_
  refine follows_bind follows_integer fun x ↦ ?_
  refine follows_bind (follows_token? _) fun _ ↦ ?_
  refine follows_bind follows_integer fun y ↦ ?_
  refine follows_bind (follows_token? _) fun _ ↦ ?_
  refine follows_bind follows_integer fun z ↦ ?_
  have hlast (orbit : Int64) : Follows (do
      let _ ← token? .parenClose
      return (Coordinates.checked x y z orbit).toOption.getD (.system x y z))
      (.sequence [.child]) :=
    follows_bind (follows_token? _) fun _ ↦ follows_pure _
  exact follows_optional?_bind (fun _ ↦ follows_bind follows_orbit hlast) (hlast 0)

theorem follows_optionalId? : Follows optionalId? (.optional [.integer] .nothing) := by
  refine follows_bind_nothing (follows_optional? _) fun t? ↦ ?_
  cases t?.bind Token.integer? with
  | none => exact follows_pure none
  | some id => exact follows_bind_pure (follows_checkRange "id" id 0 Int64.maxValue)

/-- A trade is read as its layout says, research without a quantity. -/
theorem follows_trade : Follows trade tradeLayout := by
  refine follows_peekKind? (fun kind hkind ↦ ?_) fun kind? hkind? ↦ ?_
  · obtain rfl := List.mem_singleton.mp (List.contains_iff_mem.mp hkind)
    exact follows_bind_pure (follows_materialToken _)
  · have hother : kind? ≠ some .research := by
      rintro rfl
      exact absurd (hkind? _ rfl) (by decide)
    rw [if_neg hother]
    exact follows_bind (follows_materialToken _) fun _ ↦ follows_bind_pure (follows_natural _)

theorem follows_rate : Follows rate (oneToken "number") := by
  refine follows_bind_nothing follows_number fun x ↦ ?_
  split
  · exact follows_bind_pure (follows_checkRange "rate" x.floor.toInt64 0 Int64.maxValue)
  · exact follows_pure x

/-- The target of a probe is read as its layout says. -/
theorem follows_probeTarget? : Follows probeTarget? targetLayout := by
  have hnothing : Follows (pure none : Read (Option ProbeTarget)) .nothing := follows_pure none
  have horbit : Follows (do return some (.orbit (← orbit)) : Read (Option ProbeTarget)) .child :=
    follows_bind_pure follows_orbit
  have hplace : Follows (do return some (.system (← location)) : Read (Option ProbeTarget))
      placeLayout := follows_bind_pure follows_location
  intro r
  obtain ⟨rule, line, trees, errors⟩ := r
  cases trees with
  | nil => exact .no Bool.false_ne_true (.no Bool.false_ne_true (hnothing _))
  | cons tree trees =>
    cases tree with
    | leaf t =>
      have hrun : probeTarget?.run ⟨rule, line, .leaf t :: trees, errors⟩ =
          (if t.kind = .integer then do return some (.orbit (← orbit)) else return none :
            Read (Option ProbeTarget)).run ⟨rule, line, .leaf t :: trees, errors⟩ := rfl
      rw [hrun]
      by_cases hkind : t.kind = .integer
      · rw [if_pos hkind]
        exact .yes (by simp [isToken, Tree.token?, hkind]) (horbit _)
      · rw [if_neg hkind]
        exact .no (by simp [isToken, Tree.token?, hkind]) (.no Bool.false_ne_true (hnothing _))
    | node name children =>
      have hrun : probeTarget?.run ⟨rule, line, .node name children :: trees, errors⟩ =
          (if (Tree.node name children).isRule "coordinate" then
            do return some (.system (← location)) else return none :
              Read (Option ProbeTarget)).run ⟨rule, line, .node name children :: trees, errors⟩ :=
        rfl
      rw [hrun]
      by_cases hrule : (Tree.node name children).isRule "coordinate" = true
      · rw [if_pos hrule]
        exact .no Bool.false_ne_true (.yes hrule (hplace _))
      · rw [if_neg hrule]
        exact .no Bool.false_ne_true (.no hrule (hnothing _))

/-- An item of a transfer is its quantity, its cargo and its line end. -/
theorem follows_transferItem : Follows transferItem itemLayout :=
  follows_bind (follows_natural _) fun _ ↦ follows_bind follows_cargo fun _ ↦
    follows_bind follows_eol fun _ ↦ follows_pure _

/-- A transfer reads as many items as there are. -/
theorem follows_transferItems : Follows transferItems (.each "xfer_detail" itemLayout) := by
  intro r
  obtain ⟨found, hfound, htells⟩ := run_mapM_inside follows_transferItem
    (r.rest.takeWhile (·.isRule "xfer_detail"))
    { r with rest := r.rest.dropWhile (·.isRule "xfer_detail") }
  have hrun : (transferItems.run r).2 =
      (((r.rest.span (·.isRule "xfer_detail")).1.mapM (inside · transferItem)).run
        { r with rest := (r.rest.span (·.isRule "xfer_detail")).2 }).2 := rfl
  rw [hrun, List.span_eq_takeWhile_dropWhile, hfound]
  exact ⟨rfl, rfl, rfl, found, rfl, htells⟩

end

/-! ### Whole commands -/

/-- The operands of every keyword are read as its layout says. -/
theorem follows_operands (k : Keyword) : Follows (operands k) (.sequence (operandLayouts k)) := by
  cases k with
  | assemble | disassemble =>
    exact follows_bind (follows_natural _) fun _ ↦ follows_bind (follows_group? _) fun _ ↦
      follows_bind (follows_natural _) fun _ ↦ follows_bind follows_material fun _ ↦ follows_pure _
  | bombard | invade =>
    exact follows_bind (follows_natural _) fun _ ↦ follows_bind (follows_natural _) fun _ ↦
      follows_bind (follows_percentage _) fun _ ↦ follows_pure _
  | buy | sell =>
    exact follows_bind (follows_natural _) fun _ ↦ follows_bind follows_trade fun _ ↦
      follows_bind follows_number fun _ ↦ follows_pure _
  | move =>
    exact follows_bind (follows_natural _) fun _ ↦ follows_bind follows_location fun _ ↦
      follows_pure _
  | name =>
    exact follows_bind (follows_natural _) fun _ ↦ follows_bind follows_quotedText fun _ ↦
      follows_pure _
  | news =>
    exact follows_bind follows_location fun _ ↦ follows_bind follows_quotedText fun _ ↦
      follows_bind (follows_optional? _) fun _ ↦ follows_pure _
  | pay =>
    exact follows_bind follows_optionalId? fun _ ↦ follows_bind (follows_materialToken _) fun _ ↦
      follows_bind follows_rate fun _ ↦ follows_pure _
  | probe =>
    exact follows_bind (follows_natural _) fun _ ↦ follows_bind follows_probeTarget? fun _ ↦
      follows_pure _
  | raid =>
    exact follows_bind (follows_natural _) fun _ ↦ follows_bind (follows_natural _) fun _ ↦
      follows_bind (follows_percentage _) fun _ ↦ follows_bind follows_cargo fun _ ↦
        follows_pure _
  | ration =>
    exact follows_bind follows_optionalId? fun _ ↦ follows_bind (follows_percentage _) fun _ ↦
      follows_pure _
  | retool =>
    exact follows_bind (follows_natural _) fun _ ↦ follows_bind (follows_token? _) fun _ ↦
      follows_bind follows_material fun _ ↦ follows_pure _
  | setup =>
    exact follows_bind (follows_natural _) fun _ ↦ follows_bind follows_location fun _ ↦
      follows_bind (follows_child? _ _) fun _ ↦ follows_bind (follows_word _) fun _ ↦
        follows_bind follows_eol fun _ ↦ follows_bind follows_transferItems fun _ ↦
          follows_bind (follows_word _) fun _ ↦ follows_pure _
  | support =>
    refine follows_bind (follows_natural _) fun _ ↦ follows_bind (follows_natural _) fun _ ↦
      follows_last (follows_peekKind? (fun kind hkind ↦ ?_) fun kind? hkind? ↦ ?_)
    · obtain rfl := List.mem_singleton.mp (List.contains_iff_mem.mp hkind)
      exact follows_bind (follows_natural _) fun _ ↦ follows_bind_pure (follows_percentage _)
    · have hother : kind? ≠ some .integer := by
        rintro rfl
        exact absurd (hkind? _ rfl) (by decide)
      rw [if_neg hother]
      exact follows_bind_pure (follows_percentage _)
  | survey => exact follows_bind (follows_natural _) fun _ ↦ follows_pure _
  | transfer =>
    exact follows_bind (follows_natural _) fun _ ↦ follows_bind (follows_natural _) fun _ ↦
      follows_bind follows_cargo fun _ ↦ follows_bind (follows_natural _) fun _ ↦ follows_pure _

/-- The reading of a command reads the children of its layout. -/
theorem follows_read (k : Keyword) :
    Follows (do word k.word; let command ← operands k; eol; return command) (layout k) :=
  follows_bind (follows_word _) fun _ ↦ follows_bind (follows_operands k) fun _ ↦
    follows_bind_pure follows_eol

/-- The complaints of a reading tell of the nodes that it left before their end. -/
theorem tells_read (k : Keyword) (rule : Tree) (line : UInt32) :
    Tells line ((layout k).visitsOf rule) ((read k).run (rule.reader line)).1.2 :=
  tells_finish (follows_read k) rule line

end Command

end OrderFile
