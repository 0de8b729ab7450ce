import Mathlib.Data.List.TakeDrop
import OrderFile.Proofs.Order.Written
import OrderFile.Proofs.Grammar.File

/-!
What the readings of commands make of trees that are commands written out. `read_of_written` says
that a command is read as it is written, and that all there is to complain about are its values out
of range.
-/

set_option autoImplicit false

namespace OrderFile

open OrderFile.Tree (leaf node)
open OrderFile.Tree.Read

namespace Command

/-- The complaint about a rate of pay, which is the only value that is no integer. -/
def rateComplaints (line : UInt32) : Command → List Complaint
  | pay _ _ rate =>
    if rate < 0 then Bound.complaints line [.natural "rate" rate.floor.toInt64] else []
  | _ => []

/-- All there is to complain about a command that is written as it should be. -/
def complaints (line : UInt32) (command : Command) : List Complaint :=
  Bound.complaints line command.bounds ++ command.rateComplaints line

/-! ### Parts of commands -/

section

variable {rule : String} {line : UInt32} {rest : List Tree} {errors : List Complaint} {t : Token}

theorem run_materialToken {kinds : List Token.Kind} (h : kinds.contains t.kind = true) :
    (materialToken kinds).run ⟨rule, line, leaf t :: rest, errors⟩ =
      (materialOf t, ⟨rule, line, rest, errors⟩) := by
  rw [materialToken, run_bind, run_tokenOf? h, run_pure]
  rfl

theorem run_material (h : Grammar.materialKinds.contains t.kind = true) :
    material.run ⟨rule, line, node "material" [leaf t] :: rest, errors⟩ =
      (materialOf t, ⟨rule, line, rest, errors⟩) := by
  rw [material, run_bind, run_nested? (run_materialToken h), run_pure, List.append_nil]
  rfl

/-- Cargo is read as the material of its token. -/
theorem run_cargo (h : Grammar.cargoKinds.contains t.kind = true) :
    cargo.run ⟨rule, line, node "cargo" [leaf t] :: rest, errors⟩ =
      (materialOf t, ⟨rule, line, rest, errors⟩) := by
  rw [cargo, run_bind, run_nested? (run_materialToken h), run_pure, List.append_nil]
  rfl

theorem run_number (h : Grammar.numberKinds.contains t.kind = true) :
    number.run ⟨rule, line, node "number" [leaf t] :: rest, errors⟩ =
      (t.numberValue, ⟨rule, line, rest, errors⟩) := by
  have hvalue : (do return ((← tokenOf? Grammar.numberKinds).bind Token.number?).getD 0 :
      Tree.Read Float).run ⟨"number", line, [leaf t], []⟩ =
        (t.numberValue, ⟨"number", line, [], []⟩) := by
    rw [run_bind, run_tokenOf? h, run_pure]
    rfl
  rw [number, run_bind, run_nested? hvalue, run_pure, List.append_nil]
  rfl

/-- An orbit is read in any case, and complained about if it is out of its range. -/
theorem run_orbit (h : t.kind = .integer) :
    orbit.run ⟨rule, line, leaf t :: rest, errors⟩ =
      (t.intValue, ⟨rule, line, rest, errors ++ Bound.complaints line [.orbit t.intValue]⟩) := by
  simp only [orbit, run_bind, run_integer h, run_checkRange, run_pure]
  rfl

/-- An orbit that is written in a place exists, so there is nothing to complain about. -/
theorem run_location {place : Tree} {c : Coordinates} (h : Coordinates.Written place c) :
    location.run ⟨rule, line, place :: rest, errors⟩ = (c, ⟨rule, line, rest, errors⟩) := by
  cases h with
  | @system o x _ y _ z p ho hx hc hy hd hz hp =>
    have hcomma : [Token.Kind.comma].contains p.kind = false := by simp [hp]
    have hsystem : Coordinates.checked x.intValue y.intValue z.intValue 0 =
        .ok (.system x.intValue y.intValue z.intValue) := rfl
    rw [location, run_bind, run_nested?]
    · rw [run_pure, List.append_nil]
      rfl
    simp only [run_bind, run_token? ho, run_integer hx, run_token? hc, run_integer hy,
      run_token? hd, run_integer hz, run_optional?_none hcomma, run_token? hp, run_pure, hsystem]
    rfl
  | @orbit o x _ y _ z e n p ho hx hc hy hd hz he hn hlow hhigh hp =>
    have hcomma : [Token.Kind.comma].contains e.kind = true := by simp [he]
    have hexists : 0 ≤ n.intValue ∧ n.intValue ≤ maxOrbit :=
      ⟨Int64.le_trans (by decide) hlow, hhigh⟩
    have hnone : Bound.complaints line [.orbit n.intValue] = [] :=
      (Bound.complaints_eq_nil_iff ..).mpr (List.forall_mem_singleton.mpr hexists)
    have hplace : Coordinates.checked x.intValue y.intValue z.intValue n.intValue =
        .ok ⟨x.intValue, y.intValue, z.intValue, n.intValue⟩ := if_pos hexists
    rw [location, run_bind, run_nested?]
    · rw [run_pure, List.append_nil]
      rfl
    simp only [run_bind, run_token? ho, run_integer hx, run_token? hc, run_integer hy,
      run_token? hd, run_integer hz, run_optional?_some hcomma, run_orbit hn,
      hnone, List.append_nil, run_token? hp, run_pure, hplace]
    rfl

/-- A group that may be left out is read if it is there, and not missed otherwise. -/
theorem run_group? {kinds : List Token.Kind} {group : Option Token}
    (hgroup : ∀ g ∈ group, kinds.contains g.kind = true) (ht : t.kind ∉ kinds) :
    (group? kinds).run ⟨rule, line, group.toList.map leaf ++ leaf t :: rest, errors⟩ =
      (group.bind groupOf?, ⟨rule, line, leaf t :: rest, errors⟩) := by
  rw [group?, run_bind, run_optional? hgroup (by simpa using ht), run_pure]

/-- A number that may be left out is read if it is there, and complained about if it is negative. -/
theorem run_optionalId? {id : Option Token} (hid : ∀ s ∈ id, s.kind = .integer)
    (ht : t.kind ≠ .integer) :
    optionalId?.run ⟨rule, line, id.toList.map leaf ++ leaf t :: rest, errors⟩ =
      (id.bind Token.integer?,
        ⟨rule, line, leaf t :: rest, errors ++
          Bound.complaints line ((id.bind Token.integer?).toList.map (.natural "id"))⟩) := by
  rw [optionalId?, run_bind, run_optional? (by simpa using hid) (by simpa using ht)]
  cases id.bind Token.integer? with
  | none =>
    rw [Option.toList_none, List.map_nil, Bound.complaints_nil, List.append_nil]
    rfl
  | some n =>
    dsimp only
    rw [run_bind, run_checkRange, run_pure]
    rfl

/-- Research is traded one at a time, which is in range. -/
theorem run_trade_research (h : t.kind = .research) :
    trade.run ⟨rule, line, leaf t :: rest, errors⟩ =
      ((1, materialOf t), ⟨rule, line, rest,
        errors ++ Bound.complaints line [.natural "quantity" 1]⟩) := by
  have hone : Bound.complaints line [.natural "quantity" 1] = [] :=
    (Bound.complaints_eq_nil_iff ..).mpr (by decide)
  rw [trade, run_bind, run_peekKind?, if_pos (by rw [h]), run_bind,
    run_materialToken (by simp [h]), run_pure, hone, List.append_nil]

/-- A product is traded with the quantity that comes after it. -/
theorem run_trade_product {q : Token} (h : t.kind = .product) (hq : q.kind = .integer) :
    trade.run ⟨rule, line, leaf t :: leaf q :: rest, errors⟩ =
      ((q.intValue, materialOf t), ⟨rule, line, rest,
        errors ++ Bound.complaints line [.natural "quantity" q.intValue]⟩) := by
  rw [trade, run_bind, run_peekKind?, if_neg (by simp [h]), run_bind,
    run_materialToken (by simp [h, Grammar.materialKinds]), run_bind, run_natural hq, run_pure]

/-- A rate is read in any case, and complained about if it is negative. -/
theorem run_rate (h : Grammar.numberKinds.contains t.kind = true) :
    rate.run ⟨rule, line, node "number" [leaf t] :: rest, errors⟩ =
      (t.numberValue, ⟨rule, line, rest,
        errors ++ rateComplaints line (.pay none default t.numberValue)⟩) := by
  rw [rate, run_bind, run_number h, rateComplaints]
  by_cases hneg : t.numberValue < 0
  · simp only [if_pos hneg, run_bind, run_checkRange, run_pure]
    rfl
  · simp only [if_neg hneg, run_pure, List.append_nil]

/-- A probe that is given a number is sent to an orbit. -/
theorem run_probeTarget?_orbit (h : t.kind = .integer) :
    probeTarget?.run ⟨rule, line, leaf t :: rest, errors⟩ =
      (some (.orbit t.intValue), ⟨rule, line, rest,
        errors ++ Bound.complaints line [.orbit t.intValue]⟩) := by
  have hpeek : peek?.run ⟨rule, line, leaf t :: rest, errors⟩ =
      (some (leaf t), ⟨rule, line, leaf t :: rest, errors⟩) := rfl
  simp only [probeTarget?, run_bind, hpeek, if_pos h, run_orbit h, run_pure]

/-- A probe that is given a place is sent there. -/
theorem run_probeTarget?_system {place : Tree} {c : Coordinates}
    (h : Coordinates.Written place c) :
    probeTarget?.run ⟨rule, line, place :: rest, errors⟩ =
      (some (.system c), ⟨rule, line, rest, errors⟩) := by
  have hpeek : peek?.run ⟨rule, line, place :: rest, errors⟩ =
      (some place, ⟨rule, line, place :: rest, errors⟩) := rfl
  have hlocation := @run_location rule line rest errors place c h
  cases h <;>
    simp only [probeTarget?, run_bind, hpeek, Tree.isRule, Tree.rule?, beq_self_eq_true, if_true,
      hlocation, run_pure]

theorem run_probeTarget?_none (h : t.kind ≠ .integer) :
    probeTarget?.run ⟨rule, line, leaf t :: rest, errors⟩ =
      (none, ⟨rule, line, leaf t :: rest, errors⟩) := by
  have hpeek : peek?.run ⟨rule, line, leaf t :: rest, errors⟩ =
      (some (leaf t), ⟨rule, line, leaf t :: rest, errors⟩) := rfl
  simp only [probeTarget?, run_bind, hpeek, if_neg h, run_pure]

/-! ### The lines of setup orders -/

/-- An item of a transfer is read as it is written, and complained about if its quantity is
negative. -/
theorem run_transferItem {detail : Tree} {item : TransferItem}
    (h : TransferItem.Written detail item) :
    (inside detail transferItem).run ⟨rule, line, rest, errors⟩ =
      (item, ⟨rule, line, rest,
        errors ++ Bound.complaints line [.natural "quantity" item.quantity]⟩) := by
  cases h with
  | @detail q m e hq hm he =>
    refine run_inside ?_
    simp only [transferItem, run_bind, run_natural hq, run_cargo hm, run_eol he, run_pure,
      List.nil_append]

theorem run_details {details : List Tree} {items : List TransferItem}
    (h : List.Forall₂ TransferItem.Written details items) :
    (details.mapM (inside · transferItem)).run ⟨rule, line, rest, errors⟩ =
      (items, ⟨rule, line, rest,
        errors ++ Bound.complaints line (items.map (.natural "quantity" ·.quantity))⟩) := by
  induction h generalizing errors with
  | nil => simp only [List.mapM_nil, run_pure, List.map_nil, Bound.complaints_nil, List.append_nil]
  | @cons _ item _ items hitem _ ih =>
    rw [List.mapM_cons, run_bind, run_transferItem hitem, run_bind, ih, run_pure,
      List.append_assoc, Bound.complaints_append_complaints]
    rfl

theorem isRule_of_written_details {details : List Tree} {items : List TransferItem}
    (h : List.Forall₂ TransferItem.Written details items) :
    ∀ detail ∈ details, detail.isRule "xfer_detail" = true := by
  induction h with
  | nil => simp
  | cons hitem _ ih =>
    cases hitem
    exact List.forall_mem_cons.mpr ⟨rfl, ih⟩

/-- The lines of a setup order are read up to the first token. -/
theorem run_transferItems {details : List Tree} {items : List TransferItem}
    (h : List.Forall₂ TransferItem.Written details items) :
    transferItems.run ⟨rule, line, details ++ leaf t :: rest, errors⟩ =
      (items, ⟨rule, line, leaf t :: rest,
        errors ++ Bound.complaints line (items.map (.natural "quantity" ·.quantity))⟩) := by
  have hspan : (details ++ leaf t :: rest).span (·.isRule "xfer_detail") =
      (details, leaf t :: rest) := by
    have hdetails := isRule_of_written_details h
    rw [List.span_eq_takeWhile_dropWhile, List.takeWhile_append_of_pos hdetails,
      List.dropWhile_append_of_pos hdetails]
    simp [Tree.isRule, Tree.rule?]
  have hrun : transferItems.run ⟨rule, line, details ++ leaf t :: rest, errors⟩ =
      (fun parts : List Tree × List Tree ↦ StateT.run (do
        modify fun r : Tree.Reader ↦ { r with rest := parts.2 }
        parts.1.mapM (inside · transferItem)) ⟨rule, line, details ++ leaf t :: rest, errors⟩)
        ((details ++ leaf t :: rest).span (·.isRule "xfer_detail")) := rfl
  rw [hrun, hspan]
  exact run_details h

end

/-! ### Whole commands -/

/-- The kind that a setup order reads off the word that names it. -/
theorem findIdx?_kind {t : Token} {kind : SetupKind} (h : t.spells kind.word = true) :
    ∃ i, ["colony", "ship"].findIdx? t.spells = some i ∧
      (if some i = some 1 then SetupKind.ship else .colony) = kind := by
  cases kind with
  | colony =>
    have hcolony : t.spells "colony" = true := h
    exact ⟨0, by rw [List.findIdx?_cons, hcolony]; rfl, rfl⟩
  | ship =>
    have hship : t.spells "ship" = true := h
    have hcolony : t.spells "colony" = false := by
      rw [Token.spells, Bool.and_eq_true, sameWord_iff] at hship
      rw [Token.spells, Bool.and_eq_false_iff, sameWord, hship.2]
      exact .inr (by decide +kernel)
    exact ⟨1, by simp [List.findIdx?_cons, hcolony, hship], rfl⟩

/-- A command is read if its operands are, between its keyword and the end of its line. -/
theorem run_read {k : Keyword} {command : Command} {line : UInt32} {w e : Token}
    {trees : List Tree} {errors : List Complaint} (hw : w.spells k.word = true)
    (he : e.kind = .eol)
    (h : (operands k).run ⟨k.word, line, trees, []⟩ =
      (command, ⟨k.word, line, [leaf e], errors⟩)) :
    ((read k).run ⟨k.word, line, leaf w :: trees, []⟩).1 = (command, errors) := by
  rw [read, run_bind, run_word hw, run_bind, h, run_bind, run_eol he, run_bind, run_finish,
    run_pure]

/-- The same for commands that say no rate of pay. -/
theorem run_read_bounds {k : Keyword} {command : Command} {line : UInt32} {w e : Token}
    {trees : List Tree} (hw : w.spells k.word = true) (he : e.kind = .eol)
    (hrate : command.rateComplaints line = [])
    (h : (operands k).run ⟨k.word, line, trees, []⟩ =
      (command, ⟨k.word, line, [leaf e], Bound.complaints line command.bounds⟩)) :
    ((read k).run ⟨k.word, line, leaf w :: trees, []⟩).1 = (command, complaints line command) := by
  rw [run_read hw he h, complaints, hrate, List.append_nil]

/-- What is written is read as it is written, and complained about where a value is out of
range. -/
theorem read_of_written {children : List Tree} {command : Command} {k : Keyword}
    (h : Written children command) (hk : command.keyword? = some k) (line : UInt32) :
    ((read k).run ⟨k.word, line, children, []⟩).1 = (command, complaints line command) := by
  cases h <;> cases hk
  case assemble w id q m e group hw hid hgroup hq hm he =>
    have hother : q.kind ∉ [Token.Kind.depositId, .factoryGroupId, .mineGroupId] := by simp [hq]
    refine run_read_bounds hw he rfl ?_
    simp only [operands, run_bind, run_natural hid, run_group? hgroup hother, run_natural hq,
      run_material hm, run_pure, bounds, List.nil_append, List.cons_append,
      Bound.complaints_append_complaints]
  case bombard w id target pct e hw hid htarget hpct he =>
    refine run_read_bounds hw he rfl ?_
    simp only [operands, run_bind, run_natural hid, run_natural htarget, run_percentage hpct,
      run_pure, bounds, List.nil_append, List.cons_append, Bound.complaints_append_complaints]
  case buyResearch w id m x e hw hid hm hx he =>
    refine run_read_bounds hw he rfl ?_
    simp only [operands, run_bind, run_natural hid, run_trade_research hm, run_number hx, run_pure,
      bounds, List.nil_append, List.cons_append, Bound.complaints_append_complaints]
  case buyProduct w id m q x e hw hid hm hq hx he =>
    refine run_read_bounds hw he rfl ?_
    simp only [operands, run_bind, run_natural hid, run_trade_product hm hq, run_number hx,
      run_pure, bounds, List.nil_append, List.cons_append, Bound.complaints_append_complaints]
  case disassemble w id q m e group hw hid hgroup hq hm he =>
    have hother : q.kind ∉ [Token.Kind.factoryGroupId, .mineGroupId] := by simp [hq]
    refine run_read_bounds hw he rfl ?_
    simp only [operands, run_bind, run_natural hid, run_group? hgroup hother, run_natural hq,
      run_material hm, run_pure, bounds, List.nil_append, List.cons_append,
      Bound.complaints_append_complaints]
  case invade w id target pct e hw hid htarget hpct he =>
    refine run_read_bounds hw he rfl ?_
    simp only [operands, run_bind, run_natural hid, run_natural htarget, run_percentage hpct,
      run_pure, bounds, List.nil_append, List.cons_append, Bound.complaints_append_complaints]
  case move w id e place location hw hid hplace he =>
    refine run_read_bounds hw he rfl ?_
    simp only [operands, run_bind, run_natural hid, run_location hplace, run_pure, bounds,
      List.nil_append]
  case name w id s e hw hid hs he =>
    refine run_read_bounds hw he rfl ?_
    simp only [operands, run_bind, run_natural hid, run_quotedText hs, run_pure, bounds,
      List.nil_append]
  case news w article e place location signature hw hplace harticle hsignature he =>
    have hquoted : ∀ s ∈ signature, [Token.Kind.quotedText].contains s.kind = true := by
      simpa using hsignature
    have hother : [Token.Kind.quotedText].contains e.kind = false := by simp [he]
    refine run_read_bounds hw he rfl ?_
    simp only [operands, run_bind, run_location hplace, run_quotedText harticle,
      run_optional? hquoted hother, run_pure, bounds, Bound.complaints_nil]
  case pay w m x e id hw hid hm hx he =>
    have hother : m.kind ≠ .integer := by simp [hm]
    have hprofession : [Token.Kind.population].contains m.kind = true := by simp [hm]
    refine run_read hw he ?_
    simp only [operands, run_bind, run_optionalId? hid hother, run_materialToken hprofession,
      run_rate hx, run_pure, List.nil_append]
    rfl
  case probe w id e hw hid he =>
    have hother : e.kind ≠ .integer := by simp [he]
    refine run_read_bounds hw he rfl ?_
    simp only [operands, run_bind, run_natural hid, run_probeTarget?_none hother, run_pure, bounds,
      List.nil_append]
  case probeOrbit w id n e hw hid hn he =>
    refine run_read_bounds hw he rfl ?_
    simp only [operands, run_bind, run_natural hid, run_probeTarget?_orbit hn, run_pure, bounds,
      List.nil_append, List.cons_append, Bound.complaints_append_complaints]
  case probeSystem w id e place location hw hid hplace he =>
    refine run_read_bounds hw he rfl ?_
    simp only [operands, run_bind, run_natural hid, run_probeTarget?_system hplace, run_pure,
      bounds, List.nil_append]
  case raid w id target pct m e hw hid htarget hpct hm he =>
    refine run_read_bounds hw he rfl ?_
    simp only [operands, run_bind, run_natural hid, run_natural htarget, run_percentage hpct,
      run_cargo hm, run_pure, bounds, List.nil_append, List.cons_append,
      Bound.complaints_append_complaints]
  case ration w pct e id hw hid hpct he =>
    have hother : pct.kind ≠ .integer := by simp [hpct]
    refine run_read_bounds hw he rfl ?_
    simp only [operands, run_bind, run_optionalId? hid hother, run_percentage hpct, run_pure,
      bounds, List.nil_append, Bound.complaints_append_complaints]
  case retool w id group m e hw hid hgroup hm he =>
    refine run_read_bounds hw he rfl ?_
    simp only [operands, run_bind, run_natural hid, run_token? hgroup, run_material hm, run_pure,
      bounds, List.nil_append]
    rfl
  case sellResearch w id m x e hw hid hm hx he =>
    refine run_read_bounds hw he rfl ?_
    simp only [operands, run_bind, run_natural hid, run_trade_research hm, run_number hx, run_pure,
      bounds, List.nil_append, List.cons_append, Bound.complaints_append_complaints]
  case sellProduct w id m q x e hw hid hm hq hx he =>
    refine run_read_bounds hw he rfl ?_
    simp only [operands, run_bind, run_natural hid, run_trade_product hm hq, run_number hx,
      run_pure, bounds, List.nil_append, List.cons_append, Bound.complaints_append_complaints]
  case setup w id s t e last e' place location kind details items hw hid hplace hs ht he hitems
      hlast he' =>
    obtain ⟨i, hfind, hkind⟩ := findIdx?_kind hs
    refine run_read_bounds hw he' rfl ?_
    simp only [operands, run_bind, run_natural hid, run_location hplace, run_wordOf? hfind, hkind,
      run_word ht, run_eol he, run_transferItems hitems, run_word hlast, run_pure, bounds,
      List.nil_append, List.cons_append, Bound.complaints_append_complaints]
  case supportAttack w id support target pct e hw hid hsupport htarget hpct he =>
    refine run_read_bounds hw he rfl ?_
    simp only [operands, run_bind, run_natural hid, run_natural hsupport, run_peekKind?, htarget,
      if_true, run_natural htarget, run_percentage hpct, run_pure, bounds, List.nil_append,
      List.cons_append, Bound.complaints_append_complaints]
  case supportDefend w id support pct e hw hid hsupport hpct he =>
    refine run_read_bounds hw he rfl ?_
    simp only [operands, run_bind, run_natural hid, run_natural hsupport, run_peekKind?, hpct,
      Option.some.injEq, reduceCtorEq, if_false, run_percentage hpct, run_pure, bounds,
      List.nil_append, List.cons_append, Bound.complaints_append_complaints]
  case survey w id e hw hid he =>
    refine run_read_bounds hw he rfl ?_
    simp only [operands, run_bind, run_natural hid, run_pure, bounds, List.nil_append]
  case transfer w id q m target e hw hid hq hm htarget he =>
    refine run_read_bounds hw he rfl ?_
    simp only [operands, run_bind, run_natural hid, run_natural hq, run_cargo hm,
      run_natural htarget, run_pure, bounds, List.nil_append, List.cons_append,
      Bound.complaints_append_complaints]

end Command

end OrderFile
