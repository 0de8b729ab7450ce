import Mathlib.Data.List.Forall2
import OrderFile.Order.OfTree
import OrderFile.Proofs.Grammar.Fits
import OrderFile.Proofs.Tree.Reader

/-!
Commands as they are written: which trees stand for which command. The relation says nothing of how
trees are made or read. `written_of_fits` says that the trees that fit the rule of a keyword are a
command of that keyword, written out, and `fits_of_written` that there are no others.
-/

set_option autoImplicit false

namespace OrderFile

open OrderFile.Tree (leaf node)

/-- A place as a tree. Only an orbit that exists can be written. -/
inductive Coordinates.Written : Tree → Coordinates → Prop
  | system {o x c y d z p : Token} (ho : o.kind = .parenOpen) (hx : x.kind = .integer)
      (hc : c.kind = .comma) (hy : y.kind = .integer) (hd : d.kind = .comma)
      (hz : z.kind = .integer) (hp : p.kind = .parenClose) :
      Written (node "coordinate" [leaf o, leaf x, leaf c, leaf y, leaf d, leaf z, leaf p])
        (.system x.intValue y.intValue z.intValue)
  | orbit {o x c y d z e n p : Token} (ho : o.kind = .parenOpen) (hx : x.kind = .integer)
      (hc : c.kind = .comma) (hy : y.kind = .integer) (hd : d.kind = .comma)
      (hz : z.kind = .integer) (he : e.kind = .comma) (hn : n.kind = .integer)
      (hlow : 1 ≤ n.intValue) (hhigh : n.intValue ≤ maxOrbit) (hp : p.kind = .parenClose) :
      Written
        (node "coordinate"
          [leaf o, leaf x, leaf c, leaf y, leaf d, leaf z, leaf e, leaf n, leaf p])
        ⟨x.intValue, y.intValue, z.intValue, n.intValue⟩

/-- A line of a setup order as a tree. -/
inductive TransferItem.Written : Tree → TransferItem → Prop
  | detail {q m e : Token} (hq : q.kind = .integer) (hm : Grammar.cargoKinds.contains m.kind)
      (he : e.kind = .eol) :
      Written (node "xfer_detail" [leaf q, node "cargo" [leaf m], leaf e])
        ⟨Command.materialOf m, q.intValue⟩

namespace Command

/-- A command as the children of its rule: its keyword, its operands and the end of its line. -/
inductive Written : List Tree → Command → Prop
  | assemble {w id q m e : Token} {group : Option Token} (hw : w.spells "assemble")
      (hid : id.kind = .integer)
      (hgroup : ∀ g ∈ group,
        [Token.Kind.depositId, .factoryGroupId, .mineGroupId].contains g.kind)
      (hq : q.kind = .integer) (hm : Grammar.materialKinds.contains m.kind) (he : e.kind = .eol) :
      Written
        (leaf w :: leaf id ::
          (group.toList.map leaf ++ [leaf q, node "material" [leaf m], leaf e]))
        (.assemble id.intValue (group.bind groupOf?) q.intValue (materialOf m))
  | bombard {w id target pct e : Token} (hw : w.spells "bombard") (hid : id.kind = .integer)
      (htarget : target.kind = .integer) (hpct : pct.kind = .percentage) (he : e.kind = .eol) :
      Written [leaf w, leaf id, leaf target, leaf pct, leaf e]
        (.bombard id.intValue target.intValue pct.intValue)
  | buyResearch {w id m x e : Token} (hw : w.spells "buy") (hid : id.kind = .integer)
      (hm : m.kind = .research) (hx : Grammar.numberKinds.contains x.kind) (he : e.kind = .eol) :
      Written [leaf w, leaf id, leaf m, node "number" [leaf x], leaf e]
        (.buy id.intValue 1 (materialOf m) x.numberValue)
  | buyProduct {w id m q x e : Token} (hw : w.spells "buy") (hid : id.kind = .integer)
      (hm : m.kind = .product) (hq : q.kind = .integer)
      (hx : Grammar.numberKinds.contains x.kind) (he : e.kind = .eol) :
      Written [leaf w, leaf id, leaf m, leaf q, node "number" [leaf x], leaf e]
        (.buy id.intValue q.intValue (materialOf m) x.numberValue)
  | disassemble {w id q m e : Token} {group : Option Token} (hw : w.spells "disassemble")
      (hid : id.kind = .integer)
      (hgroup : ∀ g ∈ group, [Token.Kind.factoryGroupId, .mineGroupId].contains g.kind)
      (hq : q.kind = .integer) (hm : Grammar.materialKinds.contains m.kind) (he : e.kind = .eol) :
      Written
        (leaf w :: leaf id ::
          (group.toList.map leaf ++ [leaf q, node "material" [leaf m], leaf e]))
        (.disassemble id.intValue (group.bind groupOf?) q.intValue (materialOf m))
  | invade {w id target pct e : Token} (hw : w.spells "invade") (hid : id.kind = .integer)
      (htarget : target.kind = .integer) (hpct : pct.kind = .percentage) (he : e.kind = .eol) :
      Written [leaf w, leaf id, leaf target, leaf pct, leaf e]
        (.invade id.intValue target.intValue pct.intValue)
  | move {w id e : Token} {place : Tree} {location : Coordinates} (hw : w.spells "move")
      (hid : id.kind = .integer) (hplace : Coordinates.Written place location)
      (he : e.kind = .eol) :
      Written [leaf w, leaf id, place, leaf e] (.move id.intValue location)
  | name {w id s e : Token} (hw : w.spells "name") (hid : id.kind = .integer)
      (hs : s.kind = .quotedText) (he : e.kind = .eol) :
      Written [leaf w, leaf id, leaf s, leaf e] (.name id.intValue s.textValue)
  | news {w article e : Token} {place : Tree} {location : Coordinates} {signature : Option Token}
      (hw : w.spells "news") (hplace : Coordinates.Written place location)
      (harticle : article.kind = .quotedText) (hsignature : ∀ s ∈ signature, s.kind = .quotedText)
      (he : e.kind = .eol) :
      Written (leaf w :: place :: leaf article :: (signature.toList.map leaf ++ [leaf e]))
        (.news location article.textValue (signature.bind Token.text?))
  | pay {w m x e : Token} {id : Option Token} (hw : w.spells "pay")
      (hid : ∀ t ∈ id, t.kind = .integer) (hm : m.kind = .population)
      (hx : Grammar.numberKinds.contains x.kind) (he : e.kind = .eol) :
      Written (leaf w :: (id.toList.map leaf ++ [leaf m, node "number" [leaf x], leaf e]))
        (.pay (id.bind Token.integer?) (materialOf m) x.numberValue)
  | probe {w id e : Token} (hw : w.spells "probe") (hid : id.kind = .integer)
      (he : e.kind = .eol) :
      Written [leaf w, leaf id, leaf e] (.probe id.intValue none)
  | probeOrbit {w id n e : Token} (hw : w.spells "probe") (hid : id.kind = .integer)
      (hn : n.kind = .integer) (he : e.kind = .eol) :
      Written [leaf w, leaf id, leaf n, leaf e] (.probe id.intValue (some (.orbit n.intValue)))
  | probeSystem {w id e : Token} {place : Tree} {location : Coordinates} (hw : w.spells "probe")
      (hid : id.kind = .integer) (hplace : Coordinates.Written place location)
      (he : e.kind = .eol) :
      Written [leaf w, leaf id, place, leaf e] (.probe id.intValue (some (.system location)))
  | raid {w id target pct m e : Token} (hw : w.spells "raid") (hid : id.kind = .integer)
      (htarget : target.kind = .integer) (hpct : pct.kind = .percentage)
      (hm : Grammar.cargoKinds.contains m.kind) (he : e.kind = .eol) :
      Written [leaf w, leaf id, leaf target, leaf pct, node "cargo" [leaf m], leaf e]
        (.raid id.intValue target.intValue pct.intValue (materialOf m))
  | ration {w pct e : Token} {id : Option Token} (hw : w.spells "ration")
      (hid : ∀ t ∈ id, t.kind = .integer) (hpct : pct.kind = .percentage) (he : e.kind = .eol) :
      Written (leaf w :: (id.toList.map leaf ++ [leaf pct, leaf e]))
        (.ration (id.bind Token.integer?) pct.intValue)
  | retool {w id group m e : Token} (hw : w.spells "retool") (hid : id.kind = .integer)
      (hgroup : group.kind = .factoryGroupId) (hm : Grammar.materialKinds.contains m.kind)
      (he : e.kind = .eol) :
      Written [leaf w, leaf id, leaf group, node "material" [leaf m], leaf e]
        (.retool id.intValue group.intValue (materialOf m))
  | sellResearch {w id m x e : Token} (hw : w.spells "sell") (hid : id.kind = .integer)
      (hm : m.kind = .research) (hx : Grammar.numberKinds.contains x.kind) (he : e.kind = .eol) :
      Written [leaf w, leaf id, leaf m, node "number" [leaf x], leaf e]
        (.sell id.intValue 1 (materialOf m) x.numberValue)
  | sellProduct {w id m q x e : Token} (hw : w.spells "sell") (hid : id.kind = .integer)
      (hm : m.kind = .product) (hq : q.kind = .integer)
      (hx : Grammar.numberKinds.contains x.kind) (he : e.kind = .eol) :
      Written [leaf w, leaf id, leaf m, leaf q, node "number" [leaf x], leaf e]
        (.sell id.intValue q.intValue (materialOf m) x.numberValue)
  | setup {w id s t e last e' : Token} {place : Tree} {location : Coordinates} {kind : SetupKind}
      {details : List Tree} {items : List TransferItem} (hw : w.spells "setup")
      (hid : id.kind = .integer) (hplace : Coordinates.Written place location)
      (hs : s.spells kind.word) (ht : t.spells "transfer") (he : e.kind = .eol)
      (hitems : List.Forall₂ TransferItem.Written details items) (hlast : last.spells "end")
      (he' : e'.kind = .eol) :
      Written
        (leaf w :: leaf id :: place :: leaf s :: leaf t :: leaf e ::
          (details ++ [leaf last, leaf e']))
        (.setup id.intValue location kind items)
  | supportAttack {w id support target pct e : Token} (hw : w.spells "support")
      (hid : id.kind = .integer) (hsupport : support.kind = .integer)
      (htarget : target.kind = .integer) (hpct : pct.kind = .percentage) (he : e.kind = .eol) :
      Written [leaf w, leaf id, leaf support, leaf target, leaf pct, leaf e]
        (.supportAttack id.intValue support.intValue target.intValue pct.intValue)
  | supportDefend {w id support pct e : Token} (hw : w.spells "support")
      (hid : id.kind = .integer) (hsupport : support.kind = .integer)
      (hpct : pct.kind = .percentage) (he : e.kind = .eol) :
      Written [leaf w, leaf id, leaf support, leaf pct, leaf e]
        (.supportDefend id.intValue support.intValue pct.intValue)
  | survey {w id e : Token} (hw : w.spells "survey") (hid : id.kind = .integer)
      (he : e.kind = .eol) :
      Written [leaf w, leaf id, leaf e] (.survey id.intValue)
  | transfer {w id q m target e : Token} (hw : w.spells "transfer") (hid : id.kind = .integer)
      (hq : q.kind = .integer) (hm : Grammar.cargoKinds.contains m.kind)
      (htarget : target.kind = .integer) (he : e.kind = .eol) :
      Written [leaf w, leaf id, leaf q, node "cargo" [leaf m], leaf target, leaf e]
        (.transfer id.intValue q.intValue (materialOf m) target.intValue)

end Command

/-! ### What fits is written -/

namespace Grammar

open Pattern

/-- An orbit within its bounds may come before the others. -/
theorem fits_orbit_cons_iff {others : List Pattern} {trees : List Tree} :
    (sequence (integerIn 1 maxOrbit :: others)).Fits trees ↔
      ∃ t back, trees = leaf t :: back ∧
        (t.kind = .integer ∧ 1 ≤ t.intValue ∧ t.intValue ≤ maxOrbit) ∧
        (sequence others).Fits back := by
  have htest (t : Token) : (integerIn 1 maxOrbit).admits t = true ↔
      t.kind = .integer ∧ 1 ≤ t.intValue ∧ t.intValue ≤ maxOrbit := by
    rw [admits, Bool.and_eq_true, beq_iff_eq, Token.intValue]
    refine and_congr_right fun _ ↦ ?_
    cases t.integer? with
    | none => decide
    | some n => simp
  have hfirst (trees : List Tree) : (integerIn 1 maxOrbit).Fits trees ↔
      ∃ t, (t.kind = .integer ∧ 1 ≤ t.intValue ∧ t.intValue ≤ maxOrbit) ∧ trees = [leaf t] :=
    exists_congr fun t ↦ and_congr_left' (htest t)
  exact fits_cons_iff hfirst

/-- What fits the rule of a place is a place, written out. -/
theorem fits_coordinate_iff {trees : List Tree} :
    coordinate.Fits trees ↔
      ∃ place location, trees = [place] ∧ Coordinates.Written place location := by
  constructor
  · rintro ⟨_, hplace, rfl⟩
    simp only [fits_kind_cons_iff, fits_optional_cons_iff, fits_seq_cons_iff,
      fits_orbit_cons_iff, fits_sequence_nil_iff] at hplace
    obtain ⟨o, _, rfl, ho, x, _, rfl, hx, c, _, rfl, hc, y, _, rfl, hy, d, _, rfl, hd, z, _, rfl,
      hz, ⟨p, _, rfl, hp, rfl⟩ | ⟨e, _, rfl, he, n, _, rfl, ⟨hn, hlow, hhigh⟩, p, _, rfl, hp,
      rfl⟩⟩ := hplace
    · exact ⟨_, _, rfl, .system ho hx hc hy hd hz hp⟩
    · exact ⟨_, _, rfl, .orbit ho hx hc hy hd hz he hn hlow hhigh hp⟩
  · rintro ⟨place, location, rfl, hplace⟩
    cases hplace with
    | system ho hx hc hy hd hz hp =>
      refine ⟨_, ?_, rfl⟩
      simp [fits_kind_cons_iff, fits_optional_cons_iff, fits_sequence_nil_iff, *]
    | orbit ho hx hc hy hd hz he hn hlow hhigh hp =>
      refine ⟨_, ?_, rfl⟩
      simp [fits_kind_cons_iff, fits_optional_cons_iff, fits_seq_cons_iff, fits_orbit_cons_iff,
        fits_sequence_nil_iff, *]

theorem fits_coordinate_cons_iff {others : List Pattern} {trees : List Tree} :
    (sequence (coordinate :: others)).Fits trees ↔
      ∃ place back, trees = place :: back ∧ (∃ location, Coordinates.Written place location) ∧
        (sequence others).Fits back := by
  constructor
  · rintro ⟨_, back, hfront, hback, rfl⟩
    obtain ⟨place, location, rfl, hplace⟩ := fits_coordinate_iff.mp hfront
    exact ⟨place, back, rfl, ⟨location, hplace⟩, hback⟩
  · rintro ⟨place, back, rfl, ⟨location, hplace⟩, hback⟩
    exact ⟨[place], back, fits_coordinate_iff.mpr ⟨place, location, rfl, hplace⟩, hback, rfl⟩

/-- What fits the rule of an item is an item, written out. -/
theorem fits_transferDetail_iff {trees : List Tree} :
    transferDetail.Fits trees ↔
      ∃ detail item, trees = [detail] ∧ TransferItem.Written detail item := by
  constructor
  · rintro ⟨_, hdetail, rfl⟩
    simp only [cargo, fits_kind_cons_iff, fits_rule_anyOf_cons_iff, fits_sequence_nil_iff]
      at hdetail
    obtain ⟨q, _, rfl, hq, m, _, rfl, hm, e, _, rfl, he, rfl⟩ := hdetail
    exact ⟨_, _, rfl, .detail hq hm he⟩
  · rintro ⟨_, item, rfl, hitem⟩
    cases hitem with
    | detail hq hm he =>
      refine ⟨_, ?_, rfl⟩
      simp only [cargo, fits_kind_cons_iff, fits_rule_anyOf_cons_iff, fits_sequence_nil_iff]
      exact ⟨_, _, rfl, hq, _, _, rfl, hm, _, _, rfl, he, rfl⟩

/-- What fits a repetition of items is items in a row, written out. -/
theorem written_of_fits_details {stop : String} {trees : List Tree}
    (h : (repeated transferDetail stop).Fits trees) :
    ∃ items, List.Forall₂ TransferItem.Written trees items := by
  obtain ⟨parts, hparts, rfl⟩ := h
  induction parts with
  | nil => exact ⟨[], .nil⟩
  | cons part parts ih =>
    obtain ⟨hpart, hothers⟩ := List.forall_mem_cons.mp hparts
    obtain ⟨items, hitems⟩ := ih hothers
    obtain ⟨detail, item, rfl, hitem⟩ := fits_transferDetail_iff.mp hpart
    exact ⟨item :: items, .cons hitem hitems⟩

/-- What fits the rule of a setup order is a setup command, written out. -/
theorem written_of_fits_setup {trees : List Tree}
    (h : (sequence (word "setup" :: operands .setup)).Fits trees) :
    ∃ command : Command, command.keyword? = some .setup ∧ command.Written trees := by
  simp only [operands, fits_word_cons_iff, fits_kind_cons_iff, fits_coordinate_cons_iff,
    fits_oneWord_cons_iff] at h
  obtain ⟨w, _, rfl, hw, id, _, rfl, hid, place, _, rfl, ⟨location, hplace⟩, s, _, rfl, hs, t, _,
    rfl, ht, e, _, rfl, he, details, back, hdetails, hback, rfl⟩ := h
  simp only [fits_word_cons_iff, fits_kind_cons_iff, fits_sequence_nil_iff] at hback
  obtain ⟨last, _, rfl, hlast, e', _, rfl, he', rfl⟩ := hback
  obtain ⟨items, hitems⟩ := written_of_fits_details hdetails
  have hkind : ∃ kind : SetupKind, s.spells kind.word = true := by
    simp only [List.any_cons, List.any_nil, Bool.or_false, Bool.or_eq_true] at hs
    exact hs.elim (⟨.ship, ·⟩) (⟨.colony, ·⟩)
  obtain ⟨kind, hkind⟩ := hkind
  exact ⟨_, rfl, .setup hw hid hplace hkind ht he hitems hlast he'⟩

/-- The trees that fit the rule of a keyword are a command of that keyword. -/
theorem written_of_fits {k : Keyword} {trees : List Tree}
    (h : (sequence (word k.word :: operands k)).Fits trees) :
    ∃ command : Command, command.keyword? = some k ∧ command.Written trees := by
  cases k
  case setup => exact written_of_fits_setup h
  all_goals
    simp only [operands, material, cargo, number, tradeItem, Keyword.word, fits_word_cons_iff,
      fits_kind_cons_iff, fits_anyOf_cons_iff, fits_rule_anyOf_cons_iff, fits_optional_cons_iff,
      fits_choice_cons_iff, fits_seq_cons_iff, fits_coordinate_cons_iff,
      fits_sequence_nil_iff] at h
    obtain ⟨w, _, rfl, hw, h⟩ := h
  case assemble =>
    obtain ⟨id, _, rfl, hid, ⟨q, _, rfl, hq, m, _, rfl, hm, e, _, rfl, he, rfl⟩ |
      ⟨g, _, rfl, hg, q, _, rfl, hq, m, _, rfl, hm, e, _, rfl, he, rfl⟩⟩ := h
    · exact ⟨_, rfl, @Command.Written.assemble w id q m e none hw hid (by simp) hq hm he⟩
    · refine ⟨_, rfl, @Command.Written.assemble w id q m e (some g) hw hid ?_ hq hm he⟩
      intro t ht
      obtain rfl := Option.some.inj ht
      exact hg
  case bombard =>
    obtain ⟨id, _, rfl, hid, target, _, rfl, htarget, pct, _, rfl, hpct, e, _, rfl, he, rfl⟩ := h
    exact ⟨_, rfl, .bombard hw hid htarget hpct he⟩
  case buy =>
    obtain ⟨id, _, rfl, hid, ⟨m, _, rfl, hm, x, _, rfl, hx, e, _, rfl, he, rfl⟩ |
      ⟨m, _, rfl, hm, q, _, rfl, hq, x, _, rfl, hx, e, _, rfl, he, rfl⟩⟩ := h
    · exact ⟨_, rfl, .buyResearch hw hid hm hx he⟩
    · exact ⟨_, rfl, .buyProduct hw hid hm hq hx he⟩
  case disassemble =>
    obtain ⟨id, _, rfl, hid, ⟨q, _, rfl, hq, m, _, rfl, hm, e, _, rfl, he, rfl⟩ |
      ⟨g, _, rfl, hg, q, _, rfl, hq, m, _, rfl, hm, e, _, rfl, he, rfl⟩⟩ := h
    · exact ⟨_, rfl, @Command.Written.disassemble w id q m e none hw hid (by simp) hq hm he⟩
    · refine ⟨_, rfl, @Command.Written.disassemble w id q m e (some g) hw hid ?_ hq hm he⟩
      intro t ht
      obtain rfl := Option.some.inj ht
      exact hg
  case invade =>
    obtain ⟨id, _, rfl, hid, target, _, rfl, htarget, pct, _, rfl, hpct, e, _, rfl, he, rfl⟩ := h
    exact ⟨_, rfl, .invade hw hid htarget hpct he⟩
  case move =>
    obtain ⟨id, _, rfl, hid, place, _, rfl, ⟨location, hplace⟩, e, _, rfl, he, rfl⟩ := h
    exact ⟨_, rfl, .move hw hid hplace he⟩
  case name =>
    obtain ⟨id, _, rfl, hid, s, _, rfl, hs, e, _, rfl, he, rfl⟩ := h
    exact ⟨_, rfl, .name hw hid hs he⟩
  case news =>
    obtain ⟨place, _, rfl, ⟨location, hplace⟩, article, _, rfl, harticle,
      ⟨e, _, rfl, he, rfl⟩ | ⟨s, _, rfl, hs, e, _, rfl, he, rfl⟩⟩ := h
    · exact ⟨_, rfl,
        @Command.Written.news w article e place location none hw hplace harticle (by simp) he⟩
    · refine ⟨_, rfl,
        @Command.Written.news w article e place location (some s) hw hplace harticle ?_ he⟩
      intro t ht
      obtain rfl := Option.some.inj ht
      exact hs
  case pay =>
    obtain ⟨m, _, rfl, hm, x, _, rfl, hx, e, _, rfl, he, rfl⟩ |
      ⟨id, _, rfl, hid, m, _, rfl, hm, x, _, rfl, hx, e, _, rfl, he, rfl⟩ := h
    · exact ⟨_, rfl, @Command.Written.pay w m x e none hw (by simp) hm hx he⟩
    · refine ⟨_, rfl, @Command.Written.pay w m x e (some id) hw ?_ hm hx he⟩
      intro t ht
      obtain rfl := Option.some.inj ht
      exact hid
  case probe =>
    obtain ⟨id, _, rfl, hid, ⟨e, _, rfl, he, rfl⟩ | ⟨n, _, rfl, hn, e, _, rfl, he, rfl⟩ |
      ⟨place, _, rfl, ⟨location, hplace⟩, e, _, rfl, he, rfl⟩⟩ := h
    · exact ⟨_, rfl, .probe hw hid he⟩
    · exact ⟨_, rfl, .probeOrbit hw hid hn he⟩
    · exact ⟨_, rfl, .probeSystem hw hid hplace he⟩
  case raid =>
    obtain ⟨id, _, rfl, hid, target, _, rfl, htarget, pct, _, rfl, hpct, m, _, rfl, hm, e, _, rfl,
      he, rfl⟩ := h
    exact ⟨_, rfl, .raid hw hid htarget hpct hm he⟩
  case ration =>
    obtain ⟨pct, _, rfl, hpct, e, _, rfl, he, rfl⟩ |
      ⟨id, _, rfl, hid, pct, _, rfl, hpct, e, _, rfl, he, rfl⟩ := h
    · exact ⟨_, rfl, @Command.Written.ration w pct e none hw (by simp) hpct he⟩
    · refine ⟨_, rfl, @Command.Written.ration w pct e (some id) hw ?_ hpct he⟩
      intro t ht
      obtain rfl := Option.some.inj ht
      exact hid
  case retool =>
    obtain ⟨id, _, rfl, hid, group, _, rfl, hgroup, m, _, rfl, hm, e, _, rfl, he, rfl⟩ := h
    exact ⟨_, rfl, .retool hw hid hgroup hm he⟩
  case sell =>
    obtain ⟨id, _, rfl, hid, ⟨m, _, rfl, hm, x, _, rfl, hx, e, _, rfl, he, rfl⟩ |
      ⟨m, _, rfl, hm, q, _, rfl, hq, x, _, rfl, hx, e, _, rfl, he, rfl⟩⟩ := h
    · exact ⟨_, rfl, .sellResearch hw hid hm hx he⟩
    · exact ⟨_, rfl, .sellProduct hw hid hm hq hx he⟩
  case support =>
    obtain ⟨id, _, rfl, hid, support, _, rfl, hsupport, ⟨pct, _, rfl, hpct, e, _, rfl, he, rfl⟩ |
      ⟨target, _, rfl, htarget, pct, _, rfl, hpct, e, _, rfl, he, rfl⟩⟩ := h
    · exact ⟨_, rfl, .supportDefend hw hid hsupport hpct he⟩
    · exact ⟨_, rfl, .supportAttack hw hid hsupport htarget hpct he⟩
  case survey =>
    obtain ⟨id, _, rfl, hid, e, _, rfl, he, rfl⟩ := h
    exact ⟨_, rfl, .survey hw hid he⟩
  case transfer =>
    obtain ⟨id, _, rfl, hid, q, _, rfl, hq, m, _, rfl, hm, target, _, rfl, htarget, e, _, rfl, he,
      rfl⟩ := h
    exact ⟨_, rfl, .transfer hw hid hq hm htarget he⟩

/-! ### What is written fits -/

section

variable {t : Token} {tree : Tree} {pattern : Pattern} {others : List Pattern} {back : List Tree}

/-- A tree that fits the first pattern may come before trees that fit the others. -/
theorem fits_cons (hfirst : pattern.Fits [tree]) (h : (sequence others).Fits back) :
    (sequence (pattern :: others)).Fits (tree :: back) :=
  ⟨[tree], back, hfirst, h, rfl⟩

theorem fits_kind {k : Token.Kind} (h : t.kind = k) : (kind k).Fits [leaf t] :=
  (fits_kind_iff _).mpr ⟨t, h, rfl⟩

theorem fits_word {w : String} (h : t.spells w = true) : (word w).Fits [leaf t] :=
  ⟨t, h, rfl⟩

theorem fits_anyOf {kinds : List Token.Kind} (h : kinds.contains t.kind = true) :
    (anyOf kinds).Fits [leaf t] :=
  ⟨t, h, rfl⟩

theorem fits_rule {name : String} {children : List Tree} (h : pattern.Fits children) :
    (rule name pattern).Fits [node name children] :=
  ⟨children, h, rfl⟩

theorem fits_coordinate {place : Tree} {location : Coordinates}
    (h : Coordinates.Written place location) : coordinate.Fits [place] :=
  fits_coordinate_iff.mpr ⟨place, location, rfl, h⟩

theorem fits_setupKind {founded : SetupKind} (h : t.spells founded.word = true) :
    (oneWord ["ship", "colony"]).Fits [leaf t] := by
  refine ⟨t, List.any_eq_true.mpr ⟨founded.word, ?_, h⟩, rfl⟩
  cases founded <;> simp [SetupKind.word]

/-- A token that may be left out. -/
theorem fits_optional_leaf {t? : Option Token} (hfirst : ∀ t ∈ t?, pattern.Fits [leaf t])
    (h : (sequence others).Fits back) :
    (sequence (optional pattern :: others)).Fits (t?.toList.map leaf ++ back) := by
  cases t? with
  | none => exact ⟨[], back, .inl rfl, h, rfl⟩
  | some t => exact ⟨[leaf t], back, .inr (hfirst t rfl), h, rfl⟩

end

theorem fits_details {stop : String} {details : List Tree} {items : List TransferItem}
    (h : List.Forall₂ TransferItem.Written details items) :
    (repeated transferDetail stop).Fits details := by
  have hbody (part : List Tree) (hpart : transferDetail.Fits part) : ∃ tree, part = [tree] := by
    obtain ⟨detail, item, rfl, -⟩ := fits_transferDetail_iff.mp hpart
    exact ⟨detail, rfl⟩
  rw [fits_repeated_iff hbody]
  induction h with
  | nil => simp
  | cons hitem _ ih =>
    exact List.forall_mem_cons.mpr ⟨fits_transferDetail_iff.mpr ⟨_, _, rfl, hitem⟩, ih⟩

/-- A command that is written out fits the rule of its keyword. -/
theorem fits_of_written {k : Keyword} {trees : List Tree} {command : Command}
    (hk : command.keyword? = some k) (h : command.Written trees) :
    (sequence (word k.word :: operands k)).Fits trees := by
  have hend {e : Token} (he : e.kind = .eol) : (sequence [kind .eol]).Fits [leaf e] :=
    fits_cons (fits_kind he) rfl
  cases h <;> obtain rfl := Option.some.inj hk
  case assemble hw hid hgroup hq hm he =>
    exact fits_cons (fits_word hw) <| fits_cons (fits_kind hid) <|
      fits_optional_leaf (fun g hg ↦ fits_anyOf (hgroup g hg)) <| fits_cons (fits_kind hq) <|
      fits_cons (fits_rule (fits_anyOf hm)) (hend he)
  case bombard hw hid htarget hpct he =>
    exact fits_cons (fits_word hw) <| fits_cons (fits_kind hid) <|
      fits_cons (fits_kind htarget) <| fits_cons (fits_kind hpct) (hend he)
  case buyResearch hw hid hm hx he =>
    exact fits_cons (fits_word hw) <| fits_cons (fits_kind hid) <|
      fits_cons (.inl (fits_kind hm)) <| fits_cons (fits_rule (fits_anyOf hx)) (hend he)
  case buyProduct hw hid hm hq hx he =>
    exact fits_cons (fits_word hw) <| fits_cons (fits_kind hid) <|
      fits_choice_cons_iff.mpr <| .inr <| fits_seq_cons_iff.mpr <| fits_cons (fits_kind hm) <|
      fits_cons (fits_kind hq) <| fits_cons (fits_rule (fits_anyOf hx)) (hend he)
  case disassemble hw hid hgroup hq hm he =>
    exact fits_cons (fits_word hw) <| fits_cons (fits_kind hid) <|
      fits_optional_leaf (fun g hg ↦ fits_anyOf (hgroup g hg)) <| fits_cons (fits_kind hq) <|
      fits_cons (fits_rule (fits_anyOf hm)) (hend he)
  case invade hw hid htarget hpct he =>
    exact fits_cons (fits_word hw) <| fits_cons (fits_kind hid) <|
      fits_cons (fits_kind htarget) <| fits_cons (fits_kind hpct) (hend he)
  case move hw hid hplace he =>
    exact fits_cons (fits_word hw) <| fits_cons (fits_kind hid) <|
      fits_cons (fits_coordinate hplace) (hend he)
  case name hw hid hs he =>
    exact fits_cons (fits_word hw) <| fits_cons (fits_kind hid) <|
      fits_cons (fits_kind hs) (hend he)
  case news hw hplace harticle hsignature he =>
    exact fits_cons (fits_word hw) <| fits_cons (fits_coordinate hplace) <|
      fits_cons (fits_kind harticle) <|
      fits_optional_leaf (fun s hs ↦ fits_kind (hsignature s hs)) (hend he)
  case pay hw hid hm hx he =>
    exact fits_cons (fits_word hw) <| fits_optional_leaf (fun t ht ↦ fits_kind (hid t ht)) <|
      fits_cons (fits_kind hm) <| fits_cons (fits_rule (fits_anyOf hx)) (hend he)
  case probe hw hid he =>
    exact fits_cons (fits_word hw) <| fits_cons (fits_kind hid) <|
      fits_optional_cons_iff.mpr (.inl (hend he))
  case probeOrbit hw hid hn he =>
    exact fits_cons (fits_word hw) <| fits_cons (fits_kind hid) <|
      fits_optional_cons_iff.mpr <| .inr <| fits_cons (.inl (fits_kind hn)) (hend he)
  case probeSystem hw hid hplace he =>
    exact fits_cons (fits_word hw) <| fits_cons (fits_kind hid) <|
      fits_optional_cons_iff.mpr <| .inr <| fits_cons (.inr (fits_coordinate hplace)) (hend he)
  case raid hw hid htarget hpct hm he =>
    exact fits_cons (fits_word hw) <| fits_cons (fits_kind hid) <|
      fits_cons (fits_kind htarget) <| fits_cons (fits_kind hpct) <|
      fits_cons (fits_rule (fits_anyOf hm)) (hend he)
  case ration hw hid hpct he =>
    exact fits_cons (fits_word hw) <| fits_optional_leaf (fun t ht ↦ fits_kind (hid t ht)) <|
      fits_cons (fits_kind hpct) (hend he)
  case retool hw hid hgroup hm he =>
    exact fits_cons (fits_word hw) <| fits_cons (fits_kind hid) <|
      fits_cons (fits_kind hgroup) <| fits_cons (fits_rule (fits_anyOf hm)) (hend he)
  case sellResearch hw hid hm hx he =>
    exact fits_cons (fits_word hw) <| fits_cons (fits_kind hid) <|
      fits_cons (.inl (fits_kind hm)) <| fits_cons (fits_rule (fits_anyOf hx)) (hend he)
  case sellProduct hw hid hm hq hx he =>
    exact fits_cons (fits_word hw) <| fits_cons (fits_kind hid) <|
      fits_choice_cons_iff.mpr <| .inr <| fits_seq_cons_iff.mpr <| fits_cons (fits_kind hm) <|
      fits_cons (fits_kind hq) <| fits_cons (fits_rule (fits_anyOf hx)) (hend he)
  case setup details _ hw hid hplace hs ht he hitems hlast he' =>
    exact fits_cons (fits_word hw) <| fits_cons (fits_kind hid) <|
      fits_cons (fits_coordinate hplace) <| fits_cons (fits_setupKind hs) <| fits_cons (fits_word ht) <|
      fits_cons (fits_kind he)
        ⟨details, _, fits_details hitems, fits_cons (fits_word hlast) (hend he'), rfl⟩
  case supportAttack hw hid hsupport htarget hpct he =>
    exact fits_cons (fits_word hw) <| fits_cons (fits_kind hid) <|
      fits_cons (fits_kind hsupport) <| fits_optional_cons_iff.mpr <| .inr <|
      fits_cons (fits_kind htarget) <| fits_cons (fits_kind hpct) (hend he)
  case supportDefend hw hid hsupport hpct he =>
    exact fits_cons (fits_word hw) <| fits_cons (fits_kind hid) <|
      fits_cons (fits_kind hsupport) <| fits_optional_cons_iff.mpr <| .inl <|
      fits_cons (fits_kind hpct) (hend he)
  case survey hw hid he =>
    exact fits_cons (fits_word hw) <| fits_cons (fits_kind hid) (hend he)
  case transfer hw hid hq hm htarget he =>
    exact fits_cons (fits_word hw) <| fits_cons (fits_kind hid) <| fits_cons (fits_kind hq) <|
      fits_cons (fits_rule (fits_anyOf hm)) <| fits_cons (fits_kind htarget) (hend he)

end Grammar

end OrderFile
