import OrderFile.Proofs.Order.Written
import OrderFile.Proofs.Token.Suited

/-!
The values of a command and the tokens that they come from. A command that is written out in tokens
of a text has the values that these tokens carry, one for each token that carries any and in the
same order: `readFrom_of_written`. What may be left out of a command is absent exactly if its token
is, and the only value without a token is the quantity of traded research.
-/

set_option autoImplicit false

namespace OrderFile

open OrderFile.Tree (leaf node tokensOf)

/-- Whether tokens of a kind carry a value of a command. -/
def Token.Kind.hasValue : Token.Kind → Bool
  | .integer | .percentage | .float | .quotedText | .population | .resource | .research | .product
  | .depositId | .factoryGroupId | .mineGroupId => true
  | .eof | .eol | .comma | .parenOpen | .parenClose | .comment | .spaces | .text => false

/-- The tokens right under a tree that are of one of the kinds. -/
def Tree.leaves (kinds : List Token.Kind) (tree : Tree) : List Token :=
  (tree.children.filterMap token?).filter (kinds.contains ·.kind)

/-- A value of a command, by the way in which it is written. -/
inductive Command.Value where
  | integer (n : Int64)
  | percentage (n : Int64)
  | group (group : GroupRef)
  | number (x : Float)
  | text (s : String)
  | material (m : Material)

/-- Whether a value is what a token carries. -/
def Command.Value.From (t : Token) : Command.Value → Prop
  | integer n => t.kind = .integer ∧ t.payload = .integer n
  | percentage n => t.kind = .percentage ∧ t.payload = .integer n
  | group (.deposit n) => t.kind = .depositId ∧ t.payload = .integer n
  | group (.factoryGroup n) => t.kind = .factoryGroupId ∧ t.payload = .integer n
  | group (.mineGroup n) => t.kind = .mineGroupId ∧ t.payload = .integer n
  | number x => Grammar.numberKinds.contains t.kind = true ∧ t.number? = some x
  | text s => t.kind = .quotedText ∧ t.payload = .text s
  | material m => Grammar.cargoKinds.contains t.kind = true ∧ t.payload = .material m

/-- The numbers of a place; orbit zero is not written. -/
def Coordinates.values (c : Coordinates) : List Command.Value :=
  [.integer c.x, .integer c.y, .integer c.z] ++ if c.hasOrbit then [.integer c.orbit] else []

/-- What comes before the material of a setup order's line, and the material. -/
def TransferItem.values (item : TransferItem) : List Command.Value :=
  [.integer item.quantity, .material item.material]

namespace Command

/-- A traded material and its quantity, which is not written for research. -/
def tradeValues (quantity : Int64) (material : Material) : List Value :=
  .material material :: if material.isResearch then [] else [.integer quantity]

/-- The values of a command in the order in which they are written. -/
def values : Command → List Value
  | assemble id group quantity material | disassemble id group quantity material =>
    .integer id :: (group.toList.map .group ++ [.integer quantity, .material material])
  | bombard id targetId pct | invade id targetId pct =>
    [.integer id, .integer targetId, .percentage pct]
  | buy id quantity material price | sell id quantity material price =>
    .integer id :: (tradeValues quantity material ++ [.number price])
  | move id location => .integer id :: location.values
  | name id text => [.integer id, .text text]
  | news location article signature =>
    location.values ++ .text article :: signature.toList.map .text
  | pay id profession rate =>
    id.toList.map .integer ++ [.material profession, .number rate]
  | probe id none => [.integer id]
  | probe id (some (.orbit n)) => [.integer id, .integer n]
  | probe id (some (.system location)) => .integer id :: location.values
  | raid id targetId pct material =>
    [.integer id, .integer targetId, .percentage pct, .material material]
  | ration id pct => id.toList.map .integer ++ [.percentage pct]
  | retool id factoryGroup material =>
    [.integer id, .group (.factoryGroup factoryGroup), .material material]
  | setup id location _ items => .integer id :: (location.values ++ items.flatMap (·.values))
  | supportAttack id supportId targetId pct =>
    [.integer id, .integer supportId, .integer targetId, .percentage pct]
  | supportDefend id supportId pct => [.integer id, .integer supportId, .percentage pct]
  | survey id => [.integer id]
  | transfer id quantity material targetId =>
    [.integer id, .integer quantity, .material material, .integer targetId]
  | unknown _ => []

/-- Whether a place is one under a rule, and has no orbit exactly if there is no fourth number. -/
def OrbitAgrees (rule : Tree) (location : Coordinates) : Prop :=
  ∃ place ∈ rule.children, place.isRule "coordinate" = true ∧
    (location.orbit = 0 ↔ (place.leaves [.integer]).length = 3)

/-- Whether trading research is what is written without a quantity, and then trades one unit. -/
def TradeAgrees (rule : Tree) (quantity : Int64) (material : Material) : Prop :=
  (material.isResearch = true ↔ (rule.leaves [.research]).length = 1) ∧
    (material.isResearch = true ↔ (rule.leaves [.integer]).length = 1) ∧
    (material.isResearch = true → quantity = 1)

/-- Whether all that may be left out of a command is absent exactly if its token is absent, and all
else that its tokens do not carry as a value is what they say. -/
def OptionsAgree (rule : Tree) : Command → Prop
  | assemble _ group _ _ | disassemble _ group _ _ =>
    group = none ↔ rule.leaves [.depositId, .factoryGroupId, .mineGroupId] = []
  | buy _ quantity material _ | sell _ quantity material _ => TradeAgrees rule quantity material
  | move _ location => OrbitAgrees rule location
  | news location _ signature =>
    OrbitAgrees rule location ∧ (signature = none ↔ (rule.leaves [.quotedText]).length = 1)
  | pay id _ _ | ration id _ => id = none ↔ rule.leaves [.integer] = []
  | probe _ target =>
    (target = none ↔ rule.tokens.length = 3) ∧ ∀ location, target = some (.system location) →
      OrbitAgrees rule location
  | setup _ location kind _ =>
    OrbitAgrees rule location ∧ ∃ t, rule.children[3]? = some (leaf t) ∧ t.spells kind.word = true
  | supportAttack .. => (rule.leaves [.integer]).length = 3
  | supportDefend .. => (rule.leaves [.integer]).length = 2
  | bombard .. | invade .. | name .. | raid .. | retool .. | survey .. | transfer .. => True
  | unknown _ => False

/-- A command with the values that the tokens of a tree carry. -/
structure ReadFrom (rule : Tree) (command : Command) : Prop where
  keyword : command.keyword?.map Keyword.word = rule.rule?
  values : List.Forall₂ Value.From (rule.tokens.filter (·.kind.hasValue)) command.values
  options : command.OptionsAgree rule

/-! ### What a token carries -/

section

variable {t : Token}

/-- An integer or a percentage of a text has its number for a value. -/
theorem integer?_of_suited (h : t.kind = .integer ∨ t.kind = .percentage) (hs : t.Suited) :
    t.payload = .integer t.intValue ∧ t.integer? = some t.intValue := by
  have hpayload : ∃ n, t.payload = .integer n := by
    rcases h with h | h <;>
    · rw [Token.Suited, h] at hs
      exact hs
  obtain ⟨n, hn⟩ := hpayload
  rw [Token.intValue, Token.integer?, hn]
  exact ⟨rfl, rfl⟩

/-- The token of an integer gives an integer. -/
theorem from_integer (h : t.kind = .integer) (hs : t.Suited) :
    Value.From t (.integer t.intValue) :=
  ⟨h, (integer?_of_suited (.inl h) hs).1⟩

theorem from_percentage (h : t.kind = .percentage) (hs : t.Suited) :
    Value.From t (.percentage t.intValue) :=
  ⟨h, (integer?_of_suited (.inr h) hs).1⟩

/-- A quoted text has its text for a value. -/
theorem text?_of_suited (h : t.kind = .quotedText) (hs : t.Suited) :
    t.payload = .text t.textValue ∧ t.text? = some t.textValue := by
  rw [Token.Suited, h] at hs
  obtain ⟨s, hs⟩ := hs
  rw [Token.textValue, Token.text?, hs]
  exact ⟨rfl, rfl⟩

theorem from_text (h : t.kind = .quotedText) (hs : t.Suited) : Value.From t (.text t.textValue) :=
  ⟨h, (text?_of_suited h hs).1⟩

theorem from_number (h : Grammar.numberKinds.contains t.kind = true) (hs : t.Suited) :
    Value.From t (.number t.numberValue) := by
  refine ⟨h, ?_⟩
  have hkind : t.kind = .float ∨ t.kind = .integer := by simpa [Grammar.numberKinds] using h
  rcases hkind with hkind | hkind <;>
  · rw [Token.Suited, hkind] at hs
    obtain ⟨n, hn⟩ := hs
    rw [Token.numberValue, Token.number?, hn]
    rfl

/-- A token of a kind for cargo gives a material. -/
theorem from_material (h : Grammar.cargoKinds.contains t.kind = true) (hs : t.Suited) :
    Value.From t (.material (materialOf t)) := by
  have hpayload : ∃ m, t.payload = .material m := by
    have hkind : t.kind = .population ∨ t.kind = .product ∨ t.kind = .research ∨
        t.kind = .resource := by simpa [Grammar.cargoKinds] using h
    rcases hkind with hkind | hkind | hkind | hkind <;> rw [Token.Suited, hkind] at hs
    · obtain ⟨name, -, hm⟩ := hs
      exact ⟨_, hm⟩
    · obtain ⟨name, -, level, hm⟩ := hs
      exact ⟨_, hm⟩
    · obtain ⟨level, hm⟩ := hs
      exact ⟨_, hm⟩
    · obtain ⟨name, -, hm⟩ := hs
      exact ⟨_, hm⟩
  obtain ⟨m, hm⟩ := hpayload
  refine ⟨h, ?_⟩
  rw [materialOf, Token.material?, hm]
  rfl

/-- A token of a kind for groups gives the group that is read from it. -/
theorem from_group {kinds : List Token.Kind}
    (hkinds : kinds ⊆ [.depositId, .factoryGroupId, .mineGroupId])
    (h : kinds.contains t.kind = true) (hs : t.Suited) :
    ∃ group, groupOf? t = some group ∧ Value.From t (.group group) := by
  have hmem := hkinds (List.contains_iff_mem.mp h)
  simp only [List.mem_cons, List.not_mem_nil, or_false] at hmem
  rcases hmem with hkind | hkind | hkind <;> rw [Token.Suited, hkind] at hs <;>
  · obtain ⟨n, -, hn⟩ := hs
    simp [groupOf?, Token.integer?, hn, hkind, Value.From]

/-- Every token of a kind for groups is read as a group. -/
theorem isSome_groupOf? {kinds : List Token.Kind}
    (hkinds : kinds ⊆ [.depositId, .factoryGroupId, .mineGroupId])
    (h : kinds.contains t.kind = true) (hs : t.Suited) : (groupOf? t).isSome = true := by
  obtain ⟨group, hgroup, -⟩ := from_group hkinds h hs
  exact Option.isSome_of_eq_some hgroup

/-- A token for research is the one material that is research. -/
theorem isResearch_of_research (h : t.kind = .research) (hs : t.Suited) :
    (materialOf t).isResearch = true := by
  rw [Token.Suited, h] at hs
  obtain ⟨level, hm⟩ := hs
  rw [materialOf, Token.material?, hm]
  rfl

theorem isResearch_of_product (h : t.kind = .product) (hs : t.Suited) :
    (materialOf t).isResearch = false := by
  rw [Token.Suited, h] at hs
  obtain ⟨name, hname, level, hm⟩ := hs
  have hother : ∀ name ∈ Vocabulary.products.map (·.2), (name == Material.research) = false := by
    decide +kernel
  rw [materialOf, Token.material?, hm]
  exact hother name hname

end

/-! ### What trees carry -/

/-- Whether values are what the tokens of trees carry, one for each token that carries any. -/
def Carries (trees : List Tree) (values : List Value) : Prop :=
  List.Forall₂ Value.From ((tokensOf trees).filter (·.kind.hasValue)) values

namespace Carries

variable {t : Token} {trees : List Tree} {values : List Value}

theorem nil : Carries [] [] :=
  List.Forall₂.nil

/-- A token that carries no value. -/
theorem mark (hk : t.kind.hasValue = false) (h : Carries trees values) :
    Carries (leaf t :: trees) values := by
  rw [Carries, Tree.tokensOf_cons, Tree.tokens_leaf, List.singleton_append,
    List.filter_cons_of_neg (by simp [hk])]
  exact h

/-- A token with a value and the values after it. -/
theorem value {v : Value} (hv : Value.From t v) (h : Carries trees values) :
    Carries (leaf t :: trees) (v :: values) := by
  have hkind : t.kind.hasValue = true := by
    cases v with
    | group group => cases group <;> rw [hv.1] <;> rfl
    | number x =>
      have hnumber : t.kind = .float ∨ t.kind = .integer := by
        simpa [Grammar.numberKinds] using hv.1
      rcases hnumber with hk | hk <;> rw [hk] <;> rfl
    | material m =>
      have hcargo : t.kind = .population ∨ t.kind = .product ∨ t.kind = .research ∨
          t.kind = .resource := by simpa [Grammar.cargoKinds] using hv.1
      rcases hcargo with hk | hk | hk | hk <;> rw [hk] <;> rfl
    | integer n | percentage n | text s => rw [hv.1]; rfl
  rw [Carries, Tree.tokensOf_cons, Tree.tokens_leaf, List.singleton_append,
    List.filter_cons, if_pos hkind]
  exact .cons hv h

/-- Trees one after the other carry their values one after the other. -/
theorem append {others : List Tree} {more : List Value} (h : Carries trees values)
    (hothers : Carries others more) : Carries (trees ++ others) (values ++ more) := by
  rw [Carries, Tree.tokensOf_append, List.filter_append]
  exact List.rel_append h hothers

/-- A node carries what its children carry. -/
theorem node {name : String} {children : List Tree} {own : List Value} (hown : Carries children own)
    (h : Carries trees values) : Carries (node name children :: trees) (own ++ values) := by
  rw [Carries, Tree.tokensOf_cons, Tree.tokens_node, List.filter_append]
  exact List.rel_append hown h

end Carries

/-- A word that is asked for by its spelling carries no value. -/
theorem hasValue_of_spells {t : Token} {w : String} (h : t.spells w = true) :
    t.kind.hasValue = false := by
  rw [Token.kind_of_spells h]
  rfl

theorem hasValue_of_eol {t : Token} (h : t.kind = .eol) : t.kind.hasValue = false := by
  rw [h]
  rfl

end Command

open Command (Carries)

theorem Coordinates.ne_zero_of_orbit {n : Int64} (h : 1 ≤ n) : n ≠ 0 := by
  rintro rfl
  exact absurd h (by decide)

/-- A place carries its numbers, the orbit among them if it has one. -/
theorem Coordinates.carries_of_written {place : Tree} {c : Coordinates} (h : Written place c)
    (hs : ∀ t ∈ place.tokens, t.Suited) {trees : List Tree} {values : List Command.Value}
    (hrest : Carries trees values) : Carries (place :: trees) (c.values ++ values) := by
  cases h with
  | system ho hx hc hy hd hz hp =>
    simp only [Tree.tokens_node, Tree.tokensOf_cons, Tree.tokens_leaf, List.singleton_append,
      List.forall_mem_cons] at hs
    obtain ⟨-, hsx, -, hsy, -, hsz, -⟩ := hs
    refine .node ?_ hrest
    exact .mark (by rw [ho]; rfl) <| .value (Command.from_integer hx hsx) <|
      .mark (by rw [hc]; rfl) <| .value (Command.from_integer hy hsy) <|
      .mark (by rw [hd]; rfl) <| .value (Command.from_integer hz hsz) <|
      .mark (by rw [hp]; rfl) .nil
  | @orbit o x _ y _ z e n p ho hx hc hy hd hz he hn hlow hhigh hp =>
    simp only [Tree.tokens_node, Tree.tokensOf_cons, Tree.tokens_leaf, List.singleton_append,
      List.forall_mem_cons] at hs
    obtain ⟨-, hsx, -, hsy, -, hsz, -, hsn, -⟩ := hs
    have horbit : hasOrbit ⟨x.intValue, y.intValue, z.intValue, n.intValue⟩ = true :=
      bne_iff_ne.mpr (ne_zero_of_orbit hlow)
    rw [Coordinates.values, if_pos horbit]
    refine .node ?_ hrest
    exact .mark (by rw [ho]; rfl) <| .value (Command.from_integer hx hsx) <|
      .mark (by rw [hc]; rfl) <| .value (Command.from_integer hy hsy) <|
      .mark (by rw [hd]; rfl) <| .value (Command.from_integer hz hsz) <|
      .mark (by rw [he]; rfl) <| .value (Command.from_integer hn hsn) <|
      .mark (by rw [hp]; rfl) .nil

/-- The lines of a transfer carry the values of its items, in order. -/
theorem TransferItem.carries_of_written {details : List Tree} {items : List TransferItem}
    (h : List.Forall₂ Written details items) (hs : ∀ t ∈ tokensOf details, t.Suited) :
    Carries details (items.flatMap (·.values)) := by
  induction h with
  | nil => exact .nil
  | @cons detail item details items hitem _ ih =>
    cases hitem with
    | detail hq hm he =>
      simp only [Tree.tokensOf_cons, Tree.tokens_node, Tree.tokens_leaf, Tree.tokensOf_nil,
        List.append_nil, List.cons_append, List.nil_append, List.forall_mem_cons] at hs
      obtain ⟨hsq, hsm, -, hothers⟩ := hs
      refine .node ?_ (ih hothers)
      exact .value (Command.from_integer hq hsq) <|
        .node (.value (Command.from_material hm hsm) .nil) <| .mark (Command.hasValue_of_eol he) .nil

namespace Command

theorem cargo_of_material {t : Token} (h : Grammar.materialKinds.contains t.kind = true) :
    Grammar.cargoKinds.contains t.kind = true := by
  have hkind : t.kind = .product ∨ t.kind = .research := by simpa [Grammar.materialKinds] using h
  rcases hkind with hkind | hkind <;> simp [Grammar.cargoKinds, hkind]

theorem from_factoryGroup {t : Token} (h : t.kind = .factoryGroupId) (hs : t.Suited) :
    Value.From t (.group (.factoryGroup t.intValue)) := by
  rw [Token.Suited, h] at hs
  obtain ⟨n, -, hn⟩ := hs
  exact ⟨h, by rw [Token.intValue, Token.integer?, hn]; rfl⟩

/-! ### Parts of commands that may be left out -/

/-- A group that may be left out carries its value if it is there. -/
theorem carries_group {kinds : List Token.Kind} {group : Option Token}
    (hkinds : kinds ⊆ [.depositId, .factoryGroupId, .mineGroupId])
    (h : ∀ g ∈ group, kinds.contains g.kind = true)
    (hs : ∀ t ∈ tokensOf (group.toList.map leaf), t.Suited) :
    Carries (group.toList.map leaf) ((group.bind groupOf?).toList.map .group) := by
  cases group with
  | none => exact .nil
  | some g =>
    obtain ⟨value, hvalue, hfrom⟩ := from_group hkinds (h g rfl) (hs g (by simp))
    rw [Option.bind_some, hvalue]
    exact .value hfrom .nil

theorem carries_optionalId {id : Option Token} (h : ∀ t ∈ id, t.kind = .integer)
    (hs : ∀ t ∈ tokensOf (id.toList.map leaf), t.Suited) :
    Carries (id.toList.map leaf) ((id.bind Token.integer?).toList.map .integer) := by
  cases id with
  | none => exact .nil
  | some t =>
    have hst := hs t (by simp)
    rw [Option.bind_some, (integer?_of_suited (.inl (h t rfl)) hst).2]
    exact .value (from_integer (h t rfl) hst) .nil

theorem carries_signature {signature : Option Token} (h : ∀ t ∈ signature, t.kind = .quotedText)
    (hs : ∀ t ∈ tokensOf (signature.toList.map leaf), t.Suited) :
    Carries (signature.toList.map leaf) ((signature.bind Token.text?).toList.map .text) := by
  cases signature with
  | none => exact .nil
  | some t =>
    have hst := hs t (by simp)
    rw [Option.bind_some, (text?_of_suited (h t rfl) hst).2]
    exact .value (from_text (h t rfl) hst) .nil

/-- Research is traded without a quantity, and the one that is read has no token. -/
theorem carries_research {m : Token} (h : m.kind = .research) (hs : m.Suited) :
    Carries [leaf m] (tradeValues 1 (materialOf m)) := by
  rw [tradeValues, if_pos (isResearch_of_research h hs)]
  exact .value (from_material (by simp [h, Grammar.cargoKinds]) hs) .nil

/-- Any other product is traded with the quantity of its own token. -/
theorem carries_product {m q : Token} (h : m.kind = .product) (hs : m.Suited)
    (hq : q.kind = .integer) (hsq : q.Suited) :
    Carries [leaf m, leaf q] (tradeValues q.intValue (materialOf m)) := by
  rw [tradeValues, if_neg (by simp [isResearch_of_product h hs])]
  exact .value (from_material (by simp [h, Grammar.cargoKinds]) hs) <|
    .value (from_integer hq hsq) .nil

/-! ### Whole commands -/

/-- The values of a command are what its tokens carry. -/
theorem carries_of_written {children : List Tree} {command : Command}
    (h : command.Written children) (hs : ∀ t ∈ tokensOf children, t.Suited) :
    Carries children command.values := by
  cases h
  all_goals
    simp only [Tree.tokensOf_cons, Tree.tokensOf_append, Tree.tokens_node, Tree.tokens_leaf,
      Tree.tokensOf_nil, List.append_nil, List.cons_append, List.nil_append,
      List.forall_mem_append, List.forall_mem_cons] at hs
  case assemble w id q m e group hw hid hgroup hq hm he =>
    obtain ⟨-, hsid, hsgroup, hsq, hsm, -⟩ := hs
    refine .mark (hasValue_of_spells hw) <| .value (from_integer hid hsid) <| .append ?_ <|
      .value (from_integer hq hsq) <| .node (.value (from_material ?_ hsm) .nil) <|
      .mark (hasValue_of_eol he) .nil
    · exact carries_group (by simp) hgroup hsgroup
    · exact cargo_of_material hm
  case bombard w id target pct e hw hid htarget hpct he =>
    obtain ⟨-, hsid, hstarget, hspct, -⟩ := hs
    exact .mark (hasValue_of_spells hw) <| .value (from_integer hid hsid) <|
      .value (from_integer htarget hstarget) <| .value (from_percentage hpct hspct) <|
      .mark (hasValue_of_eol he) .nil
  case buyResearch w id m x e hw hid hm hx he =>
    obtain ⟨-, hsid, hsm, hsx, -⟩ := hs
    exact .mark (hasValue_of_spells hw) <| .value (from_integer hid hsid) <|
      .append (carries_research hm hsm) <| .node (.value (from_number hx hsx) .nil) <|
      .mark (hasValue_of_eol he) .nil
  case buyProduct w id m q x e hw hid hm hq hx he =>
    obtain ⟨-, hsid, hsm, hsq, hsx, -⟩ := hs
    exact .mark (hasValue_of_spells hw) <| .value (from_integer hid hsid) <|
      .append (carries_product hm hsm hq hsq) <| .node (.value (from_number hx hsx) .nil) <|
      .mark (hasValue_of_eol he) .nil
  case disassemble w id q m e group hw hid hgroup hq hm he =>
    obtain ⟨-, hsid, hsgroup, hsq, hsm, -⟩ := hs
    refine .mark (hasValue_of_spells hw) <| .value (from_integer hid hsid) <| .append ?_ <|
      .value (from_integer hq hsq) <| .node (.value (from_material ?_ hsm) .nil) <|
      .mark (hasValue_of_eol he) .nil
    · exact carries_group (by simp) hgroup hsgroup
    · exact cargo_of_material hm
  case invade w id target pct e hw hid htarget hpct he =>
    obtain ⟨-, hsid, hstarget, hspct, -⟩ := hs
    exact .mark (hasValue_of_spells hw) <| .value (from_integer hid hsid) <|
      .value (from_integer htarget hstarget) <| .value (from_percentage hpct hspct) <|
      .mark (hasValue_of_eol he) .nil
  case move w id e place location hw hid hplace he =>
    obtain ⟨-, hsid, hsplace, -⟩ := hs
    refine .mark (hasValue_of_spells hw) <| .value (from_integer hid hsid) ?_
    rw [← List.append_nil location.values]
    exact Coordinates.carries_of_written hplace hsplace (.mark (hasValue_of_eol he) .nil)
  case name w id s e hw hid htext he =>
    obtain ⟨-, hsid, hstext, -⟩ := hs
    exact .mark (hasValue_of_spells hw) <| .value (from_integer hid hsid) <|
      .value (from_text htext hstext) <| .mark (hasValue_of_eol he) .nil
  case news w article e place location signature hw hplace harticle hsignature he =>
    obtain ⟨-, hsplace, hsarticle, hssignature, -⟩ := hs
    refine .mark (hasValue_of_spells hw) <| Coordinates.carries_of_written hplace hsplace <|
      .value (from_text harticle hsarticle) ?_
    rw [← List.append_nil (List.map Value.text _)]
    exact (carries_signature hsignature hssignature).append (.mark (hasValue_of_eol he) .nil)
  case pay w m x e id hw hid hm hx he =>
    obtain ⟨-, hsid, hsm, hsx, -⟩ := hs
    have hcargo : Grammar.cargoKinds.contains m.kind = true := by simp [hm, Grammar.cargoKinds]
    exact .mark (hasValue_of_spells hw) <| .append (carries_optionalId hid hsid) <|
      .value (from_material hcargo hsm) <| .node (.value (from_number hx hsx) .nil) <|
      .mark (hasValue_of_eol he) .nil
  case probe w id e hw hid he =>
    exact .mark (hasValue_of_spells hw) <| .value (from_integer hid hs.2.1) <|
      .mark (hasValue_of_eol he) .nil
  case probeOrbit w id n e hw hid hn he =>
    obtain ⟨-, hsid, hsn, -⟩ := hs
    exact .mark (hasValue_of_spells hw) <| .value (from_integer hid hsid) <|
      .value (from_integer hn hsn) <| .mark (hasValue_of_eol he) .nil
  case probeSystem w id e place location hw hid hplace he =>
    obtain ⟨-, hsid, hsplace, -⟩ := hs
    refine .mark (hasValue_of_spells hw) <| .value (from_integer hid hsid) ?_
    rw [← List.append_nil location.values]
    exact Coordinates.carries_of_written hplace hsplace (.mark (hasValue_of_eol he) .nil)
  case raid w id target pct m e hw hid htarget hpct hm he =>
    obtain ⟨-, hsid, hstarget, hspct, hsm, -⟩ := hs
    exact .mark (hasValue_of_spells hw) <| .value (from_integer hid hsid) <|
      .value (from_integer htarget hstarget) <| .value (from_percentage hpct hspct) <|
      .node (.value (from_material hm hsm) .nil) <| .mark (hasValue_of_eol he) .nil
  case ration w pct e id hw hid hpct he =>
    obtain ⟨-, hsid, hspct, -⟩ := hs
    exact .mark (hasValue_of_spells hw) <| .append (carries_optionalId hid hsid) <|
      .value (from_percentage hpct hspct) <| .mark (hasValue_of_eol he) .nil
  case retool w id group m e hw hid hgroup hm he =>
    obtain ⟨-, hsid, hsgroup, hsm, -⟩ := hs
    exact .mark (hasValue_of_spells hw) <| .value (from_integer hid hsid) <|
      .value (from_factoryGroup hgroup hsgroup) <|
      .node (.value (from_material (cargo_of_material hm) hsm) .nil) <|
      .mark (hasValue_of_eol he) .nil
  case sellResearch w id m x e hw hid hm hx he =>
    obtain ⟨-, hsid, hsm, hsx, -⟩ := hs
    exact .mark (hasValue_of_spells hw) <| .value (from_integer hid hsid) <|
      .append (carries_research hm hsm) <| .node (.value (from_number hx hsx) .nil) <|
      .mark (hasValue_of_eol he) .nil
  case sellProduct w id m q x e hw hid hm hq hx he =>
    obtain ⟨-, hsid, hsm, hsq, hsx, -⟩ := hs
    exact .mark (hasValue_of_spells hw) <| .value (from_integer hid hsid) <|
      .append (carries_product hm hsm hq hsq) <| .node (.value (from_number hx hsx) .nil) <|
      .mark (hasValue_of_eol he) .nil
  case setup w id s t e last e' place location kind details items hw hid hplace hkind ht he hitems
      hlast he' =>
    obtain ⟨-, hsid, hsplace, -, -, -, hsdetails, -⟩ := hs
    refine .mark (hasValue_of_spells hw) <| .value (from_integer hid hsid) <|
      Coordinates.carries_of_written hplace hsplace <| .mark (hasValue_of_spells hkind) <|
      .mark (hasValue_of_spells ht) <| .mark (hasValue_of_eol he) ?_
    rw [← List.append_nil (List.flatMap _ _)]
    exact (TransferItem.carries_of_written hitems hsdetails).append <|
      .mark (hasValue_of_spells hlast) <| .mark (hasValue_of_eol he') .nil
  case supportAttack w id support target pct e hw hid hsupport htarget hpct he =>
    obtain ⟨-, hsid, hssupport, hstarget, hspct, -⟩ := hs
    exact .mark (hasValue_of_spells hw) <| .value (from_integer hid hsid) <|
      .value (from_integer hsupport hssupport) <| .value (from_integer htarget hstarget) <|
      .value (from_percentage hpct hspct) <| .mark (hasValue_of_eol he) .nil
  case supportDefend w id support pct e hw hid hsupport hpct he =>
    obtain ⟨-, hsid, hssupport, hspct, -⟩ := hs
    exact .mark (hasValue_of_spells hw) <| .value (from_integer hid hsid) <|
      .value (from_integer hsupport hssupport) <| .value (from_percentage hpct hspct) <|
      .mark (hasValue_of_eol he) .nil
  case survey w id e hw hid he =>
    exact .mark (hasValue_of_spells hw) <| .value (from_integer hid hs.2.1) <|
      .mark (hasValue_of_eol he) .nil
  case transfer w id q m target e hw hid hq hm htarget he =>
    obtain ⟨-, hsid, hsq, hsm, hstarget, -⟩ := hs
    exact .mark (hasValue_of_spells hw) <| .value (from_integer hid hsid) <|
      .value (from_integer hq hsq) <| .node (.value (from_material hm hsm) .nil) <|
      .value (from_integer htarget hstarget) <| .mark (hasValue_of_eol he) .nil

/-! ### What may be left out -/

section

variable {name : String} {kinds : List Token.Kind} {t : Token} {children : List Tree}

theorem leaves_nil : (node name []).leaves kinds = [] := rfl

/-- A token counts among the leaves of a node if its kind is one of those asked for. -/
theorem leaves_leaf :
    (node name (leaf t :: children)).leaves kinds =
      (if kinds.contains t.kind then [t] else []) ++ (node name children).leaves kinds := by
  rw [Tree.leaves, Tree.leaves, Tree.children, Tree.children,
    List.filterMap_cons_some (show Tree.token? (leaf t) = some t from rfl), List.filter_cons]
  split <;> rfl

theorem leaves_node {rule : String} {inner : List Tree} :
    (node name (node rule inner :: children)).leaves kinds = (node name children).leaves kinds :=
  rfl

theorem leaves_append {others : List Tree} :
    (node name (children ++ others)).leaves kinds =
      (node name children).leaves kinds ++ (node name others).leaves kinds := by
  rw [Tree.leaves, Tree.leaves, Tree.leaves, Tree.children, Tree.children, Tree.children,
    List.filterMap_append, List.filter_append]

end

/-- What is written of an optional token. -/
theorem leaves_optional {name : String} {kinds : List Token.Kind} {t? : Option Token}
    (h : ∀ t ∈ t?, kinds.contains t.kind = true) :
    (node name (t?.toList.map leaf)).leaves kinds = t?.toList := by
  cases t? with
  | none => rfl
  | some t =>
    rw [Option.toList_some, List.map_singleton, leaves_leaf, if_pos (h t rfl), leaves_nil]
    rfl

/-- An optional token that can be read is absent exactly if its value is. -/
theorem bind_eq_none_iff {α : Type} {read : Token → Option α} {t? : Option Token}
    (h : ∀ t ∈ t?, (read t).isSome = true) : t?.bind read = none ↔ t?.toList = [] := by
  cases t? with
  | none => exact iff_of_true rfl rfl
  | some t =>
    obtain ⟨a, ha⟩ := Option.isSome_iff_exists.mp (h t rfl)
    rw [Option.bind_some, ha]
    exact iff_of_false (by simp) (by simp)

/-- A place that is written out has an orbit exactly if its tree has the token of one. -/
theorem orbitAgrees_of_written {rule place : Tree} {location : Coordinates}
    (h : Coordinates.Written place location) (hplace : place ∈ rule.children) :
    OrbitAgrees rule location := by
  refine ⟨place, hplace, ?_⟩
  cases h with
  | system ho hx hc hy hd hz hp =>
    simp [Tree.isRule, Tree.rule?, leaves_leaf, leaves_nil, Coordinates.system, *]
  | orbit ho hx hc hy hd hz he hn hlow hhigh hp =>
    have hne := Coordinates.ne_zero_of_orbit hlow
    simp [Tree.isRule, Tree.rule?, leaves_leaf, leaves_nil, *]

/-- A place is a node, so that none of its tokens stands right under the rule of a command. -/
theorem leaves_place {name : String} {kinds : List Token.Kind} {place : Tree}
    {location : Coordinates} {children : List Tree} (h : Coordinates.Written place location) :
    (node name (place :: children)).leaves kinds = (node name children).leaves kinds := by
  cases h <;> exact leaves_node

theorem tokens_ne_nil_of_place {place : Tree} {location : Coordinates}
    (h : Coordinates.Written place location) : place.tokens ≠ [] := by
  cases h <;> simp

/-- Research that is traded has the quantity one, and no token for it. -/
theorem tradeAgrees_of_research {name : String} {w id m x e : Token}
    (hw : w.kind = .text) (hid : id.kind = .integer) (hm : m.kind = .research)
    (hsm : m.Suited) (he : e.kind = .eol) :
    TradeAgrees (node name [leaf w, leaf id, leaf m, node "number" [leaf x], leaf e]) 1
      (materialOf m) := by
  simp [TradeAgrees, leaves_leaf, leaves_node, leaves_nil, hw, hid, hm, he,
    isResearch_of_research hm hsm]

/-- A product that is traded has the quantity of its token. -/
theorem tradeAgrees_of_product {name : String} {w id m q x e : Token}
    (hw : w.kind = .text) (hid : id.kind = .integer) (hm : m.kind = .product)
    (hsm : m.Suited) (hq : q.kind = .integer) (he : e.kind = .eol) :
    TradeAgrees (node name [leaf w, leaf id, leaf m, leaf q, node "number" [leaf x], leaf e])
      q.intValue (materialOf m) := by
  simp [TradeAgrees, leaves_leaf, leaves_node, leaves_nil, hw, hid, hm, hq, he,
    isResearch_of_product hm hsm]

/-- What may be left out of a command is absent exactly if its token is. -/
theorem optionsAgree_of_written {k : Keyword} {children : List Tree} {command : Command}
    (h : command.Written children) (hs : ∀ t ∈ tokensOf children, t.Suited) :
    command.OptionsAgree (node k.word children) := by
  cases h
  case assemble w id q m e group hw hid hgroup hq hm he =>
    have hsome : ∀ g ∈ group, (groupOf? g).isSome = true := fun g hg ↦
      isSome_groupOf? (by simp) (hgroup g hg) (hs g (by simp [Option.mem_def.mp hg]))
    simp only [OptionsAgree, leaves_leaf, leaves_append, leaves_node, leaves_nil,
      leaves_optional hgroup, Token.kind_of_spells hw, hid, hq, he]
    simpa using bind_eq_none_iff hsome
  case disassemble w id q m e group hw hid hgroup hq hm he =>
    have hsome : ∀ g ∈ group, (groupOf? g).isSome = true := fun g hg ↦
      isSome_groupOf? (by simp) (hgroup g hg) (hs g (by simp [Option.mem_def.mp hg]))
    have hkinds : ∀ g ∈ group,
        [Token.Kind.depositId, .factoryGroupId, .mineGroupId].contains g.kind = true :=
      fun g hg ↦ List.contains_iff_mem.mpr <|
        List.mem_cons_of_mem _ <| List.contains_iff_mem.mp (hgroup g hg)
    simp only [OptionsAgree, leaves_leaf, leaves_append, leaves_node, leaves_nil,
      leaves_optional hkinds, Token.kind_of_spells hw, hid, hq, he]
    simpa using bind_eq_none_iff hsome
  case buyResearch w id m x e hw hid hm hx he | sellResearch w id m x e hw hid hm hx he =>
    exact tradeAgrees_of_research (Token.kind_of_spells hw) hid hm (hs m (by simp)) he
  case buyProduct w id m q x e hw hid hm hq hx he | sellProduct w id m q x e hw hid hm hq hx he =>
    exact tradeAgrees_of_product (Token.kind_of_spells hw) hid hm (hs m (by simp)) hq he
  case move w id e place location hw hid hplace he =>
    exact orbitAgrees_of_written hplace (by simp [Tree.children])
  case news w article e place location signature hw hplace harticle hsignature he =>
    have hsome : ∀ t ∈ signature, t.text?.isSome = true := fun t ht ↦
      Option.isSome_of_eq_some <|
        (text?_of_suited (hsignature t ht) (hs t (by simp [Option.mem_def.mp ht]))).2
    have hkinds : ∀ t ∈ signature, [Token.Kind.quotedText].contains t.kind = true := fun t ht ↦ by
      simp [hsignature t ht]
    refine ⟨orbitAgrees_of_written hplace (by simp [Tree.children]), ?_⟩
    simp only [leaves_leaf, leaves_append, leaves_place hplace, leaves_nil,
      leaves_optional hkinds, Token.kind_of_spells hw, harticle, he]
    simpa using bind_eq_none_iff hsome
  case pay w m x e id hw hid hm hx he =>
    have hsome : ∀ t ∈ id, t.integer?.isSome = true := fun t ht ↦
      Option.isSome_of_eq_some <|
        (integer?_of_suited (.inl (hid t ht)) (hs t (by simp [Option.mem_def.mp ht]))).2
    have hkinds : ∀ t ∈ id, [Token.Kind.integer].contains t.kind = true := fun t ht ↦ by
      simp [hid t ht]
    simp only [OptionsAgree, leaves_leaf, leaves_append, leaves_node, leaves_nil,
      leaves_optional hkinds, Token.kind_of_spells hw, hm, he]
    simpa using bind_eq_none_iff hsome
  case ration w pct e id hw hid hpct he =>
    have hsome : ∀ t ∈ id, t.integer?.isSome = true := fun t ht ↦
      Option.isSome_of_eq_some <|
        (integer?_of_suited (.inl (hid t ht)) (hs t (by simp [Option.mem_def.mp ht]))).2
    have hkinds : ∀ t ∈ id, [Token.Kind.integer].contains t.kind = true := fun t ht ↦ by
      simp [hid t ht]
    simp only [OptionsAgree, leaves_leaf, leaves_append, leaves_nil,
      leaves_optional hkinds, Token.kind_of_spells hw, hpct, he]
    simpa using bind_eq_none_iff hsome
  case probe w id e hw hid he => simp [OptionsAgree]
  case probeOrbit w id n e hw hid hn he => simp [OptionsAgree]
  case probeSystem w id e place location hw hid hplace he =>
    have hlength := List.length_pos_of_ne_nil (tokens_ne_nil_of_place hplace)
    refine ⟨?_, ?_⟩
    · simp only [Tree.tokens_node, Tree.tokensOf_cons, Tree.tokens_leaf, Tree.tokensOf_nil,
        List.length_append, List.length_singleton, List.length_nil]
      exact iff_of_false (by simp) (by omega)
    · intro _ htarget
      cases htarget
      exact orbitAgrees_of_written hplace (by simp [Tree.children])
  case setup w id s t e last e' place location kind details items hw hid hplace hkind ht he hitems
      hlast he' =>
    exact ⟨orbitAgrees_of_written hplace (by simp [Tree.children]), s, rfl, hkind⟩
  case supportAttack w id support target pct e hw hid hsupport htarget hpct he =>
    simp [OptionsAgree, leaves_leaf, leaves_nil, Token.kind_of_spells hw, hid, hsupport, htarget,
      hpct, he]
  case supportDefend w id support pct e hw hid hsupport hpct he =>
    simp [OptionsAgree, leaves_leaf, leaves_nil, Token.kind_of_spells hw, hid, hsupport, hpct, he]
  all_goals exact trivial

/-- A command has the values that its tokens carry. -/
theorem readFrom_of_written {k : Keyword} {children : List Tree} {command : Command}
    (h : command.Written children) (hk : command.keyword? = some k)
    (hs : ∀ t ∈ tokensOf children, t.Suited) : command.ReadFrom (node k.word children) where
  keyword := by rw [hk]; rfl
  values := carries_of_written h hs
  options := optionsAgree_of_written h hs

end Command

end OrderFile
