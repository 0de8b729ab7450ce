import OrderFile.Proofs.Order.Layout

/-!
What any tree comes to, whether it is one of a file or not. Each child of the root is a line end, or
one order, or one complaint about a node that is no order, and an `order` node is an order exactly
if it starts with the rule of a keyword: `allOfTree_outcomes`.
-/

set_option autoImplicit false

namespace OrderFile

open OrderFile.Tree (Read Tells isToken leaf node)
open OrderFile.Tree.Read

namespace Keyword

/-- Keywords are in lower case. -/
theorem lowercase_word (k : Keyword) : lowercase k.word = k.word := by
  cases k <;> decide +kernel

/-- A word spells the keyword that its lowercase form is. -/
theorem ofWord?_eq_some_iff {word : String} {k : Keyword} :
    ofWord? word = some k ↔ lowercase word = k.word := by
  constructor
  · intro h
    rw [ofWord?] at h
    have hfound := List.find?_some h
    rw [← sameWord_iff.mp hfound, lowercase_word]
  · intro h
    rw [← lowercase_word] at h
    have hword : ofWord? word = ofWord? k.word := by simp only [ofWord?, sameWord, h]
    rw [hword, ofWord?_word]

end Keyword

/-- Whether a place is a star system or one of its orbits. -/
def Coordinates.Exists (place : Coordinates) : Prop :=
  0 ≤ place.orbit ∧ place.orbit ≤ maxOrbit

/-- The places that a command names. -/
def Command.places : Command → List Coordinates
  | move _ location | news location _ _ | probe _ (some (.system location))
  | setup _ location _ _ => [location]
  | _ => []

/-! ### Values of readings -/

/-- Whether the value of a reading has a property, whatever is read. -/
def Tree.Gives {α : Type} (body : Read α) (property : α → Prop) : Prop :=
  ∀ r, property (body.run r).1

namespace Tree.Read

variable {α β : Type} {body : Read α} {next : α → Read β} {p : α → Prop} {q : β → Prop}

theorem gives_pure {a : α} (h : p a) : Gives (pure a : Read α) p :=
  fun _ ↦ h

/-- What is read in two steps has what the second step gives, whatever the first one gave. -/
theorem gives_bind (h : Gives body p) (hnext : ∀ a, p a → Gives (next a) q) :
    Gives (body >>= next) q := by
  intro r
  rw [run_bind]
  exact hnext _ (h r) _

/-- A reading whose value does not matter, and another one. -/
theorem gives_next (hnext : ∀ a, Gives (next a) q) : Gives (body >>= next) q := by
  intro r
  rw [run_bind]
  exact hnext _ _

/-- What is read in a rule has what the body gives, if the rule is there. -/
theorem gives_nested? {rule : String} (h : Gives body p) :
    Gives (nested? rule body) fun a? ↦ ∀ a ∈ a?, p a := by
  refine gives_next fun tree? ↦ ?_
  cases tree? with
  | none => exact gives_pure fun _ hnone ↦ absurd hnone (Option.not_mem_none _)
  | some tree =>
    intro r a ha
    obtain rfl := Option.some.inj ha
    exact h _

end Tree.Read

namespace Command

open OrderFile.Tree (Gives)

theorem exists_system (x y z : Int64) : (Coordinates.system x y z).Exists :=
  ⟨Int64.le_refl 0, (by decide : (0 : Int64) ≤ maxOrbit)⟩

/-- A place exists if it is taken without an orbit that is out of range. -/
theorem exists_checked (x y z orbit : Int64) :
    ((Coordinates.checked x y z orbit).toOption.getD (.system x y z)).Exists := by
  rw [Coordinates.checked]
  split
  · next hrange => exact hrange
  · exact exists_system x y z

/-- Every place that is read exists. -/
theorem gives_location : Gives location Coordinates.Exists := by
  refine gives_bind (@gives_nested? _ _ Coordinates.Exists _ ?_) fun place? hplace ↦ gives_pure ?_
  · refine gives_next fun _ ↦ gives_next fun x ↦ gives_next fun _ ↦ gives_next fun y ↦
      gives_next fun _ ↦ gives_next fun z ↦ gives_next fun comma? ↦ ?_
    cases comma? <;>
    exact gives_next fun orbit ↦ gives_next fun _ ↦ gives_pure (exists_checked x y z orbit)
  · cases place? with
    | none => exact exists_system 0 0 0
    | some place => exact hplace place rfl

/-- Whether a command is one of a keyword and all places in it exist. -/
def Answers (k : Keyword) (command : Command) : Prop :=
  command.keyword? = some k ∧ ∀ place ∈ command.places, place.Exists

theorem answers_of_no_places {k : Keyword} {command : Command} (hk : command.keyword? = some k)
    (h : command.places = []) : command.Answers k :=
  ⟨hk, by rw [h]; exact List.forall_mem_nil _⟩

/-- A command with one place answers its keyword if the place exists. -/
theorem answers_of_place {k : Keyword} {command : Command} {place : Coordinates}
    (hk : command.keyword? = some k) (h : command.places = [place]) (hplace : place.Exists) :
    command.Answers k :=
  ⟨hk, by rw [h]; exact List.forall_mem_singleton.mpr hplace⟩

/-- Every place that a probe is sent to exists. -/
theorem gives_probeTarget? :
    Gives probeTarget? fun target? ↦ ∀ place, target? = some (.system place) → place.Exists := by
  refine gives_next fun tree? ↦ ?_
  have hnone : Gives (pure none : Read (Option ProbeTarget))
      fun target? ↦ ∀ place, target? = some (.system place) → place.Exists :=
    gives_pure fun _ h ↦ nomatch h
  cases tree? with
  | none => exact hnone
  | some tree =>
    cases tree with
    | leaf t =>
      dsimp only
      split
      · exact gives_next fun _ ↦ gives_pure fun _ h ↦ nomatch h
      · exact hnone
    | node name children =>
      dsimp only
      split
      · refine gives_bind gives_location fun location hlocation ↦ gives_pure fun place h ↦ ?_
        cases h
        exact hlocation
      · exact hnone

/-- The operands of a keyword give a command that answers it. -/
theorem gives_operands (k : Keyword) : Gives (operands k) (Answers k) := by
  cases k with
  | assemble | disassemble | raid | transfer =>
    exact gives_next fun _ ↦ gives_next fun _ ↦ gives_next fun _ ↦ gives_next fun _ ↦
      gives_pure (answers_of_no_places rfl rfl)
  | bombard | buy | invade | pay | retool | sell =>
    exact gives_next fun _ ↦ gives_next fun _ ↦ gives_next fun _ ↦
      gives_pure (answers_of_no_places rfl rfl)
  | name | ration =>
    exact gives_next fun _ ↦ gives_next fun _ ↦ gives_pure (answers_of_no_places rfl rfl)
  | survey => exact gives_next fun _ ↦ gives_pure (answers_of_no_places rfl rfl)
  | support =>
    refine gives_next fun _ ↦ gives_next fun _ ↦ gives_next fun kind? ↦ ?_
    split
    · exact gives_next fun _ ↦ gives_next fun _ ↦ gives_pure (answers_of_no_places rfl rfl)
    · exact gives_next fun _ ↦ gives_pure (answers_of_no_places rfl rfl)
  | move =>
    exact gives_next fun _ ↦ gives_bind gives_location fun _ hplace ↦
      gives_pure (answers_of_place rfl rfl hplace)
  | news =>
    exact gives_bind gives_location fun _ hplace ↦ gives_next fun _ ↦ gives_next fun _ ↦
      gives_pure (answers_of_place rfl rfl hplace)
  | probe =>
    refine gives_next fun _ ↦ gives_bind gives_probeTarget? fun target? htarget ↦ gives_pure ?_
    match target?, htarget with
    | none, _ | some (.orbit _), _ => exact answers_of_no_places rfl rfl
    | some (.system place), htarget => exact answers_of_place rfl rfl (htarget place rfl)
  | setup =>
    exact gives_next fun _ ↦ gives_bind gives_location fun _ hplace ↦ gives_next fun _ ↦
      gives_next fun _ ↦ gives_next fun _ ↦ gives_next fun _ ↦ gives_next fun _ ↦
        gives_pure (answers_of_place rfl rfl hplace)

/-- The reading of a keyword gives a command that answers it, whatever tree it is given. -/
theorem answers_read (k : Keyword) (r : Tree.Reader) : (((read k).run r).1.1).Answers k := by
  have hread : Gives (read k) fun result ↦ result.1.Answers k :=
    gives_next fun _ ↦ gives_bind (gives_operands k) fun _ hcommand ↦ gives_next fun _ ↦
      gives_next fun _ ↦ gives_pure hcommand
  exact hread r

end Command

namespace Order

/-! ### Order nodes -/

/-- The order that the rule of a keyword comes to. -/
def ofRule (k : Keyword) (rule : Tree) : Order :=
  let line := rule.line?.getD 0
  let (command, errors) := ((Command.read k).run (rule.reader line)).1
  ⟨line, errors, command⟩

theorem answers_ofRule (k : Keyword) (rule : Tree) : (ofRule k rule).command.Answers k :=
  Command.answers_read k _

/-- The errors of an order tell of the nodes that were left before their end. -/
theorem tells_ofRule (k : Keyword) (rule : Tree) :
    Tells (ofRule k rule).line ((Command.layout k).visitsOf rule) (ofRule k rule).errors :=
  Command.tells_read k rule _

/-- Whether a node starts with the rule of a keyword, in any case. -/
def StartsWith (tree : Tree) (k : Keyword) (rule : Tree) : Prop :=
  ∃ name children others, tree.children = rule :: others ∧ rule = node name children ∧
    lowercase name = k.word

/-- A node that starts with the rule of a keyword is an order of it. -/
theorem ofTree_of_startsWith {tree rule : Tree} {k : Keyword} (h : StartsWith tree k rule) :
    ofTree tree = .ok (ofRule k rule) := by
  obtain ⟨name, children, others, htree, rfl, hk⟩ := h
  have hname : (node name children).rule?.bind Keyword.ofWord? = some k :=
    Keyword.ofWord?_eq_some_iff.mpr hk
  simp only [ofTree, htree, List.head?_cons, hname]
  rfl

/-- A node that does not start with the rule of a keyword is a complaint. -/
theorem ofTree_cases (tree : Tree) :
    (∃ k rule, StartsWith tree k rule) ∨ ∃ found, ofTree tree = .error (unexpected found) := by
  cases htree : tree.children with
  | nil => exact .inr ⟨tree, by simp only [ofTree, htree, List.head?_nil]⟩
  | cons rule others =>
    cases hname : rule.rule?.bind Keyword.ofWord? with
    | none => exact .inr ⟨rule, by simp only [ofTree, htree, List.head?_cons, hname]⟩
    | some k =>
      cases rule with
      | leaf => cases hname
      | node name children =>
        have hk : Keyword.ofWord? name = some k := hname
        exact .inl ⟨k, _, name, children, others, htree, rfl, Keyword.ofWord?_eq_some_iff.mp hk⟩

/-- A tree is an order exactly if it starts with the rule of a keyword. -/
theorem ofTree_eq_ok_iff {tree : Tree} {order : Order} :
    ofTree tree = .ok order ↔ ∃ k rule, StartsWith tree k rule ∧ order = ofRule k rule := by
  constructor
  · intro h
    obtain ⟨k, rule, hstart⟩ | ⟨found, herror⟩ := ofTree_cases tree
    · rw [ofTree_of_startsWith hstart] at h
      exact ⟨k, rule, hstart, (Except.ok.inj h).symm⟩
    · rw [herror] at h
      cases h
  · rintro ⟨k, rule, hstart, rfl⟩
    exact ofTree_of_startsWith hstart

/-! ### Children of the root -/

/-- What a child of the root that is no line end may come to. -/
inductive ComesTo : Tree → Except Complaint Order → Prop
  | order {tree : Tree} {order : Order} (htree : tree.isRule "order" = true)
      (horder : ofTree tree = .ok order) : ComesTo tree (.ok order)
  | keywordless {tree found : Tree} (htree : tree.isRule "order" = true)
      (herror : ofTree tree = .error (unexpected found)) :
      ComesTo tree (.error ⟨found.line?.getD 0, .unexpectedNode found.describe⟩)
  | unknown {tree : Tree} (htree : tree.isRule "unknown" = true) :
      ComesTo tree (.ok ⟨tree.line?.getD 0, [], .unknown (unknownText tree)⟩)
  | unexpected {tree : Tree} (horder : tree.isRule "order" = false)
      (hunknown : tree.isRule "unknown" = false) :
      ComesTo tree (.error ⟨tree.line?.getD 0, .unexpectedNode tree.describe⟩)

/-- A child is a line end and comes to nothing, or it comes to an order or a complaint. -/
theorem ofChild_cases (tree : Tree) :
    isToken [.eol, .eof] tree = true ∧ ofChild tree = none ∨
      isToken [.eol, .eof] tree = false ∧ ∃ outcome, ofChild tree = some outcome ∧
        ComesTo tree outcome := by
  cases tree with
  | leaf t =>
    by_cases hend : t.kind = .eol ∨ t.kind = .eof
    · exact .inl ⟨by simpa [isToken, Tree.token?] using hend, if_pos hend⟩
    · exact .inr ⟨by simpa [isToken, Tree.token?] using hend, _, if_neg hend, .unexpected rfl rfl⟩
  | node name children =>
    have hrule (other : String) : (node name children).isRule other = true ↔ name = other := by
      simp [Tree.isRule, Tree.rule?]
    refine .inr ⟨rfl, ?_⟩
    by_cases horder : name = "order"
    · have htree := (hrule "order").mpr horder
      refine ⟨_, if_pos horder, ?_⟩
      obtain ⟨k, rule, hstart⟩ | ⟨found, herror⟩ := ofTree_cases (node name children)
      · rw [ofTree_of_startsWith hstart]
        exact .order htree (ofTree_of_startsWith hstart)
      · rw [herror]
        exact .keywordless htree herror
    · by_cases hunknown : name = "unknown"
      · exact ⟨_, (if_neg horder).trans (if_pos hunknown), .unknown ((hrule _).mpr hunknown)⟩
      · refine ⟨_, (if_neg horder).trans (if_neg hunknown), .unexpected ?_ ?_⟩
        · exact Bool.not_eq_true _ ▸ mt (hrule _).mp horder
        · exact Bool.not_eq_true _ ▸ mt (hrule _).mp hunknown

/-- Children that are no line ends come to one outcome each, in order. -/
theorem outcomes_of_children (trees : List Tree) :
    List.Forall₂ ComesTo (trees.filter (!isToken [.eol, .eof] ·)) (trees.filterMap ofChild) := by
  induction trees with
  | nil => exact .nil
  | cons tree trees ih =>
    obtain ⟨hend, hnone⟩ | ⟨hend, outcome, hsome, hcomes⟩ := ofChild_cases tree
    · rw [List.filter_cons_of_neg (by simp [hend]), List.filterMap_cons_none hnone]
      exact ih
    · rw [List.filter_cons_of_pos (by simp [hend]), List.filterMap_cons_some hsome]
      exact .cons hcomes ih

/-- A survey whose keyword is in capitals, with a word for its number and a child too many. -/
def straySurvey : Tree :=
  node "SURVEY" [leaf ⟨2, .text, "Survey", .text "Survey"⟩, leaf ⟨3, .text, "five", .text "five"⟩,
    leaf ⟨3, .eol, "\n", .none⟩, leaf ⟨4, .integer, "9", .integer 9⟩]

theorem startsWith_straySurvey : StartsWith (node "order" [straySurvey]) .survey straySurvey :=
  ⟨_, _, _, rfl, rfl, by decide +kernel⟩

end Order

end OrderFile
