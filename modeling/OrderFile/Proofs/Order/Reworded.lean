import OrderFile.Proofs.Order.Parts
import OrderFile.Proofs.Parse.Reworded

/-!
Orders of tokens that are told in other words. A change of tokens that keeps all values but the
quoted texts turns the tree of a file into one with the same orders, on lines that may be moved and
with free texts in other words: `written_map`, `part_map`, `allOfTree_map`.
-/

set_option autoImplicit false

namespace OrderFile

open OrderFile.Tree (leaf node)

/-- A change of tokens that moves their lines, tells their quoted texts in other words and keeps
all else that orders are read from. -/
structure Token.Retells (f : Token → Token) (said : String → String) (moved : UInt32 → UInt32) :
    Prop extends Token.Rewords f where
  line (t : Token) : (f t).line = moved t.line
  number? (t : Token) : (f t).number? = t.number?
  material (t : Token) : t.kind ≠ .quotedText → Command.materialOf (f t) = Command.materialOf t
  text? (t : Token) : t.kind = .quotedText → (f t).text? = t.text?.map said
  said_empty : said "" = ""

/-- The command with its free texts told in other words. -/
def Command.mapText (said : String → String) : Command → Command
  | name id text => name id (said text)
  | news location article signature => news location (said article) (signature.map said)
  | unknown text => unknown (said text)
  | command => command

/-- The complaint on another line. -/
def Complaint.move (moved : UInt32 → UInt32) (c : Complaint) : Complaint :=
  { c with line := moved c.line }

/-- The order on another line, with its free texts told in other words. -/
def Order.retell (said : String → String) (moved : UInt32 → UInt32) (order : Order) : Order :=
  ⟨moved order.line, order.errors.map (Complaint.move moved), order.command.mapText said⟩

variable {f : Token → Token} {said : String → String} {moved : UInt32 → UInt32}

namespace Token.Retells

variable {t : Token} (hf : Retells f said moved)

include hf

theorem kind_eq {k : Kind} (h : t.kind = k) : (f t).kind = k :=
  (hf.kind t).trans h

theorem contains {kinds : List Kind} (h : kinds.contains t.kind = true) :
    kinds.contains (f t).kind = true := by
  rwa [hf.kind]

theorem spells_of {word : String} (h : t.spells word = true) : (f t).spells word = true :=
  (hf.spells t word).trans h

theorem intValue (t : Token) : (f t).intValue = t.intValue := by
  rw [Token.intValue, Token.intValue, hf.integer?]

theorem numberValue (t : Token) : (f t).numberValue = t.numberValue := by
  rw [Token.numberValue, Token.numberValue, hf.number?]

/-- A change that retells tokens tells quoted texts in other words. -/
theorem textValue (h : t.kind = .quotedText) : (f t).textValue = said t.textValue := by
  rw [Token.textValue, Token.textValue, hf.text? t h]
  cases t.text? with
  | none => exact hf.said_empty.symm
  | some s => rfl

theorem groupOf? (t : Token) : Command.groupOf? (f t) = Command.groupOf? t := by
  rw [Command.groupOf?, Command.groupOf?, hf.integer?, hf.kind]

theorem material_of_kind {k : Kind} (h : t.kind = k) (hk : k ≠ .quotedText) :
    Command.materialOf (f t) = Command.materialOf t :=
  hf.material t (h ▸ hk)

/-- A change that retells tokens keeps materials, which no quoted text carries. -/
theorem material_of_contains {kinds : List Kind} (h : kinds.contains t.kind = true)
    (hkinds : kinds.contains .quotedText = false) :
    Command.materialOf (f t) = Command.materialOf t := by
  refine hf.material t fun hquoted ↦ ?_
  rw [hquoted, hkinds] at h
  cases h

end Token.Retells

section

variable (hf : Token.Retells f said moved)

include hf

/-- A place stays the place that it was. -/
theorem Coordinates.written_map {place : Tree} {c : Coordinates} (h : Written place c) :
    Written (place.map f) c := by
  cases h with
  | system ho hx hc hy hd hz hp =>
    have hplace := Written.system (hf.kind_eq ho) (hf.kind_eq hx) (hf.kind_eq hc) (hf.kind_eq hy)
      (hf.kind_eq hd) (hf.kind_eq hz) (hf.kind_eq hp)
    rw [hf.intValue, hf.intValue, hf.intValue] at hplace
    simpa using hplace
  | orbit ho hx hc hy hd hz he hn hlow hhigh hp =>
    rw [← hf.intValue] at hlow hhigh
    have hplace := Written.orbit (hf.kind_eq ho) (hf.kind_eq hx) (hf.kind_eq hc) (hf.kind_eq hy)
      (hf.kind_eq hd) (hf.kind_eq hz) (hf.kind_eq he) (hf.kind_eq hn) hlow hhigh (hf.kind_eq hp)
    simp only [hf.intValue] at hplace
    simpa using hplace

/-- An item of a transfer stays the item that it was. -/
theorem TransferItem.written_map {detail : Tree} {item : TransferItem} (h : Written detail item) :
    Written (detail.map f) item := by
  cases h with
  | detail hq hm he =>
    have hdetail := Written.detail (hf.kind_eq hq) (hf.contains hm) (hf.kind_eq he)
    rw [hf.intValue, hf.material_of_contains hm (by decide)] at hdetail
    simpa using hdetail

theorem TransferItem.forall₂_written_map {details : List Tree} {items : List TransferItem}
    (h : List.Forall₂ Written details items) :
    List.Forall₂ Written (details.map (Tree.map f)) items := by
  rw [List.forall₂_map_left_iff]
  exact h.imp fun _ _ ↦ written_map hf

namespace Command

omit hf in
theorem optional_leaf_map (t? : Option Token) :
    t?.toList.map (Tree.map f ∘ leaf) = (t?.map f).toList.map leaf := by
  cases t? <;> rfl

omit hf in
/-- What a change keeps of tokens it keeps of those that may be left out. -/
theorem bind_map {α : Type} {read : Token → Option α} (hread : ∀ t, read (f t) = read t)
    (t? : Option Token) : (t?.map f).bind read = t?.bind read := by
  cases t? with
  | none => rfl
  | some t => exact hread t

theorem forall_kind_map {t? : Option Token} {k : Token.Kind} (h : ∀ t ∈ t?, t.kind = k) :
    ∀ t ∈ t?.map f, t.kind = k := by
  intro t ht
  obtain ⟨s, hs, rfl⟩ := Option.map_eq_some_iff.mp ht
  exact hf.kind_eq (h s hs)

theorem forall_contains_map {t? : Option Token} {kinds : List Token.Kind}
    (h : ∀ t ∈ t?, kinds.contains t.kind = true) :
    ∀ t ∈ t?.map f, kinds.contains t.kind = true := by
  intro t ht
  obtain ⟨s, hs, rfl⟩ := Option.map_eq_some_iff.mp ht
  exact hf.contains (h s hs)

theorem bind_text?_map {t? : Option Token} (h : ∀ t ∈ t?, t.kind = .quotedText) :
    (t?.map f).bind Token.text? = (t?.bind Token.text?).map said := by
  cases t? with
  | none => rfl
  | some t => exact hf.text? t (h t rfl)

/-- A command told in other words is the same command, but for its free texts. -/
theorem written_map {children : List Tree} {command : Command} (h : command.Written children) :
    (command.mapText said).Written (children.map (Tree.map f)) := by
  have hkind {t : Token} {k : Token.Kind} (ht : t.kind = k) := hf.kind_eq ht
  have hkinds {t : Token} {kinds : List Token.Kind} (ht : kinds.contains t.kind = true) :=
    hf.contains ht
  cases h
  case assemble hw hid hgroup hq hm he =>
    have hwritten := Written.assemble (hf.spells_of hw) (hkind hid)
      (forall_contains_map hf hgroup) (hkind hq) (hkinds hm) (hkind he)
    simp only [hf.intValue, bind_map hf.groupOf?, hf.material_of_contains hm (by decide)]
      at hwritten
    simpa [optional_leaf_map, mapText] using hwritten
  case bombard hw hid htarget hpct he =>
    have hwritten := Written.bombard (hf.spells_of hw) (hkind hid) (hkind htarget) (hkind hpct)
      (hkind he)
    simp only [hf.intValue] at hwritten
    simpa [mapText] using hwritten
  case buyResearch hw hid hm hx he =>
    have hwritten := Written.buyResearch (hf.spells_of hw) (hkind hid) (hkind hm) (hkinds hx)
      (hkind he)
    simp only [hf.intValue, hf.numberValue, hf.material_of_kind hm (by decide)] at hwritten
    simpa [mapText] using hwritten
  case buyProduct hw hid hm hq hx he =>
    have hwritten := Written.buyProduct (hf.spells_of hw) (hkind hid) (hkind hm) (hkind hq)
      (hkinds hx) (hkind he)
    simp only [hf.intValue, hf.numberValue, hf.material_of_kind hm (by decide)] at hwritten
    simpa [mapText] using hwritten
  case disassemble hw hid hgroup hq hm he =>
    have hwritten := Written.disassemble (hf.spells_of hw) (hkind hid)
      (forall_contains_map hf hgroup) (hkind hq) (hkinds hm) (hkind he)
    simp only [hf.intValue, bind_map hf.groupOf?, hf.material_of_contains hm (by decide)]
      at hwritten
    simpa [optional_leaf_map, mapText] using hwritten
  case invade hw hid htarget hpct he =>
    have hwritten := Written.invade (hf.spells_of hw) (hkind hid) (hkind htarget) (hkind hpct)
      (hkind he)
    simp only [hf.intValue] at hwritten
    simpa [mapText] using hwritten
  case move hw hid hplace he =>
    have hwritten := Written.move (hf.spells_of hw) (hkind hid)
      (Coordinates.written_map hf hplace) (hkind he)
    simp only [hf.intValue] at hwritten
    simpa [mapText] using hwritten
  case name hw hid hs he =>
    have hwritten := Written.name (hf.spells_of hw) (hkind hid) (hkind hs) (hkind he)
    simp only [hf.intValue, hf.textValue hs] at hwritten
    simpa [mapText] using hwritten
  case news hw hplace harticle hsignature he =>
    have hwritten := Written.news (hf.spells_of hw) (Coordinates.written_map hf hplace)
      (hkind harticle) (forall_kind_map hf hsignature) (hkind he)
    simp only [hf.textValue harticle, bind_text?_map hf hsignature] at hwritten
    simpa [optional_leaf_map, mapText] using hwritten
  case pay hw hid hm hx he =>
    have hwritten := Written.pay (hf.spells_of hw) (forall_kind_map hf hid)
      (hkind hm) (hkinds hx) (hkind he)
    simp only [bind_map hf.integer?, hf.numberValue, hf.material_of_kind hm (by decide)]
      at hwritten
    simpa [optional_leaf_map, mapText] using hwritten
  case probe hw hid he =>
    have hwritten := Written.probe (hf.spells_of hw) (hkind hid) (hkind he)
    simp only [hf.intValue] at hwritten
    simpa [mapText] using hwritten
  case probeOrbit hw hid hn he =>
    have hwritten := Written.probeOrbit (hf.spells_of hw) (hkind hid) (hkind hn) (hkind he)
    simp only [hf.intValue] at hwritten
    simpa [mapText] using hwritten
  case probeSystem hw hid hplace he =>
    have hwritten := Written.probeSystem (hf.spells_of hw) (hkind hid)
      (Coordinates.written_map hf hplace) (hkind he)
    simp only [hf.intValue] at hwritten
    simpa [mapText] using hwritten
  case raid hw hid htarget hpct hm he =>
    have hwritten := Written.raid (hf.spells_of hw) (hkind hid) (hkind htarget) (hkind hpct)
      (hkinds hm) (hkind he)
    simp only [hf.intValue, hf.material_of_contains hm (by decide)] at hwritten
    simpa [mapText] using hwritten
  case ration hw hid hpct he =>
    have hwritten := Written.ration (hf.spells_of hw) (forall_kind_map hf hid)
      (hkind hpct) (hkind he)
    simp only [bind_map hf.integer?, hf.intValue] at hwritten
    simpa [optional_leaf_map, mapText] using hwritten
  case retool hw hid hgroup hm he =>
    have hwritten := Written.retool (hf.spells_of hw) (hkind hid) (hkind hgroup) (hkinds hm)
      (hkind he)
    simp only [hf.intValue, hf.material_of_contains hm (by decide)] at hwritten
    simpa [mapText] using hwritten
  case sellResearch hw hid hm hx he =>
    have hwritten := Written.sellResearch (hf.spells_of hw) (hkind hid) (hkind hm) (hkinds hx)
      (hkind he)
    simp only [hf.intValue, hf.numberValue, hf.material_of_kind hm (by decide)] at hwritten
    simpa [mapText] using hwritten
  case sellProduct hw hid hm hq hx he =>
    have hwritten := Written.sellProduct (hf.spells_of hw) (hkind hid) (hkind hm) (hkind hq)
      (hkinds hx) (hkind he)
    simp only [hf.intValue, hf.numberValue, hf.material_of_kind hm (by decide)] at hwritten
    simpa [mapText] using hwritten
  case setup hw hid hplace hs ht he hitems hlast he' =>
    have hwritten := Written.setup (hf.spells_of hw) (hkind hid)
      (Coordinates.written_map hf hplace) (hf.spells_of hs) (hf.spells_of ht) (hkind he)
      (TransferItem.forall₂_written_map hf hitems) (hf.spells_of hlast) (hkind he')
    simp only [hf.intValue] at hwritten
    simpa [mapText] using hwritten
  case supportAttack hw hid hsupport htarget hpct he =>
    have hwritten := Written.supportAttack (hf.spells_of hw) (hkind hid) (hkind hsupport)
      (hkind htarget) (hkind hpct) (hkind he)
    simp only [hf.intValue] at hwritten
    simpa [mapText] using hwritten
  case supportDefend hw hid hsupport hpct he =>
    have hwritten := Written.supportDefend (hf.spells_of hw) (hkind hid) (hkind hsupport)
      (hkind hpct) (hkind he)
    simp only [hf.intValue] at hwritten
    simpa [mapText] using hwritten
  case survey hw hid he =>
    have hwritten := Written.survey (hf.spells_of hw) (hkind hid) (hkind he)
    simp only [hf.intValue] at hwritten
    simpa [mapText] using hwritten
  case transfer hw hid hq hm htarget he =>
    have hwritten := Written.transfer (hf.spells_of hw) (hkind hid) (hkind hq) (hkinds hm)
      (hkind htarget) (hkind he)
    simp only [hf.intValue, hf.material_of_contains hm (by decide)] at hwritten
    simpa [mapText] using hwritten

omit hf in
/-- What is wrong with a command is the same on another line, whatever its free texts are. -/
theorem complaints_mapText (line : UInt32) (command : Command) :
    (command.mapText said).complaints (moved line) =
      (command.complaints line).map (Complaint.move moved) := by
  have hbounds (bounds : List Bound) : Bound.complaints (moved line) bounds =
      (Bound.complaints line bounds).map (Complaint.move moved) := by
    rw [Bound.complaints, Bound.complaints, List.map_map]
    rfl
  have hsame : (command.mapText said).bounds = command.bounds := by
    cases command <;> rfl
  have hrate : (command.mapText said).rateComplaints (moved line) =
      (command.rateComplaints line).map (Complaint.move moved) := by
    cases command with
    | pay id profession rate =>
      rw [mapText, rateComplaints, rateComplaints]
      · split
        · exact hbounds _
        · rfl
      all_goals simp
    | _ => rfl
  rw [complaints, complaints, List.map_append, hsame, hbounds, hrate]

omit hf in
/-- Other words make no other keyword. -/
theorem keyword?_mapText (command : Command) :
    (command.mapText said).keyword? = command.keyword? := by
  cases command <;> rfl

end Command

namespace Order

/-- The text of a line that is no order is told in the other words of its tokens. -/
theorem unknownText_map (tree : Tree) :
    unknownText (tree.map f) = String.intercalate " "
      (((tree.tokens.filter (·.kind != .eol)).map f).map (·.lexeme)) := by
  have hkinds : ((·.kind != .eol) ∘ f : Token → Bool) = (·.kind != .eol) :=
    funext fun t ↦ congrArg (· != Token.Kind.eol) (hf.kind t)
  rw [unknownText, Tree.tokens_map, List.filter_map, hkinds]

/-- A part of a file that is told in other words comes to the same order in other words, if the
text that is kept of a line that is no order is. -/
theorem part_map {part : Tree} {order? : Option Order} (h : Part part order?)
    (htext : part.isRule "unknown" = true → unknownText (part.map f) = said (unknownText part)) :
    Part (part.map f) (order?.map (retell said moved)) := by
  cases h with
  | @command k w trees command hk hwritten _ =>
    have hmapped := Command.written_map hf hwritten
    rw [List.map_cons, Tree.map_leaf] at hmapped
    have hkeyword := (@Command.keyword?_mapText said command).trans hk
    rw [Tree.map_node, List.map_singleton, Tree.map_node, List.map_cons, Tree.map_leaf,
      Option.map_some, retell, ← Command.complaints_mapText, ← hf.line]
    exact .command hkeyword hmapped ⟨_, Grammar.fits_of_written hkeyword hmapped, rfl⟩
  | blank he => exact .blank (hf.kind_eq he)
  | @unknown t e ts hts he =>
    have hmapped : ∀ s ∈ f t :: ts.map f, s.kind ≠ .eol ∧ s.kind ≠ .eof := by
      rw [← List.map_cons, List.forall_mem_map]
      simpa only [hf.kind] using hts
    have hpart := Part.unknown hmapped (e := f e) (hf.kind_eq he)
    have htree : (node "unknown" ((t :: ts).map leaf ++ [leaf e])).map f =
        node "unknown" ((f t :: ts.map f).map leaf ++ [leaf (f e)]) := by
      simp
    have hsaid := htext rfl
    rw [htree, unknownText_line hmapped (hf.kind_eq he), unknownText_line hts he] at hsaid
    rw [hsaid, hf.line] at hpart
    rw [htree]
    exact hpart

/-- Parts of a file come to their orders, retold. -/
theorem parts_map {parts : List Tree} {orders? : List (Option Order)}
    (h : List.Forall₂ Part parts orders?)
    (htext : ∀ part ∈ parts, part.isRule "unknown" = true →
      unknownText (part.map f) = said (unknownText part)) :
    List.Forall₂ Part (parts.map (Tree.map f)) (orders?.map (Option.map (retell said moved))) := by
  induction h with
  | nil => exact .nil
  | cons hpart _ ih =>
    obtain ⟨hfirst, hothers⟩ := List.forall_mem_cons.mp htext
    exact .cons (part_map hf hpart hfirst) (ih hothers)

/-- The orders of the tree of a file that is told in other words are the orders of the tree in other
words. -/
theorem allOfTree_map {stop : Bool} {ts : List Token} {tree : Tree}
    (h : Grammar.fileTree? stop ts = some tree)
    (htext : ∀ part ∈ tree.children, part.isRule "unknown" = true →
      unknownText (part.map f) = said (unknownText part)) :
    (allOfTree (tree.map f)).1 = (allOfTree tree).1.map (retell said moved) ∧
      (allOfTree (tree.map f)).2 = (allOfTree tree).2.map (Complaint.move moved) := by
  obtain ⟨parts, orders?, t, rfl, hparts, ht⟩ := Grammar.parts_of_fileTree? h
  have hmapped := parts_map hf hparts fun part hpart ↦
    htext part (List.mem_append_left [leaf t] hpart)
  rw [Tree.map_node, List.map_append, List.map_singleton, Tree.map_leaf,
    allOfTree_of_parts hmapped (hf.kind_eq ht), allOfTree_of_parts hparts ht]
  have horders : (orders?.map (Option.map (retell said moved))).reduceOption =
      orders?.reduceOption.map (retell said moved) := by
    simp [List.reduceOption, List.filterMap_map, List.map_filterMap]
  dsimp only
  rw [horders, List.flatMap_map, List.map_flatMap]
  exact ⟨rfl, rfl⟩

end Order

end

/-! ### Orders that differ in free texts -/

/-- Whether a command has free texts. -/
def Command.hasText : Command → Bool
  | name .. | news .. | unknown _ => true
  | _ => false

/-- Whether two commands are the same but for free texts that are related. -/
inductive Command.SameButTexts (related : String → String → Prop) : Command → Command → Prop
  | same {command : Command} (h : command.hasText = false) : SameButTexts related command command
  | name {id : Int64} {text other : String} (h : related text other) :
      SameButTexts related (name id text) (name id other)
  | news {location : Coordinates} {article other : String} {signature signature' : Option String}
      (harticle : related article other) (hsignature : Option.Rel related signature signature') :
      SameButTexts related (news location article signature) (news location other signature')
  | unknown {text other : String} (h : related text other) :
      SameButTexts related (unknown text) (unknown other)

/-- Whether two orders are the same but for free texts that are related. -/
structure Order.SameButTexts (related : String → String → Prop) (order other : Order) : Prop where
  line : order.line = other.line
  errors : order.errors = other.errors
  command : order.command.SameButTexts related other.command

namespace Command

variable {said told : String → String} {related : String → String → Prop}

/-- A command without a free text stays as it is. -/
theorem mapText_of_hasText {command : Command} (h : command.hasText = false) :
    command.mapText said = command := by
  cases command <;> first | rfl | cases h

theorem hasText_mapText (command : Command) :
    (command.mapText said).hasText = command.hasText := by
  cases command <;> rfl

/-- Two ways to tell the texts of a command give commands that are the same but for these. -/
theorem sameButTexts_mapText (h : ∀ text, related (said text) (told text)) (command : Command) :
    (command.mapText said).SameButTexts related (command.mapText told) := by
  by_cases htext : command.hasText = true
  · cases command
    case name => exact .name (h _)
    case news location article signature =>
      refine .news (h _) ?_
      cases signature with
      | none => exact .none
      | some text => exact .some (h text)
    case unknown => exact .unknown (h _)
    all_goals cases htext
  · rw [Bool.not_eq_true] at htext
    rw [mapText_of_hasText htext, mapText_of_hasText htext]
    exact .same htext

/-- Commands that are the same in other words differ in their free texts at most. -/
theorem sameButTexts_of_mapText_eq {command other : Command}
    (h : command.mapText said = other.mapText said) :
    command.SameButTexts (fun text other ↦ said text = said other) other := by
  have hsame : command.hasText = other.hasText := by
    rw [← @hasText_mapText said, h, hasText_mapText]
  by_cases htext : command.hasText = true
  · cases command
    case name id text =>
      cases other
      case name id' other =>
        obtain ⟨rfl, hsaid⟩ := name.inj h
        exact .name hsaid
      all_goals cases h
    case news location article signature =>
      cases other
      case news location' article' signature' =>
        simp only [mapText, news.injEq] at h
        obtain ⟨rfl, harticle, hsignature⟩ := h
        refine .news harticle ?_
        cases signature <;> cases signature' <;> simp_all
      all_goals cases h
    case unknown text =>
      cases other
      case unknown other => exact .unknown (unknown.inj h)
      all_goals cases h
    all_goals cases htext
  · rw [Bool.not_eq_true] at htext
    rw [mapText_of_hasText htext, mapText_of_hasText (hsame ▸ htext)] at h
    exact h ▸ .same htext

end Command

namespace Order

variable {said told : String → String} {related : String → String → Prop}

/-- Other words change no complaint. -/
theorem errors_retell_id (order : Order) : (order.retell said id).errors = order.errors :=
  List.map_id order.errors

/-- Two ways to tell the texts of an order give orders that are the same but for these. -/
theorem sameButTexts_retell (h : ∀ text, related (said text) (told text)) (order : Order) :
    (order.retell said id).SameButTexts related (order.retell told id) where
  line := rfl
  errors := rfl
  command := Command.sameButTexts_mapText h order.command

/-- Orders that are the same in other words differ in their free texts at most. -/
theorem sameButTexts_of_retell_eq {order other : Order}
    (h : order.retell said id = other.retell said id) :
    order.SameButTexts (fun text other ↦ said text = said other) other where
  line := (Order.mk.inj h).1
  errors := by rw [← @errors_retell_id said, h, errors_retell_id]
  command := Command.sameButTexts_of_mapText_eq (Order.mk.inj h).2.2

end Order

end OrderFile
