import OrderFile.Proofs.Order.Parts
import OrderFile.Proofs.Order.Values
import OrderFile.Proofs.Text.Ascii
import OrderFile.Proofs.Token.Canonical

/-!
Commands as they are printed. Each word that a command is printed with is cut back into the tokens
of one tree of its rule, and the trees are the command again, so a printed line is the same order
as the one that it was printed from: `exists_part_of_printed`. The values of a command that was read
have a printed form by what the tokens of a text carry.
-/

set_option autoImplicit false

namespace OrderFile

open OrderFile.Tree (leaf node tokensOf)

/-! ### Tokens as they are printed -/

namespace Token

def ofKeyword (n : UInt32) (k : Keyword) : Token := ⟨n, .text, k.word, .text k.word⟩

def ofInteger (n : UInt32) (k : Int64) : Token := ⟨n, .integer, toString k, .integer k⟩

def ofPercentage (n : UInt32) (k : Int64) : Token :=
  ⟨n, .percentage, Command.percent k, .integer k⟩

def ofQuoted (n : UInt32) (s : String) : Token := ⟨n, .quotedText, Quoted.quote s, .text s⟩

def ofMaterial (n : UInt32) (kind : Kind) (m : Material) : Token :=
  ⟨n, kind, m.display, .material m⟩

def ofGroup (n : UInt32) (g : GroupRef) : Token := ⟨n, g.kind, g.display, .integer g.number⟩

/-- Numbers with commas between them. -/
def ofIntegers (n : UInt32) : List Int64 → List Token
  | [] => []
  | [k] => [ofInteger n k]
  | k :: l :: ks => ofInteger n k :: ⟨n, .comma, ",", .none⟩ :: ofIntegers n (l :: ks)

end Token

/-- Whether a word of printable ASCII is cut into the tokens of a tree where a space or the end of
the line comes after it. -/
structure Spelt (n : UInt32) (word : String) (tree : Tree) : Prop where
  ascii : IsAscii word
  lexes : Token.Lexes n (· == ' ') word.toList tree.tokens

section

variable {n : UInt32}

/-- Canonical spellings are printable. -/
theorem isAscii_of_isCanonical {word : String} (h : Vocabulary.isCanonical word = true) :
    IsAscii word := by
  intro c hc
  obtain ⟨hlow, hhigh, -⟩ := Vocabulary.visible_of_isCanonical h hc
  exact ⟨by omega, hhigh⟩

theorem isAscii_toString (k : Int64) : IsAscii (toString k) := by
  intro c hc
  rw [toList_toString, signOf] at hc
  rcases List.mem_append.mp hc with hsign | hdigit
  · split at hsign
    · cases hsign
    · obtain rfl := List.mem_singleton.mp hsign
      decide
  · have hrange := Token.isDigit_iff.mp (isDigit_of_mem_toDigits hdigit)
    omega

/-- A plain text in quotes is printable. -/
theorem isAscii_quote {s : String} (h : ∀ c ∈ s.toList, Quoted.isPlain c = true) :
    IsAscii (Quoted.quote s) := by
  intro c hc
  rw [Quoted.quote, String.toList_ofList] at hc
  simp only [List.cons_append, List.mem_cons, List.mem_append, List.mem_flatMap, List.not_mem_nil,
    or_false] at hc
  rcases hc with rfl | ⟨d, hd, hc⟩ | rfl
  · decide
  · have hplain := h d hd
    rw [Token.escape_of_plain hplain] at hc
    simp only [Quoted.isPlain, Bool.and_eq_true, decide_eq_true_eq] at hplain
    split at hc
    · have hescape : c = '\\' ∨ c = '"' := by simpa using hc
      rcases hescape with rfl | rfl <;> decide
    · obtain rfl := List.mem_singleton.mp hc
      exact hplain.1
  · decide

/-- A canonical word is printed as the token that it is classified as. -/
theorem spelt_of_classify {word : String} {kind : Token.Kind} {payload : Payload}
    (h : Vocabulary.isCanonical word = true) (hclass : Vocabulary.classify word = (kind, payload))
    (hkind : kind.isTrivia = false) : Spelt n word (leaf ⟨n, kind, word, payload⟩) := by
  refine ⟨isAscii_of_isCanonical h, (Token.lexes_canonical h hclass hkind).mono fun c hc ↦ ?_⟩
  obtain rfl := beq_iff_eq.mp hc
  rfl

/-- A keyword is printed as its own token. -/
theorem spelt_keyword (k : Keyword) : Spelt n k.word (leaf (.ofKeyword n k)) :=
  spelt_of_classify (Vocabulary.classify_keyword k).1 (Vocabulary.classify_keyword k).2 rfl

theorem isDelimiter_space {c : Char} (h : (c == ' ') = true) : Token.isDelimiter c = true := by
  obtain rfl := beq_iff_eq.mp h
  rfl

/-- An integer is printed as its own token. -/
theorem spelt_integer (k : Int64) : Spelt n (toString k) (leaf (.ofInteger n k)) :=
  ⟨isAscii_toString k, (Token.lexes_integer k).mono fun _ ↦ isDelimiter_space⟩

theorem spelt_percentage (k : Int64) : Spelt n (Command.percent k) (leaf (.ofPercentage n k)) :=
  ⟨(isAscii_toString k).append (by decide),
    (Token.lexes_percentage k).mono fun _ ↦ isDelimiter_space⟩

/-- A plain text in quotes is printed as one quoted text. -/
theorem spelt_quote {s : String} (h : ∀ c ∈ s.toList, Quoted.isPlain c = true) :
    Spelt n (Quoted.quote s) (leaf (.ofQuoted n s)) :=
  ⟨isAscii_quote h, (Token.lexes_quote h).mono fun _ _ ↦ rfl⟩

theorem spelt_group {g : GroupRef} (h : 0 ≤ g.number) : Spelt n g.display (leaf (.ofGroup n g)) :=
  spelt_of_classify (GroupRef.spells h).1 (GroupRef.spells h).classify_eq (by cases g <;> rfl)

/-- A rule of one token is spelt like the token. -/
theorem Spelt.node {word name : String} {t : Token} (h : Spelt n word (leaf t)) :
    Spelt n word (node name [leaf t]) := by
  refine ⟨h.ascii, ?_⟩
  rw [Tree.tokens_node, Tree.tokensOf_cons, Tree.tokensOf_nil, List.append_nil]
  exact h.lexes

/-- A material that was read has a spelling. -/
theorem spelt_materialToken {m : Token} (hm : Grammar.cargoKinds.contains m.kind = true)
    (hs : m.Suited) :
    Spelt n (Command.materialOf m).display
      (leaf (.ofMaterial n m.kind (Command.materialOf m))) := by
  have hpayload := (Command.from_material hm hs).2
  rw [Token.Suited, hpayload] at hs
  have hspells := Vocabulary.spells_material (List.contains_iff_mem.mp hm) hs
  refine spelt_of_classify hspells.1 hspells.classify_eq ?_
  have hkinds : ∀ kind ∈ Grammar.cargoKinds, kind.isTrivia = false := by decide
  exact hkinds _ (List.contains_iff_mem.mp hm)

/-- A material for cargo is printed as its canonical token. -/
theorem spelt_cargo {m : Token} (hm : Grammar.cargoKinds.contains m.kind = true)
    (hs : m.Suited) :
    Spelt n (Command.materialOf m).display
      (node "cargo" [leaf (.ofMaterial n m.kind (Command.materialOf m))]) :=
  (spelt_materialToken hm hs).node

theorem spelt_material {m : Token} (hm : Grammar.materialKinds.contains m.kind = true)
    (hs : m.Suited) :
    Spelt n (Command.materialOf m).display
      (node "material" [leaf (.ofMaterial n m.kind (Command.materialOf m))]) :=
  (spelt_materialToken (Command.cargo_of_material hm) hs).node

/-! ### Places as they are printed -/

/-- Integers with commas between them are cut into integers and commas. -/
theorem lexes_integers {ks : List Int64} (h : ks ≠ []) :
    Token.Lexes n Token.isDelimiter (String.intercalate "," (ks.map toString)).toList
      (Token.ofIntegers n ks) := by
  induction ks with
  | nil => exact absurd rfl h
  | cons k ks ih =>
    cases ks with
    | nil =>
      rw [List.map_singleton, String.intercalate_singleton]
      exact Token.lexes_integer k
    | cons l ks =>
      have hcomma : ",".toList = [','] := rfl
      rw [List.map_cons, List.map_cons, String.intercalate_cons_cons, String.toList_append,
        String.toList_append, List.append_assoc, hcomma]
      exact (Token.lexes_integer k).append (Token.lexes_comma.append_of_true (ih (by simp))) rfl

/-- The numbers of a place; orbit zero is not written. -/
def Coordinates.numbers (c : Coordinates) : List Int64 :=
  [c.x, c.y, c.z] ++ if c.hasOrbit then [c.orbit] else []

/-- A place as it is printed. -/
def Coordinates.printed (n : UInt32) (c : Coordinates) : Tree :=
  let tokens : List Token :=
    [⟨n, .parenOpen, "(", .none⟩] ++ (Token.ofIntegers n c.numbers ++ [⟨n, .parenClose, ")", .none⟩])
  node "coordinate" (tokens.map leaf)

/-- A place is printed as the tokens of its numbers in parentheses. -/
theorem spelt_place (c : Coordinates) : Spelt n c.display (c.printed n) := by
  have hnumbers : c.numbers ≠ [] := List.cons_ne_nil _ _
  have hdisplay : c.display = "(" ++ String.intercalate "," (c.numbers.map toString) ++ ")" := rfl
  constructor
  · have hinner : IsAscii (String.intercalate "," (c.numbers.map toString)) := by
      refine .intercalate (by decide) fun word hword ↦ ?_
      obtain ⟨k, -, rfl⟩ := List.mem_map.mp hword
      exact isAscii_toString k
    rw [hdisplay]
    exact (IsAscii.append (by decide) hinner).append (by decide)
  · have hopen : "(".toList = ['('] := rfl
    have hclose : ")".toList = [')'] := rfl
    rw [hdisplay, Coordinates.printed, Tree.tokens_node, Grammar.tokensOf_map_leaf,
      String.toList_append, String.toList_append, hopen, hclose, List.append_assoc]
    refine Token.lexes_parenOpen.append_of_true ?_
    exact (lexes_integers hnumbers).append (Token.lexes_parenClose.mono fun _ _ ↦ rfl) rfl

/-- A place is written out as it is printed. -/
theorem Coordinates.written_printed {place : Tree} {c : Coordinates} (h : Written place c) :
    Written (c.printed n) c := by
  cases h with
  | system => exact .system rfl rfl rfl rfl rfl rfl rfl
  | @orbit _ x _ y _ z _ k _ _ _ _ _ _ _ _ _ hlow hhigh =>
    have horbit : hasOrbit ⟨x.intValue, y.intValue, z.intValue, k.intValue⟩ = true :=
      bne_iff_ne.mpr (ne_zero_of_orbit hlow)
    rw [Coordinates.printed, Coordinates.numbers, if_pos horbit]
    exact .orbit rfl rfl rfl rfl rfl rfl rfl rfl hlow hhigh rfl

/-! ### Lines as they are printed -/

/-- Words with single spaces between them are printable if each of them is. -/
theorem ascii_of_spelt {words : List String} {trees : List Tree}
    (h : List.Forall₂ (Spelt n) words trees) : IsAscii (String.intercalate " " words) := by
  refine .intercalate (by decide) ?_
  induction h with
  | nil => simp
  | cons hword _ ih => exact List.forall_mem_cons.mpr ⟨hword.ascii, ih⟩

/-- Words with spaces between them are cut into the tokens of their trees. -/
theorem words_of_spelt {words : List String} {trees : List Tree}
    (h : List.Forall₂ (Spelt n) words trees) :
    Token.words n (String.intercalate " " words).toList = tokensOf trees := by
  induction h with
  | nil => exact Token.words_nil
  | @cons word tree words trees hword hothers ih =>
    rw [Tree.tokensOf_cons, ← ih]
    cases words with
    | nil =>
      have hlast := hword.lexes [] rfl
      rw [List.append_nil] at hlast
      rw [String.intercalate_singleton, hlast, String.intercalate_nil, String.toList_empty]
    | cons other words =>
      have hspace : " ".toList = [' '] := rfl
      rw [String.intercalate_cons_cons, String.toList_append, String.toList_append,
        List.append_assoc, hspace, hword.lexes _ rfl, List.singleton_append, Token.words_space]

end

/-! ### Commands as they are printed -/

/-- Whether a command is of a kind whose printed form is an order again, and its texts are plain.
Prices and rates are printed as floating point numbers, the items of setup orders in brackets. -/
def Command.isReprintable : Command → Bool
  | buy .. | pay .. | sell .. | setup .. | unknown _ => false
  | name _ text => text.toList.all Quoted.isPlain
  | news _ article signature =>
    article.toList.all Quoted.isPlain && signature.all (·.toList.all Quoted.isPlain)
  | assemble .. | bombard .. | disassemble .. | invade .. | move .. | probe .. | raid ..
  | ration .. | retool .. | supportAttack .. | supportDefend .. | survey .. | transfer .. => true

namespace Command

variable {n : UInt32}

/-- What may be left out is printed if it is there. -/
theorem exists_optional {α : Type} {read : Token → Option α} {display : α → String}
    {p : Token → Prop} {t? : Option Token}
    (h : ∀ t ∈ t?, ∃ a s, read t = some a ∧ read s = some a ∧ p s ∧
      Spelt n (display a) (leaf s)) :
    ∃ s? : Option Token, List.Forall₂ (Spelt n) ((t?.bind read).map display).toList
        (s?.toList.map leaf) ∧ (∀ s ∈ s?, p s) ∧ s?.bind read = t?.bind read := by
  cases t? with
  | none => exact ⟨none, .nil, by simp, rfl⟩
  | some t =>
    obtain ⟨a, s, ht, hs, hp, hspelt⟩ := h t rfl
    refine ⟨some s, ?_, by simpa using hp, ?_⟩
    · rw [Option.bind_some, ht]
      exact .cons hspelt .nil
    · rw [Option.bind_some, Option.bind_some, ht, hs]

theorem groupOf?_ofGroup (g : GroupRef) : groupOf? (.ofGroup n g) = some g := by
  cases g <;> rfl

/-- A group that was read has a number that is not negative. -/
theorem exists_group {kinds : List Token.Kind}
    (hkinds : kinds ⊆ [.depositId, .factoryGroupId, .mineGroupId]) {t : Token}
    (h : kinds.contains t.kind = true) (hs : t.Suited) :
    ∃ g, groupOf? t = some g ∧ g.kind = t.kind ∧ 0 ≤ g.number := by
  obtain ⟨g, hg, hfrom⟩ := from_group hkinds h hs
  refine ⟨g, hg, ?_⟩
  rw [Token.Suited] at hs
  cases g <;>
  · obtain ⟨hkind, hpayload⟩ := hfrom
    rw [hkind, hpayload] at hs
    obtain ⟨k, hk, heq⟩ := hs
    obtain rfl := Payload.integer.inj heq
    exact ⟨hkind.symm, hk⟩

/-- A group that may be left out is printed if it is there. -/
theorem exists_optionalGroup {kinds : List Token.Kind}
    (hkinds : kinds ⊆ [.depositId, .factoryGroupId, .mineGroupId]) {group : Option Token}
    (h : ∀ g ∈ group, kinds.contains g.kind = true) (hs : ∀ g ∈ group, g.Suited) :
    ∃ s? : Option Token, List.Forall₂ (Spelt n) ((group.bind groupOf?).map GroupRef.display).toList
        (s?.toList.map leaf) ∧ (∀ s ∈ s?, kinds.contains s.kind = true) ∧
      s?.bind groupOf? = group.bind groupOf? := by
  refine exists_optional fun t ht ↦ ?_
  obtain ⟨g, hg, hkind, hnumber⟩ := exists_group hkinds (h t ht) (hs t ht)
  refine ⟨g, .ofGroup n g, hg, groupOf?_ofGroup g, ?_, spelt_group hnumber⟩
  have hsame : (Token.ofGroup n g).kind = t.kind := hkind
  rw [hsame]
  exact h t ht

theorem exists_optionalInteger {id : Option Token} (h : ∀ t ∈ id, t.kind = .integer)
    (hs : ∀ t ∈ id, t.Suited) :
    ∃ s? : Option Token, List.Forall₂ (Spelt n) ((id.bind Token.integer?).map toString).toList
        (s?.toList.map leaf) ∧ (∀ s ∈ s?, s.kind = .integer) ∧
      s?.bind Token.integer? = id.bind Token.integer? :=
  exists_optional fun t ht ↦ ⟨t.intValue, .ofInteger n t.intValue,
    (integer?_of_suited (.inl (h t ht)) (hs t ht)).2, rfl, rfl, spelt_integer _⟩

theorem exists_optionalText {signature : Option Token} (h : ∀ t ∈ signature, t.kind = .quotedText)
    (hs : ∀ t ∈ signature, t.Suited)
    (hplain : (signature.bind Token.text?).all (·.toList.all Quoted.isPlain) = true) :
    ∃ s? : Option Token, List.Forall₂ (Spelt n)
        ((signature.bind Token.text?).map Quoted.quote).toList (s?.toList.map leaf) ∧
      (∀ s ∈ s?, s.kind = .quotedText) ∧
      s?.bind Token.text? = signature.bind Token.text? := by
  refine exists_optional fun t ht ↦ ?_
  have htext := (text?_of_suited (h t ht) (hs t ht)).2
  have hall : t.textValue.toList.all Quoted.isPlain = true := by
    rw [ht, Option.bind_some, htext] at hplain
    exact hplain
  exact ⟨t.textValue, .ofQuoted n t.textValue, htext, rfl, rfl,
    spelt_quote (List.all_eq_true.mp hall)⟩

theorem nonneg_of_factoryGroup {t : Token} (h : t.kind = .factoryGroupId) (hs : t.Suited) :
    0 ≤ (GroupRef.factoryGroup t.intValue).number := by
  rw [Token.Suited, h] at hs
  obtain ⟨k, hk, hpayload⟩ := hs
  rw [GroupRef.number, Token.intValue, Token.integer?, hpayload]
  exact hk

/-- The words of a command that was read are cut into trees that are the same command. -/
theorem exists_printed {children : List Tree} {command : Command} {k : Keyword}
    (h : command.Written children) (hs : ∀ t ∈ tokensOf children, t.Suited)
    (hk : command.keyword? = some k) (hprints : command.isReprintable = true) {e : Token}
    (he : e.kind = .eol) :
    ∃ trees, List.Forall₂ (Spelt n) command.operandWords trees ∧
      command.Written (leaf (.ofKeyword n k) :: (trees ++ [leaf e])) := by
  have hword : (Token.ofKeyword n k).spells k.word = true :=
    (Bool.and_eq_true _ _).mpr ⟨rfl, sameWord_refl _⟩
  cases h
  case buyResearch | buyProduct | pay | sellResearch | sellProduct | setup => cases hprints
  all_goals
    obtain rfl := Option.some.inj hk
    simp only [Tree.tokensOf_cons, Tree.tokens_leaf, Tree.tokens_node, Tree.tokensOf_nil,
      Tree.tokensOf_append, Grammar.tokensOf_map_leaf, List.append_nil, List.cons_append,
      List.nil_append, List.forall_mem_cons, List.forall_mem_append] at hs
  case assemble hgroup _ hm _ =>
    obtain ⟨-, -, hsgroup, -, hsm, -, -⟩ := hs
    obtain ⟨group, hspelt, hkinds, hsame⟩ := exists_optionalGroup (fun _ ↦ id) hgroup
      fun g hg ↦ hsgroup g (Option.mem_toList.mpr hg)
    refine ⟨_, .cons (spelt_integer _) <| List.rel_append hspelt <| .cons (spelt_integer _) <|
      .cons (spelt_material hm hsm) .nil, ?_⟩
    rw [List.cons_append, List.append_assoc, ← hsame]
    exact .assemble hword rfl hkinds rfl hm he
  case bombard =>
    exact ⟨_, .cons (spelt_integer _) <| .cons (spelt_integer _) <|
      .cons (spelt_percentage _) .nil, .bombard hword rfl rfl rfl he⟩
  case disassemble hgroup _ hm _ =>
    obtain ⟨-, -, hsgroup, -, hsm, -, -⟩ := hs
    obtain ⟨group, hspelt, hkinds, hsame⟩ := exists_optionalGroup (by simp) hgroup
      fun g hg ↦ hsgroup g (Option.mem_toList.mpr hg)
    refine ⟨_, .cons (spelt_integer _) <| List.rel_append hspelt <| .cons (spelt_integer _) <|
      .cons (spelt_material hm hsm) .nil, ?_⟩
    rw [List.cons_append, List.append_assoc, ← hsame]
    exact .disassemble hword rfl hkinds rfl hm he
  case invade =>
    exact ⟨_, .cons (spelt_integer _) <| .cons (spelt_integer _) <|
      .cons (spelt_percentage _) .nil, .invade hword rfl rfl rfl he⟩
  case move hplace _ =>
    exact ⟨_, .cons (spelt_integer _) <| .cons (spelt_place _) .nil,
      .move hword rfl (Coordinates.written_printed hplace) he⟩
  case name =>
    have hplain := List.all_eq_true.mp hprints
    exact ⟨_, .cons (spelt_integer _) <| .cons (spelt_quote hplain) .nil,
      .name hword rfl rfl he⟩
  case news hplace _ hsignature _ =>
    obtain ⟨-, -, -, hssignature, -, -⟩ := hs
    obtain ⟨harticle, hplain⟩ := (Bool.and_eq_true _ _).mp hprints
    obtain ⟨signature, hspelt, hkinds, hsame⟩ := exists_optionalText hsignature
      (fun t ht ↦ hssignature t (Option.mem_toList.mpr ht)) hplain
    refine ⟨_, .cons (spelt_place _) <| .cons (spelt_quote (List.all_eq_true.mp harticle)) hspelt,
      ?_⟩
    rw [List.cons_append, List.cons_append, ← hsame]
    exact .news hword (Coordinates.written_printed hplace) rfl hkinds he
  case probe => exact ⟨_, .cons (spelt_integer _) .nil, .probe hword rfl he⟩
  case probeOrbit =>
    exact ⟨_, .cons (spelt_integer _) <| .cons (spelt_integer _) .nil,
      .probeOrbit hword rfl rfl he⟩
  case probeSystem hplace _ =>
    exact ⟨_, .cons (spelt_integer _) <| .cons (spelt_place _) .nil,
      .probeSystem hword rfl (Coordinates.written_printed hplace) he⟩
  case raid hm _ =>
    obtain ⟨-, -, -, -, hsm, -, -⟩ := hs
    exact ⟨_, .cons (spelt_integer _) <| .cons (spelt_integer _) <| .cons (spelt_percentage _) <|
      .cons (spelt_cargo hm hsm) .nil, .raid hword rfl rfl rfl hm he⟩
  case ration hid _ _ =>
    obtain ⟨-, hsid, -, -, -⟩ := hs
    obtain ⟨id, hspelt, hkinds, hsame⟩ := exists_optionalInteger hid
      fun t ht ↦ hsid t (Option.mem_toList.mpr ht)
    refine ⟨_, List.rel_append hspelt <| .cons (spelt_percentage _) .nil, ?_⟩
    rw [List.append_assoc, ← hsame]
    exact .ration hword hkinds rfl he
  case retool hgroup hm _ =>
    obtain ⟨-, -, hsgroup, hsm, -, -⟩ := hs
    have hnumber := nonneg_of_factoryGroup hgroup hsgroup
    exact ⟨_, .cons (spelt_integer _) <| .cons (spelt_group hnumber) <|
      .cons (spelt_material hm hsm) .nil,
      .retool hword rfl rfl hm he⟩
  case supportAttack =>
    exact ⟨_, .cons (spelt_integer _) <| .cons (spelt_integer _) <| .cons (spelt_integer _) <|
      .cons (spelt_percentage _) .nil, .supportAttack hword rfl rfl rfl rfl he⟩
  case supportDefend =>
    exact ⟨_, .cons (spelt_integer _) <| .cons (spelt_integer _) <|
      .cons (spelt_percentage _) .nil, .supportDefend hword rfl rfl rfl he⟩
  case survey => exact ⟨_, .cons (spelt_integer _) .nil, .survey hword rfl he⟩
  case transfer hm _ _ =>
    obtain ⟨-, -, -, hsm, -, -, -⟩ := hs
    exact ⟨_, .cons (spelt_integer _) <| .cons (spelt_integer _) <|
      .cons (spelt_cargo hm hsm) <| .cons (spelt_integer _) .nil,
      .transfer hword rfl rfl hm rfl he⟩

/-- A command that was read is printed on one line, which is cut into the tokens of the same
command. -/
theorem exists_part_of_printed {children : List Tree} {command : Command} {k : Keyword}
    (h : command.Written children) (hs : ∀ t ∈ tokensOf children, t.Suited)
    (hk : command.keyword? = some k) (hprints : command.isReprintable = true) {e : Token}
    (he : e.kind = .eol) :
    IsAscii command.display ∧
      ∃ part, Order.Part part (some ⟨n, command.complaints n, command⟩) ∧
        part.tokens = Token.words n command.display.toList ++ [e] := by
  obtain ⟨trees, hspelt, hwritten⟩ := @exists_printed n _ _ _ h hs hk hprints _ he
  have hall : List.Forall₂ (Spelt n) (k.word :: command.operandWords)
      (leaf (.ofKeyword n k) :: trees) := .cons (spelt_keyword k) hspelt
  have hdisplay : command.display = String.intercalate " " (k.word :: command.operandWords) := by
    rw [display, hk]
    rfl
  rw [hdisplay, words_of_spelt hall]
  refine ⟨ascii_of_spelt hall, _, .command hk hwritten ?_, ?_⟩
  · exact ⟨_, Grammar.fits_of_written hk hwritten, rfl⟩
  · simp [Tree.tokensOf_append]

end Command

end OrderFile
