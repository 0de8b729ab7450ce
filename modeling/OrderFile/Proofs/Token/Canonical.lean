import Mathlib.Data.List.Basic
import OrderFile.Grammar.Rules
import OrderFile.Order
import OrderFile.Proofs.Token.Printed
import OrderFile.Proofs.Token.Suited

/-!
Words as they are printed. A keyword, a material and a group each have one spelling, whatever alias
or case they were written in, and the spelling stands for nothing else: `classify_keyword`,
`spells_material` and `GroupRef.spells`. What could be taken for something else is a product with a
level, but no other word of the vocabulary ends with a digit. So a word and its spelling stand for
the same (`classify_display`), and a word that starts with no letter stands for itself
(`classify_of_not_isAlpha`).
-/

set_option autoImplicit false

namespace OrderFile

namespace Vocabulary

/-- Whether a word is written like those of the vocabulary. -/
def isCanonical (word : String) : Bool :=
  word.toList.head?.any Char.isLower && word.toList.all fun c ↦ c.isLower || c.isDigit || c == '-'

/-- A word that ends with a number. -/
def numbered (stem : String) (n : Nat) : String :=
  stem ++ "-" ++ n.repr

theorem toList_numbered (stem : String) (n : Nat) :
    (numbered stem n).toList = (stem ++ "-").toList ++ Nat.toDigits 10 n := by
  rw [numbered, String.toList_append, Nat.toList_repr]

theorem toList_append_hyphen (stem : String) : (stem ++ "-").toList = stem.toList ++ ['-'] := by
  rw [String.toList_append]
  rfl

/-! ### Spellings -/

/-- Keywords are plain words. -/
theorem classify_keyword (k : Keyword) :
    isCanonical k.word = true ∧ classify k.word = (.text, .text k.word) := by
  have hall : ∀ k ∈ Keyword.all, isCanonical k.word = true ∧
      classify k.word = (.text, .text k.word) := by decide +kernel
  exact hall k k.mem_all

theorem isCanonical_numbered {stem : String} (h : isCanonical stem = true) (n : Nat) :
    isCanonical (numbered stem n) = true := by
  rw [isCanonical, Bool.and_eq_true] at h ⊢
  obtain ⟨hstart, hall⟩ := h
  rw [toList_numbered, toList_append_hyphen]
  constructor
  · cases hstem : stem.toList with
    | nil =>
      rw [hstem] at hstart
      cases hstart
    | cons c stem =>
      rw [hstem] at hstart
      exact hstart
  · have hdigits : ((Nat.toDigits 10 n).all fun c ↦ c.isLower || c.isDigit || c == '-') = true := by
      refine List.all_eq_true.mpr fun c hc ↦ ?_
      rw [isDigit_of_mem_toDigits hc, Bool.or_true, Bool.true_or]
    rw [List.all_append, List.all_append, hall, hdigits]
    rfl

/-- A canonical spelling has only visible characters of ASCII, and no capitals. -/
theorem visible_of_isCanonical {word : String} (h : isCanonical word = true) {c : Char}
    (hc : c ∈ word.toList) : 0x21 ≤ c.toNat ∧ c.toNat ≤ 0x7E ∧ c.toLower = c := by
  have hclass := List.all_eq_true.mp ((Bool.and_eq_true _ _).mp h).2 c hc
  have hrange : 97 ≤ c.toNat ∧ c.toNat ≤ 122 ∨ 48 ≤ c.toNat ∧ c.toNat ≤ 57 ∨ c.toNat = 45 := by
    simp only [Bool.or_eq_true, Token.isLower_iff, Token.isDigit_iff, beq_iff_eq] at hclass
    rcases hclass with (hclass | hclass) | rfl
    · exact .inl hclass
    · exact .inr (.inl hclass)
    · exact .inr (.inr rfl)
  refine ⟨by omega, by omega, dif_neg ?_⟩
  rintro ⟨hlow, hhigh⟩
  have hupper : 65 ≤ c.toNat ∧ c.toNat ≤ 90 := ⟨hlow, hhigh⟩
  omega

/-- A canonical spelling is in lower case already. -/
theorem lowercase_of_isCanonical {word : String} (h : isCanonical word = true) :
    lowercase word = word := by
  have hsame : word.toList.map Char.toLower = word.toList.map id :=
    List.map_congr_left fun c hc ↦ (visible_of_isCanonical h hc).2.2
  rw [lowercase, hsame, List.map_id, String.ofList_toList]

/-! ### Words with numbers -/

/-- A word that ends with a digit. -/
def endsWithDigit (word : String) : Bool :=
  word.toList.getLast?.any Char.isDigit

theorem endsWithDigit_numbered (stem : String) (n : Nat) :
    endsWithDigit (numbered stem n) = true := by
  rw [endsWithDigit, toList_numbered, List.getLast?_append_of_ne_nil _ Nat.toDigits_ne_nil,
    List.getLast?_eq_some_getLast Nat.toDigits_ne_nil]
  exact isDigit_of_mem_toDigits (List.getLast_mem _)

/-- No plain word of the vocabulary ends with a digit. -/
theorem endsWithDigit_words :
    (∀ word ∈ professions.map (·.1), endsWithDigit word = false) ∧
      (∀ word ∈ resources, endsWithDigit word = false) ∧
      (∀ word ∈ products.map (·.1), endsWithDigit word = false) ∧
      endsWithDigit Material.research = false := by
  decide +kernel

/-- A word with a number is none of the plain words. -/
theorem numbered_ne {word : String} (hword : endsWithDigit word = false) (stem : String)
    (n : Nat) : numbered stem n ≠ word := by
  rintro rfl
  exact Bool.false_ne_true (hword.symm.trans (endsWithDigit_numbered stem n))

theorem lookup_of_not_mem {words : List (String × String)} {word : String}
    (h : word ∉ words.map (·.1)) : words.lookup word = none := by
  refine List.lookup_eq_none_iff.mpr fun p hp ↦ bne_iff_ne.mpr ?_
  rintro rfl
  exact h (List.mem_map_of_mem hp)

theorem lookup_numbered {words : List (String × String)}
    (hwords : ∀ word ∈ words.map (·.1), endsWithDigit word = false) (stem : String) (n : Nat) :
    words.lookup (numbered stem n) = none :=
  lookup_of_not_mem fun hmem ↦ numbered_ne (hwords _ hmem) stem n rfl

theorem profession?_numbered (stem : String) (n : Nat) :
    profession? (numbered stem n) = none := by
  rw [profession?, lookup_numbered endsWithDigit_words.1]
  rfl

theorem resource?_numbered (stem : String) (n : Nat) : resource? (numbered stem n) = none :=
  if_neg fun hmem ↦ numbered_ne (endsWithDigit_words.2.1 _ hmem) stem n rfl

/-- The letters that words with a number of their own start with. -/
def numberedLetters : List String :=
  ["dp", "fg", "mg", "tl"]

/-- What a number may come after. -/
def stems : List String :=
  numberedLetters ++ products.map (·.2)

theorem mem_stems_of_letters {letters : String} (h : letters ∈ numberedLetters) :
    letters ∈ stems :=
  List.mem_append_left _ h

theorem mem_stems_of_product {name : String} (h : name ∈ products.map (·.2)) : name ∈ stems :=
  List.mem_append_right _ h

/-- No word with a number starts like another one. -/
theorem stems_apart :
    ∀ stem ∈ stems, isCanonical stem = true ∧ ∀ letters ∈ numberedLetters, stem ≠ letters →
      ¬ (letters ++ "-").toList <+: (stem ++ "-").toList ∧
        (letters ++ "-").toList.length ≤ (stem ++ "-").toList.length := by
  decide +kernel

/-- A product has one name, which is no other category's. -/
theorem products_apart :
    ∀ name ∈ products.map (·.2), products.lookup name = some name ∧ name ∉ numberedLetters ∧
      name ≠ Material.research := by
  decide +kernel

/-- After its letters and the hyphen a word with a number has the digits. -/
theorem isPrefixOf?_numbered (stem : String) (n : Nat) :
    (stem ++ "-").toList.isPrefixOf? (numbered stem n).toList = some (Nat.toDigits 10 n) := by
  rw [List.isPrefixOf?_eq_some_iff_append_eq, toList_numbered]

/-- A word with a number does not start like one with other letters. -/
theorem isPrefixOf?_of_ne {letters stem : String} (hletters : letters ∈ numberedLetters)
    (hstem : stem ∈ stems) (hne : stem ≠ letters) (n : Nat) :
    (letters ++ "-").toList.isPrefixOf? (numbered stem n).toList = none := by
  obtain ⟨hapart, hlength⟩ := (stems_apart stem hstem).2 letters hletters hne
  rw [Option.eq_none_iff_forall_ne_some]
  intro digits h
  have hwhole := List.append_eq_of_isPrefixOf?_eq_some h
  rw [toList_numbered] at hwhole
  exact hapart (List.prefix_of_prefix_length_le ⟨digits, hwhole⟩ ⟨_, rfl⟩ hlength)

/-- The number of a group is read back from its word, if it is not negative. -/
theorem groupNumber?_numbered (letters : String) {n : Int64} (hn : 0 ≤ n) :
    groupNumber? letters (numbered letters n.toInt.toNat) = some n := by
  have hsize : ((n.toInt.toNat : Nat) : Int) = n.toInt :=
    Int.toNat_of_nonneg (Int64.le_iff_toInt_le.mp hn)
  rw [groupNumber?, isPrefixOf?_numbered]
  simp only [Option.bind_eq_bind, Option.bind_some]
  rw [numeral?_toDigits, Option.bind_some, hsize, int64?_toInt]

/-- A word with a number is no group with other letters. -/
theorem groupNumber?_of_ne {letters stem : String} (hletters : letters ∈ numberedLetters)
    (hstem : stem ∈ stems) (hne : stem ≠ letters) (n : Nat) :
    groupNumber? letters (numbered stem n) = none := by
  rw [groupNumber?, isPrefixOf?_of_ne hletters hstem hne]
  rfl

/-- A tech level is read back from its digits. -/
theorem techLevel?_toDigits (level : UInt32) :
    techLevel? (Nat.toDigits 10 level.toNat) = some level := by
  rw [techLevel?, numeral?_toDigits, Option.bind_some, uint32?_toNat]

/-- Research with a level is read back from its word. -/
theorem research?_numbered (level : UInt32) :
    research? (numbered "tl" level.toNat) = some ⟨Material.research, some level⟩ := by
  have hletters : "tl-".toList = ("tl" ++ "-").toList := rfl
  rw [research?, if_neg (numbered_ne endsWithDigit_words.2.2.2 _ _), hletters,
    isPrefixOf?_numbered]
  simp only [Option.bind_eq_bind, Option.bind_some, techLevel?_toDigits]
  rfl

theorem research?_of_ne {stem : String} (hstem : stem ∈ stems) (hne : stem ≠ "tl") (n : Nat) :
    research? (numbered stem n) = none := by
  have hletters : "tl-".toList = ("tl" ++ "-").toList := rfl
  rw [research?, if_neg (numbered_ne endsWithDigit_words.2.2.2 _ _), hletters,
    isPrefixOf?_of_ne (by simp [numberedLetters]) hstem hne]
  rfl

theorem splitAtLast?_of_not_mem {x : Char} {text : List Char} (h : x ∉ text) :
    splitAtLast? x text = none := by
  induction text with
  | nil => rfl
  | cons c text ih =>
    rw [splitAtLast?, ih (List.not_mem_of_not_mem_cons h)]
    exact if_neg (List.ne_of_not_mem_cons h).symm

/-- A text is split at a character after which it does not occur. -/
theorem splitAtLast?_append {x : Char} {back : List Char} (h : x ∉ back) (front : List Char) :
    splitAtLast? x (front ++ x :: back) = some (front, back) := by
  induction front with
  | nil =>
    rw [List.nil_append, splitAtLast?, splitAtLast?_of_not_mem h]
    exact if_pos rfl
  | cons c front ih => rw [List.cons_append, splitAtLast?, ih]

/-- A product with a level is read back from its word. -/
theorem product?_numbered {name : String} (hname : name ∈ products.map (·.2)) (level : UInt32) :
    product? (numbered name level.toNat) = some ⟨name, some level⟩ := by
  have hlookup : products.lookup (numbered name level.toNat) = none :=
    lookup_numbered endsWithDigit_words.2.2.1 ..
  have hhyphen : '-' ∉ Nat.toDigits 10 level.toNat := by
    intro hmem
    cases isDigit_of_mem_toDigits hmem
  rw [product?, hlookup, toList_numbered, toList_append_hyphen, List.append_assoc,
    List.singleton_append, splitAtLast?_append hhyphen]
  simp only [Option.bind_eq_bind, Option.bind_some, techLevel?_toDigits, String.ofList_toList,
    (products_apart name hname).1]
  rfl

/-! ### Words of no category -/

/-- A word that starts with a lowercase letter. -/
def startsWithLower (word : String) : Bool :=
  word.toList.head?.any Char.isLower

/-- Every word of the vocabulary starts with a small letter, and so do the letters before a
number. -/
theorem startsWithLower_words :
    (∀ word ∈ professions.map (·.1), startsWithLower word = true) ∧
      (∀ word ∈ resources, startsWithLower word = true) ∧
      (∀ word ∈ products.map (·.1), startsWithLower word = true) ∧
      startsWithLower Material.research = true ∧
      ∀ letters ∈ numberedLetters, startsWithLower (letters ++ "-") = true := by
  decide +kernel

/-- What goes on from a word starts as the word does. -/
theorem startsWithLower_of_front {front word : String} (h : front.toList <+: word.toList)
    (hfront : startsWithLower front = true) : startsWithLower word = true := by
  obtain ⟨back, hword⟩ := h
  rw [startsWithLower] at hfront ⊢
  rw [← hword]
  cases hlist : front.toList with
  | nil =>
    rw [hlist] at hfront
    cases hfront
  | cons c text =>
    rw [hlist] at hfront
    exact hfront

section

variable {word : String}

/-- A word that starts with no small letter is none that does. -/
theorem ne_of_not_startsWithLower {other : String} (h : startsWithLower word = false)
    (hother : startsWithLower other = true) : word ≠ other := by
  rintro rfl
  exact Bool.false_ne_true (h.symm.trans hother)

theorem lookup_of_not_startsWithLower {words : List (String × String)}
    (hwords : ∀ word ∈ words.map (·.1), startsWithLower word = true)
    (h : startsWithLower word = false) : words.lookup word = none :=
  lookup_of_not_mem fun hmem ↦ ne_of_not_startsWithLower h (hwords _ hmem) rfl

theorem isPrefixOf?_of_not_startsWithLower {letters : String}
    (hletters : letters ∈ numberedLetters) (h : startsWithLower word = false) :
    (letters ++ "-").toList.isPrefixOf? word.toList = none := by
  rw [Option.eq_none_iff_forall_ne_some]
  intro digits heq
  have hfront := startsWithLower_words.2.2.2.2 letters hletters
  have hword := startsWithLower_of_front ⟨digits, List.append_eq_of_isPrefixOf?_eq_some heq⟩ hfront
  exact Bool.false_ne_true (h.symm.trans hword)

/-- A word that starts with no small letter is no group. -/
theorem groupNumber?_of_not_startsWithLower {letters : String}
    (hletters : letters ∈ numberedLetters) (h : startsWithLower word = false) :
    groupNumber? letters word = none := by
  rw [groupNumber?, isPrefixOf?_of_not_startsWithLower hletters h]
  rfl

/-- A text that was split is its two parts with the character between them. -/
theorem append_eq_of_splitAtLast? {x : Char} {text stem suffix : List Char}
    (h : splitAtLast? x text = some (stem, suffix)) : stem ++ x :: suffix = text := by
  induction text generalizing stem with
  | nil => cases h
  | cons c text ih =>
    rw [splitAtLast?] at h
    split at h
    · next front back hback =>
      obtain ⟨rfl, rfl⟩ := Prod.mk.inj (Option.some.inj h)
      rw [List.cons_append, ih hback]
    · obtain ⟨rfl, heq⟩ := Option.ite_none_right_eq_some.mp h
      obtain ⟨rfl, rfl⟩ := Prod.mk.inj (Option.some.inj heq)
      rfl

theorem product?_of_not_startsWithLower (h : startsWithLower word = false) :
    product? word = none := by
  have hnone {stem suffix : List Char}
      (hsplit : splitAtLast? '-' word.toList = some (stem, suffix)) :
      products.lookup (String.ofList stem) = none := by
    refine lookup_of_not_startsWithLower startsWithLower_words.2.2.1 (Bool.eq_false_iff.mpr ?_)
    intro hstem
    refine Bool.false_ne_true (h.symm.trans (startsWithLower_of_front ⟨'-' :: suffix, ?_⟩ hstem))
    rw [String.toList_ofList, append_eq_of_splitAtLast? hsplit]
  rw [product?, lookup_of_not_startsWithLower startsWithLower_words.2.2.1 h]
  cases hsplit : splitAtLast? '-' word.toList with
  | none => rfl
  | some parts =>
    have hstem : products.lookup (String.ofList parts.1) = none := hnone hsplit
    simp [hstem]

/-- A word that starts with no small letter is not in the vocabulary. -/
theorem known?_of_not_startsWithLower (h : startsWithLower word = false) : known? word = none := by
  obtain ⟨hprofessions, hresources, -, hresearch, -⟩ := startsWithLower_words
  have hresource : resource? word = none :=
    if_neg fun hmem ↦ ne_of_not_startsWithLower h (hresources word hmem) rfl
  have hletters : "tl-".toList.isPrefixOf? word.toList = none :=
    @isPrefixOf?_of_not_startsWithLower word "tl" (by simp [numberedLetters]) h
  have hlevel : research? word = none := by
    rw [research?, if_neg (ne_of_not_startsWithLower h hresearch), hletters]
    rfl
  rw [known?, profession?, lookup_of_not_startsWithLower hprofessions h, hresource, hlevel,
    product?_of_not_startsWithLower h, depositId?, factoryGroupId?, mineGroupId?,
    groupNumber?_of_not_startsWithLower (by simp [numberedLetters]) h,
    groupNumber?_of_not_startsWithLower (by simp [numberedLetters]) h,
    groupNumber?_of_not_startsWithLower (by simp [numberedLetters]) h]
  rfl

theorem isAlpha_of_isLower_toLower {c : Char} (h : c.toLower.isLower = true) :
    c.isAlpha = true := by
  by_cases hupper : c.isUpper = true
  · exact (Bool.or_eq_true _ _).mpr (.inl hupper)
  · have hsame : c.toLower = c := dif_neg fun hrange ↦ hupper (decide_eq_true hrange)
    rw [hsame] at h
    exact (Bool.or_eq_true _ _).mpr (.inr h)

/-- A word that does not start with a letter is plain text. -/
theorem classify_of_not_isAlpha (h : word.toList.head?.any Char.isAlpha = false) :
    classify word = (.text, .text word) := by
  have hlower : startsWithLower (lowercase word) = false := by
    rw [startsWithLower, lowercase, String.toList_ofList]
    cases hword : word.toList with
    | nil => rfl
    | cons c text =>
      rw [hword] at h
      refine Bool.eq_false_iff.mpr fun hlower ↦ ?_
      exact Bool.false_ne_true (h.symm.trans (isAlpha_of_isLower_toLower hlower))
  rw [classify, known?_of_not_startsWithLower hlower, Option.getD_none]

end

/-! ### What the spellings stand for -/

/-- Whether a word is a spelling of the vocabulary and stands for a value of a kind. -/
def Spells (word : String) (kind : Token.Kind) (payload : Payload) : Prop :=
  isCanonical word = true ∧ known? word = some (kind, payload)

instance (word : String) (kind : Token.Kind) (payload : Payload) :
    Decidable (Spells word kind payload) :=
  inferInstanceAs (Decidable (_ ∧ _))

/-- A canonical spelling is classified as what it spells. -/
theorem Spells.classify_eq {word : String} {kind : Token.Kind} {payload : Payload}
    (h : Spells word kind payload) : classify word = (kind, payload) := by
  rw [classify, lowercase_of_isCanonical h.1, h.2, Option.getD_some]

/-- Every canonical name of a material without a level spells that material. -/
theorem spells_names :
    (∀ name ∈ professions.map (·.2), Spells name .population (.material ⟨name, none⟩)) ∧
      (∀ name ∈ resources, Spells name .resource (.material ⟨name, none⟩)) ∧
      (∀ name ∈ products.map (·.2), Spells name .product (.material ⟨name, none⟩)) ∧
      Spells Material.research .research (.material ⟨Material.research, none⟩) := by
  decide +kernel

/-- A word with a level is of no category but the last two. -/
theorem known?_level {stem : String} (hstem : stem ∈ stems)
    (hother : stem ∉ ["dp", "fg", "mg"]) (n : Nat) :
    known? (numbered stem n) =
      ((research? (numbered stem n)).map (fun m ↦ (.research, .material m)) <|>
        (product? (numbered stem n)).map (fun m ↦ (.product, .material m))) := by
  simp only [List.mem_cons, List.not_mem_nil, or_false, not_or] at hother
  obtain ⟨hdeposit, hfactory, hmine⟩ := hother
  simp only [known?, depositId?, factoryGroupId?, mineGroupId?, profession?_numbered,
    resource?_numbered]
  rw [groupNumber?_of_ne (by simp [numberedLetters]) hstem hdeposit,
    groupNumber?_of_ne (by simp [numberedLetters]) hstem hfactory,
    groupNumber?_of_ne (by simp [numberedLetters]) hstem hmine]
  rfl

theorem spells_research (level : UInt32) :
    Spells (numbered "tl" level.toNat) .research (.material ⟨Material.research, some level⟩) := by
  have hstem : "tl" ∈ stems := mem_stems_of_letters (by simp [numberedLetters])
  refine ⟨isCanonical_numbered (stems_apart _ hstem).1 _, ?_⟩
  rw [known?_level hstem (by simp), research?_numbered]
  rfl

/-- A product with a level is spelled with its canonical name and the level. -/
theorem spells_product {name : String} (hname : name ∈ products.map (·.2)) (level : UInt32) :
    Spells (numbered name level.toNat) .product (.material ⟨name, some level⟩) := by
  have hstem := mem_stems_of_product hname
  have hletters : name ∉ ["dp", "fg", "mg"] ∧ name ≠ "tl" := by
    have hapart := (products_apart name hname).2.1
    simp_all [numberedLetters]
  refine ⟨isCanonical_numbered (stems_apart name hstem).1 _, ?_⟩
  rw [known?_level hstem hletters.1, product?_numbered hname, research?_of_ne hstem hletters.2]
  rfl

/-- A material has a spelling. -/
theorem spells_material {kind : Token.Kind} {m : Material} (hkind : kind ∈ Grammar.cargoKinds)
    (h : (Payload.material m).Suits kind) : Spells m.display kind (.material m) := by
  obtain ⟨hprofessions, hresources, hproducts, hresearch⟩ := spells_names
  simp only [Grammar.cargoKinds, List.mem_cons, List.not_mem_nil, or_false] at hkind
  rcases hkind with rfl | rfl | rfl | rfl
  · obtain ⟨name, hname, heq⟩ := h
    obtain rfl := Payload.material.inj heq
    exact hprofessions name hname
  · obtain ⟨name, hname, level?, heq⟩ := h
    obtain rfl := Payload.material.inj heq
    cases level? with
    | none => exact hproducts name hname
    | some level =>
      have hother : ¬ (name == Material.research) = true := by
        simpa using (products_apart name hname).2.2
      have hdisplay : Material.display ⟨name, some level⟩ =
          numbered (if (name == Material.research) = true then "tl" else name) level.toNat := rfl
      rw [hdisplay, if_neg hother]
      exact spells_product hname level
  · obtain ⟨level?, heq⟩ := h
    obtain rfl := Payload.material.inj heq
    cases level? with
    | none => exact hresearch
    | some level => exact spells_research level
  · obtain ⟨name, hname, heq⟩ := h
    obtain rfl := Payload.material.inj heq
    exact hresources name hname

end Vocabulary

/-! ### Groups -/

namespace GroupRef

/-- The number of a group. -/
def number : GroupRef → Int64
  | deposit n | factoryGroup n | mineGroup n => n

/-- The letters that the word for a group starts with. -/
def letters : GroupRef → String
  | deposit _ => "dp"
  | factoryGroup _ => "fg"
  | mineGroup _ => "mg"

/-- The kind of the word for a group. -/
def kind : GroupRef → Token.Kind
  | deposit _ => .depositId
  | factoryGroup _ => .factoryGroupId
  | mineGroup _ => .mineGroupId

theorem letters_mem (g : GroupRef) : g.letters ∈ Vocabulary.numberedLetters := by
  cases g <;> simp [letters, Vocabulary.numberedLetters]

/-- A group whose number is not negative is displayed as its letters and the number. -/
theorem display_eq {g : GroupRef} (h : 0 ≤ g.number) :
    g.display = Vocabulary.numbered g.letters g.number.toInt.toNat := by
  have hnumber : toString g.number = g.number.toInt.toNat.repr := by
    have hrepr : toString g.number = g.number.toInt.repr := rfl
    have hsign : 0 ≤ g.number.toInt := Int64.le_iff_toInt_le.mp h
    rw [hrepr, Int.repr_eq_if, if_pos hsign]
  have hdisplay : g.display = g.letters ++ "-" ++ toString g.number := by
    cases g <;> rfl
  rw [hdisplay, hnumber, Vocabulary.numbered]

end GroupRef

open Vocabulary

/-- A group has a spelling. -/
theorem GroupRef.spells {g : GroupRef} (h : 0 ≤ g.number) :
    Spells g.display g.kind (.integer g.number) := by
  have hnumber (letters : String) (hletters : letters ∈ numberedLetters) :
      groupNumber? letters (numbered g.letters g.number.toInt.toNat) =
        if g.letters = letters then some g.number else none := by
    by_cases hsame : g.letters = letters
    · rw [if_pos hsame, ← hsame, groupNumber?_numbered g.letters h]
    · rw [if_neg hsame]
      exact groupNumber?_of_ne hletters (mem_stems_of_letters g.letters_mem) hsame _
  rw [GroupRef.display_eq h]
  refine ⟨isCanonical_numbered (stems_apart _ (mem_stems_of_letters g.letters_mem)).1 _, ?_⟩
  simp only [known?, depositId?, factoryGroupId?, mineGroupId?, profession?_numbered,
    resource?_numbered]
  rw [hnumber "dp" (by simp [numberedLetters]), hnumber "fg" (by simp [numberedLetters]),
    hnumber "mg" (by simp [numberedLetters])]
  cases g <;> simp [letters, kind, number]

/-! ### Words as they are displayed -/

namespace Vocabulary

/-- A token that carries a material has one of the kinds for cargo. -/
theorem mem_cargoKinds_of_suits {kind : Token.Kind} {m : Material}
    (h : (Payload.material m).Suits kind) : kind ∈ Grammar.cargoKinds := by
  cases kind <;> simp [Payload.Suits, Grammar.cargoKinds] at h ⊢

/-- A token of a kind for groups carries the number of a group of that kind. -/
theorem exists_groupRef_of_suits {kind : Token.Kind} {payload : Payload}
    (hkind : kind ∈ [.depositId, .factoryGroupId, .mineGroupId]) (h : payload.Suits kind) :
    ∃ g : GroupRef, kind = g.kind ∧ payload = .integer g.number ∧ 0 ≤ g.number := by
  simp only [List.mem_cons, List.not_mem_nil, or_false] at hkind
  rcases hkind with rfl | rfl | rfl
  · obtain ⟨n, hn, rfl⟩ := h
    exact ⟨.deposit n, rfl, rfl, hn⟩
  · obtain ⟨n, hn, rfl⟩ := h
    exact ⟨.factoryGroup n, rfl, rfl, hn⟩
  · obtain ⟨n, hn, rfl⟩ := h
    exact ⟨.mineGroup n, rfl, rfl, hn⟩

/-- The material or the group that a word stands for is displayed as a word that stands for the
same, whatever alias, case and zeros the first word was written with. -/
theorem classify_display (word : String) :
    (∀ m, (classify word).2 = .material m → classify m.display = classify word) ∧
      ((classify word).1 ∈ [.depositId, .factoryGroupId, .mineGroupId] →
        ∃ g : GroupRef, classify word = (g.kind, .integer g.number) ∧
          classify g.display = classify word) := by
  have hsuits := suits_classify word
  constructor
  · intro m hm
    rw [hm] at hsuits
    have hspells := spells_material (mem_cargoKinds_of_suits hsuits) hsuits
    rw [hspells.classify_eq, ← hm]
  · intro hkind
    obtain ⟨g, hg, hnumber, hsign⟩ := exists_groupRef_of_suits hkind hsuits
    have hword : classify word = (g.kind, .integer g.number) := Prod.ext hg hnumber
    exact ⟨g, hword, (GroupRef.spells hsign).classify_eq.trans hword.symm⟩

/-- An alias with zeros before the greatest level, and the greatest number of a group. -/
theorem classify_display_greatest :
    classify "SLSU-004294967295" =
        (.product, .material ⟨"super-light-structural-unit", some 4294967295⟩) ∧
      classify "super-light-structural-unit-4294967295" = classify "SLSU-004294967295" ∧
      classify "Mg-009223372036854775807" = (.mineGroupId, .integer 9223372036854775807) ∧
      classify "mg-9223372036854775807" = classify "Mg-009223372036854775807" := by
  have hmaterial : classify "SLSU-004294967295" =
      (.product, .material ⟨"super-light-structural-unit", some 4294967295⟩) := by decide +kernel
  have hgroup : classify "Mg-009223372036854775807" =
      (.mineGroupId, .integer 9223372036854775807) := by decide +kernel
  have hlevel : Material.display ⟨"super-light-structural-unit", some 4294967295⟩ =
      "super-light-structural-unit-4294967295" := by decide +kernel
  have hnumber : (GroupRef.mineGroup 9223372036854775807).display = "mg-9223372036854775807" := by
    decide +kernel
  obtain ⟨hproduct, -⟩ := classify_display "SLSU-004294967295"
  obtain ⟨-, hnumbered⟩ := classify_display "Mg-009223372036854775807"
  obtain ⟨g, hg, hdisplay⟩ := hnumbered (by simp [hgroup])
  have hsame : g = .mineGroup 9223372036854775807 := by
    rw [hgroup] at hg
    cases g <;> simp_all [GroupRef.kind, GroupRef.number]
  rw [hsame, hnumber] at hdisplay
  exact ⟨hmaterial, hlevel ▸ hproduct _ (congrArg Prod.snd hmaterial), hgroup, hdisplay⟩

end Vocabulary

namespace Token

variable {n : UInt32}

/-- A canonical spelling is cut as one token, whatever follows that is not part of a word. -/
theorem lexes_canonical {word : String} {kind : Kind} {payload : Payload}
    (h : isCanonical word = true) (hclass : classify word = (kind, payload))
    (hkind : kind.isTrivia = false) :
    Lexes n (!isWordChar ·) word.toList [⟨n, kind, word, payload⟩] := by
  have hchars : ∀ c ∈ word.toList, isWordChar c = true := by
    intro c hc
    obtain ⟨hlow, hhigh, -⟩ := visible_of_isCanonical h hc
    exact isWordChar_of_visible hlow hhigh
  have hstart := ((Bool.and_eq_true _ _).mp h).1
  rw [← String.ofList_toList (s := word)] at hclass ⊢
  cases hword : word.toList with
  | nil =>
    rw [hword] at hstart
    cases hstart
  | cons c text =>
    rw [hword] at hstart hchars hclass
    rw [String.toList_ofList]
    exact lexes_word hstart hchars hkind hclass

end Token

end OrderFile
