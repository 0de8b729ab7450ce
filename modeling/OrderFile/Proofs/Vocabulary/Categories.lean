import OrderFile.Proofs.Token.Canonical

/-!
The categories of the vocabulary. A category accepts some names as they are, and some stems with a
number after a hyphen. No name ends with a digit, no stem can be told from the word in two ways, and
no two categories share a name or a stem. So a word belongs to one category at most, whatever the
order in which the categories are tried, and a product's word stands for one line of the table:
`classify_unambiguous`.
-/

set_option autoImplicit false

namespace OrderFile.Vocabulary

/-- What a word of the vocabulary stands for. -/
inductive Category where
  | population
  | resource
  | depositId
  | factoryGroupId
  | mineGroupId
  | research
  | product
  deriving DecidableEq

namespace Category

/-- Every category, in the order in which they are tried. -/
def all : List Category :=
  [population, resource, depositId, factoryGroupId, mineGroupId, research, product]

theorem mem_all (c : Category) : c ∈ all := by
  cases c <;> decide

/-- The kind and value of a word, if the category accepts it. -/
def read? (word : String) : Category → Option (Token.Kind × Payload)
  | population => (profession? word).map (fun m ↦ (.population, .material m))
  | resource => (resource? word).map (fun m ↦ (.resource, .material m))
  | depositId => (depositId? word).map (fun n ↦ (.depositId, .integer n))
  | factoryGroupId => (factoryGroupId? word).map (fun n ↦ (.factoryGroupId, .integer n))
  | mineGroupId => (mineGroupId? word).map (fun n ↦ (.mineGroupId, .integer n))
  | research => (research? word).map (fun m ↦ (.research, .material m))
  | product => (product? word).map (fun m ↦ (.product, .material m))

/-- The words that a category accepts as they are. -/
def names : Category → List String
  | population => professions.map (·.1)
  | resource => resources
  | research => [Material.research]
  | product => products.map (·.1)
  | depositId | factoryGroupId | mineGroupId => []

/-- The words that a category accepts with a number after them. -/
def stems : Category → List String
  | depositId => ["dp"]
  | factoryGroupId => ["fg"]
  | mineGroupId => ["mg"]
  | research => ["tl"]
  | product => products.map (·.1)
  | population | resource => []

end Category

/-- A word is known by the first category that reads it. -/
theorem known?_eq_findSome? (word : String) :
    known? word = Category.all.findSome? (Category.read? word) := by
  have hcons (c : Category) (order : List Category) :
      (c :: order).findSome? (Category.read? word) =
        (c.read? word).or (order.findSome? (Category.read? word)) := by
    rw [List.findSome?_cons]
    cases c.read? word <;> rfl
  simp only [known?, Category.all, hcons, List.findSome?_nil, Option.or_none, Category.read?,
    Option.orElse_eq_orElse, Option.orElse_eq_or]

/-! ### Words with a number -/

/-- Whether a word is a stem, a hyphen and one or more digits. -/
def IsNumbered (stem : String) (digits : List Char) (word : String) : Prop :=
  digits ≠ [] ∧ (∀ d ∈ digits, d.isDigit = true) ∧ word.toList = (stem ++ "-").toList ++ digits

section

variable {stem other word : String} {digits others : List Char}

/-- A word with a number is split before its digits. -/
theorem IsNumbered.splitAtLast? (h : IsNumbered stem digits word) :
    splitAtLast? '-' word.toList = some (stem.toList, digits) := by
  obtain ⟨-, hdigits, hword⟩ := h
  have hhyphen : '-' ∉ digits := fun hmem ↦ absurd (hdigits _ hmem) (by decide)
  rw [hword, toList_append_hyphen, List.append_assoc, List.singleton_append,
    splitAtLast?_append hhyphen]

/-- A stem and its digits can be told from the word. -/
theorem IsNumbered.unique (h : IsNumbered stem digits word)
    (hother : IsNumbered other others word) : stem = other ∧ digits = others := by
  have hsame := Option.some.inj (h.splitAtLast?.symm.trans hother.splitAtLast?)
  obtain ⟨hstem, hdigits⟩ := Prod.mk.inj hsame
  exact ⟨String.toList_injective hstem, hdigits⟩

theorem IsNumbered.endsWithDigit (h : IsNumbered stem digits word) :
    endsWithDigit word = true := by
  obtain ⟨hne, hdigits, hword⟩ := h
  rw [Vocabulary.endsWithDigit, hword, List.getLast?_append_of_ne_nil _ hne,
    List.getLast?_eq_some_getLast hne]
  exact hdigits _ (List.getLast_mem hne)

/-- A tech level is one digit or more, and stands for their value. -/
theorem techLevel?_eq_some_iff {level : UInt32} :
    techLevel? digits = some level ↔
      digits ≠ [] ∧ (∀ d ∈ digits, d.isDigit = true) ∧ digitsValue digits = level.toNat := by
  simp only [techLevel?, Option.bind_eq_some_iff, uint32?_eq_some_iff]
  constructor
  · rintro ⟨n, hn, rfl⟩
    exact numeral?_eq_some_iff.mp hn
  · intro h
    exact ⟨level.toNat, numeral?_eq_some_iff.mpr h, rfl⟩

/-- A word for a group is its letters with a number. -/
theorem isNumbered_of_groupNumber? {letters : String} {n : Int64}
    (h : groupNumber? letters word = some n) : ∃ digits, IsNumbered letters digits word := by
  simp only [groupNumber?, Option.bind_eq_bind, Option.bind_eq_some_iff] at h
  obtain ⟨digits, hfront, value, hvalue, -⟩ := h
  obtain ⟨hne, hdigits, -⟩ := numeral?_eq_some_iff.mp hvalue
  exact ⟨digits, hne, hdigits, (List.append_eq_of_isPrefixOf?_eq_some hfront).symm⟩

/-- A word for research is the name or the letters for it with a number. -/
theorem accepts_of_research? {m : Material} (h : research? word = some m) :
    word = Material.research ∨ ∃ digits, IsNumbered "tl" digits word := by
  unfold research? at h
  split at h
  · next hword => exact .inl hword
  · simp only [Option.bind_eq_bind, Option.bind_eq_some_iff] at h
    obtain ⟨digits, hfront, level, hlevel, -⟩ := h
    obtain ⟨hne, hdigits, -⟩ := techLevel?_eq_some_iff.mp hlevel
    exact .inr ⟨digits, hne, hdigits, (List.append_eq_of_isPrefixOf?_eq_some hfront).symm⟩

end

/-! ### Products -/

/-- Whether a word stands for a line of the table of products: by itself, or with a level after a
hyphen. -/
def NamesProduct (word : String) (entry : String × String) : Option UInt32 → Prop
  | none => word = entry.1
  | some level => ∃ digits, IsNumbered entry.1 digits word ∧ digitsValue digits = level.toNat

section

variable {word : String}

theorem lookup_products {entry : String × String} (h : entry ∈ products) :
    products.lookup entry.1 = some entry.2 := by
  revert entry
  decide +kernel

/-- A word is a product exactly if it names a line of the table, with a level or without. -/
theorem product?_eq_some_iff {m : Material} :
    product? word = some m ↔
      ∃ entry ∈ products, ∃ level?, NamesProduct word entry level? ∧ m = ⟨entry.2, level?⟩ := by
  constructor
  · intro h
    unfold product? at h
    split at h
    · next name hname =>
      exact ⟨(word, name), mem_of_lookup hname, none, rfl, (Option.some.inj h).symm⟩
    · simp only [Option.bind_eq_bind, Option.bind_eq_some_iff] at h
      obtain ⟨⟨stem, suffix⟩, hsplit, level, hlevel, name, hname, heq⟩ := h
      obtain ⟨hne, hdigits, hvalue⟩ := techLevel?_eq_some_iff.mp hlevel
      refine ⟨(String.ofList stem, name), mem_of_lookup hname, some level,
        ⟨suffix, ⟨hne, hdigits, ?_⟩, hvalue⟩, (Option.some.inj heq).symm⟩
      rw [toList_append_hyphen, String.toList_ofList, List.append_assoc, List.singleton_append,
        append_eq_of_splitAtLast? hsplit]
  · rintro ⟨entry, hentry, level?, hnames, rfl⟩
    cases level? with
    | none =>
      rw [NamesProduct] at hnames
      rw [product?, hnames, lookup_products hentry]
    | some level =>
      obtain ⟨digits, hword, hvalue⟩ := hnames
      have hlookup : products.lookup word = none := by
        refine lookup_of_not_mem fun hmem ↦ ?_
        exact Bool.false_ne_true ((endsWithDigit_words.2.2.1 _ hmem).symm.trans hword.endsWithDigit)
      have hlevel : techLevel? digits = some level :=
        techLevel?_eq_some_iff.mpr ⟨hword.1, hword.2.1, hvalue⟩
      rw [product?, hlookup, hword.splitAtLast?]
      simp only [Option.bind_eq_bind, Option.bind_some, hlevel, String.ofList_toList,
        lookup_products hentry]
      rfl

end

/-! ### One category at most -/

namespace Category

/-- What a category accepts is one of its names, or one of its stems with a number. -/
theorem cases_of_isSome {c : Category} {word : String} (h : (c.read? word).isSome = true) :
    word ∈ c.names ∨ ∃ stem ∈ c.stems, ∃ digits, IsNumbered stem digits word := by
  have hgroup {letters : String} {n : Int64} (hn : groupNumber? letters word = some n) :
      ∃ stem ∈ [letters], ∃ digits, IsNumbered stem digits word :=
    ⟨letters, List.mem_singleton_self _, isNumbered_of_groupNumber? hn⟩
  obtain ⟨found, hfound⟩ := Option.isSome_iff_exists.mp h
  cases c with
  | population =>
    obtain ⟨m, hm, -⟩ := Option.map_eq_some_iff.mp hfound
    obtain ⟨name, hname, -⟩ := Option.map_eq_some_iff.mp hm
    exact .inl (List.mem_map_of_mem (mem_of_lookup hname))
  | resource =>
    obtain ⟨m, hm, -⟩ := Option.map_eq_some_iff.mp hfound
    exact .inl (Option.ite_none_right_eq_some.mp hm).1
  | depositId =>
    obtain ⟨n, hn, -⟩ := Option.map_eq_some_iff.mp hfound
    exact .inr (hgroup hn)
  | factoryGroupId =>
    obtain ⟨n, hn, -⟩ := Option.map_eq_some_iff.mp hfound
    exact .inr (hgroup hn)
  | mineGroupId =>
    obtain ⟨n, hn, -⟩ := Option.map_eq_some_iff.mp hfound
    exact .inr (hgroup hn)
  | research =>
    obtain ⟨m, hm, -⟩ := Option.map_eq_some_iff.mp hfound
    rcases accepts_of_research? hm with rfl | hlevel
    · exact .inl (List.mem_singleton_self _)
    · exact .inr ⟨"tl", List.mem_singleton_self _, hlevel⟩
  | product =>
    obtain ⟨m, hm, -⟩ := Option.map_eq_some_iff.mp hfound
    obtain ⟨entry, hentry, level?, hnames, -⟩ := product?_eq_some_iff.mp hm
    cases level? with
    | none => exact .inl (List.mem_map.mpr ⟨entry, hentry, hnames.symm⟩)
    | some level =>
      obtain ⟨digits, hword, -⟩ := hnames
      exact .inr ⟨entry.1, List.mem_map_of_mem hentry, digits, hword⟩

/-- No name of a category ends with a digit, and no two categories share a name or a stem. -/
theorem names_stems_apart :
    (∀ c ∈ all, ∀ name ∈ c.names, endsWithDigit name = false) ∧
      ∀ c ∈ all, ∀ d ∈ all, c ≠ d →
        (∀ name ∈ c.names, name ∉ d.names) ∧ ∀ stem ∈ c.stems, stem ∉ d.stems := by
  decide +kernel

/-- No name of a category ends with a digit. -/
theorem endsWithDigit_of_mem_names {c : Category} {name : String} (h : name ∈ c.names) :
    endsWithDigit name = false :=
  names_stems_apart.1 c c.mem_all name h

/-- No two categories accept the same word. -/
theorem eq_of_isSome {c d : Category} {word : String} (hc : (c.read? word).isSome = true)
    (hd : (d.read? word).isSome = true) : c = d := by
  by_contra hne
  obtain ⟨hnames, hstems⟩ := names_stems_apart.2 c c.mem_all d d.mem_all hne
  have hnumber {e : Category} {stem : String} {digits : List Char} (hname : word ∈ e.names)
      (hword : IsNumbered stem digits word) : False :=
    Bool.false_ne_true ((endsWithDigit_of_mem_names hname).symm.trans hword.endsWithDigit)
  rcases cases_of_isSome hc with hname | ⟨stem, hstem, digits, hword⟩
  · rcases cases_of_isSome hd with hother | ⟨_, -, _, hother⟩
    · exact hnames word hname hother
    · exact hnumber hname hother
  · rcases cases_of_isSome hd with hother | ⟨other, hmem, others, hother⟩
    · exact hnumber hother hword
    · obtain ⟨rfl, -⟩ := hword.unique hother
      exact hstems stem hstem hmem

/-- In whatever order the categories are tried, the same one accepts a word. -/
theorem findSome?_eq_known? {order : List Category} (h : ∀ c, c ∈ order) (word : String) :
    order.findSome? (read? word) = known? word := by
  have hsome {order : List Category} (h : ∀ c, c ∈ order) (found : Token.Kind × Payload) :
      order.findSome? (read? word) = some found ↔ ∃ c : Category, c.read? word = some found := by
    constructor
    · intro hfound
      obtain ⟨c, -, hc⟩ := List.exists_of_findSome?_eq_some hfound
      exact ⟨c, hc⟩
    · rintro ⟨c, hc⟩
      obtain ⟨first, hfirst⟩ : ∃ first, order.findSome? (read? word) = some first :=
        Option.isSome_iff_exists.mp (List.findSome?_isSome_iff.mpr ⟨c, h c, by rw [hc]; rfl⟩)
      obtain ⟨d, -, hd⟩ := List.exists_of_findSome?_eq_some hfirst
      obtain rfl : c = d := eq_of_isSome (by rw [hc]; rfl) (by rw [hd]; rfl)
      rw [hfirst, ← hd, hc]
  rw [known?_eq_findSome?]
  exact Option.ext fun found ↦ (hsome h found).trans (hsome mem_all found).symm

end Category

/-! ### One line of the table at most -/

theorem eq_of_fst_eq {entry other : String × String} (hentry : entry ∈ products)
    (hother : other ∈ products) (h : entry.1 = other.1) : entry = other := by
  have hname := lookup_products hentry
  rw [h, lookup_products hother] at hname
  exact Prod.ext h (Option.some.inj hname).symm

section

variable {word : String} {entry other : String × String} {level? otherLevel? : Option UInt32}

/-- A product's name by itself is no product's name with a level. -/
theorem not_isNumbered_of_mem_products (hentry : entry ∈ products) {stem : String}
    {digits : List Char} : ¬ IsNumbered stem digits entry.1 := by
  intro hword
  have hname := endsWithDigit_words.2.2.1 entry.1 (List.mem_map_of_mem hentry)
  exact Bool.false_ne_true (hname.symm.trans hword.endsWithDigit)

/-- A word names one line of the table at most, in one way. -/
theorem NamesProduct.unique (hentry : entry ∈ products) (hother : other ∈ products)
    (h : NamesProduct word entry level?) (h' : NamesProduct word other otherLevel?) :
    entry = other ∧ level? = otherLevel? := by
  cases level? with
  | none =>
    obtain rfl : word = entry.1 := h
    cases otherLevel? with
    | none => exact ⟨eq_of_fst_eq hentry hother h', rfl⟩
    | some level =>
      obtain ⟨digits, hword, -⟩ := h'
      exact absurd hword (not_isNumbered_of_mem_products hentry)
  | some level =>
    obtain ⟨digits, hword, hvalue⟩ := h
    cases otherLevel? with
    | none =>
      obtain rfl : word = other.1 := h'
      exact absurd hword (not_isNumbered_of_mem_products hother)
    | some otherLevel =>
      obtain ⟨others, hword', hvalue'⟩ := h'
      obtain ⟨hstem, rfl⟩ := hword.unique hword'
      have hlevel : level = otherLevel := UInt32.toNat_inj.mp (hvalue.symm.trans hvalue')
      exact ⟨eq_of_fst_eq hentry hother hstem, congrArg some hlevel⟩

end

/-- The words of the vocabulary have one meaning. No two categories accept the lowercase form of a
word, so that it is the same whatever order they are tried in. What a word means as a product is
what a line of the table says, with the level after the name if there is one; no word stands for two
lines or two levels, and no name in the table is another one with a level. -/
theorem classify_unambiguous (word : String) :
    (∀ c d : Category, (c.read? (lowercase word)).isSome = true →
        (d.read? (lowercase word)).isSome = true → c = d) ∧
      (∀ order : List Category, (∀ c, c ∈ order) →
        classify word =
          (order.findSome? (Category.read? (lowercase word))).getD (.text, .text word)) ∧
      (∀ m, product? word = some m ↔
        ∃ entry ∈ products, ∃ level?, NamesProduct word entry level? ∧ m = ⟨entry.2, level?⟩) ∧
      (∀ entry ∈ products, ∀ other ∈ products, ∀ level? otherLevel?,
        NamesProduct word entry level? → NamesProduct word other otherLevel? →
          entry = other ∧ level? = otherLevel?) ∧
      (word ∈ products.map (·.1) →
        ∀ entry ∈ products, ∀ level, ¬ NamesProduct word entry (some level)) := by
  refine ⟨fun c d ↦ Category.eq_of_isSome, fun order horder ↦ ?_, fun m ↦ product?_eq_some_iff,
    fun entry hentry other hother level? otherLevel? ↦ NamesProduct.unique hentry hother, ?_⟩
  · rw [classify, Category.findSome?_eq_known? horder]
  · rintro hmem entry hentry level ⟨digits, hword, -⟩
    obtain ⟨other, hother, rfl⟩ := List.mem_map.mp hmem
    exact not_isNumbered_of_mem_products hother hword

end OrderFile.Vocabulary
