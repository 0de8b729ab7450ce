import OrderFile.Proofs.Decimal.Digits
import OrderFile.Proofs.Token.Ended

/-!
What the tokens of a text carry. Numbers carry their value, quoted texts their text, words of the
vocabulary the number of a group or a canonical material, and marks nothing: `suited_of_mem_scanFrom`.
Groups have no negative numbers, and only research is called research.
-/

set_option autoImplicit false

namespace OrderFile

/-- Whether a payload is one that a token of a kind has in a text. -/
def Payload.Suits (payload : Payload) : Token.Kind → Prop
  | .eof | .eol | .comma | .parenOpen | .parenClose | .comment | .spaces => payload = .none
  | .integer | .percentage => ∃ n, payload = .integer n
  | .float => ∃ x, payload = .float x
  | .text | .quotedText => ∃ s, payload = .text s
  | .population => ∃ name ∈ Vocabulary.professions.map (·.2), payload = .material ⟨name, Option.none⟩
  | .resource => ∃ name ∈ Vocabulary.resources, payload = .material ⟨name, Option.none⟩
  | .research => ∃ level, payload = .material ⟨Material.research, level⟩
  | .product =>
    ∃ name ∈ Vocabulary.products.map (·.2), ∃ level, payload = .material ⟨name, level⟩
  | .depositId | .factoryGroupId | .mineGroupId => ∃ n : Int64, 0 ≤ n ∧ payload = .integer n

/-- Whether a token carries what its kind asks for. -/
def Token.Suited (t : Token) : Prop :=
  t.payload.Suits t.kind

/-! ### Words -/

namespace Vocabulary

/-- No group has a negative number. -/
theorem nonneg_of_groupNumber? {letters word : String} {n : Int64}
    (h : groupNumber? letters word = some n) : 0 ≤ n := by
  simp only [groupNumber?, Option.bind_eq_bind, Option.bind_eq_some_iff] at h
  obtain ⟨digits, -, value, -, hvalue⟩ := h
  rw [Int64.le_iff_toInt_le, toInt_of_int64? hvalue]
  exact Int.natCast_nonneg value

theorem mem_of_lookup {words : List (String × String)} {word name : String}
    (h : words.lookup word = some name) : (word, name) ∈ words := by
  obtain ⟨front, back, hwords, -⟩ := List.lookup_eq_some_iff.mp h
  rw [hwords]
  exact List.mem_append_right _ List.mem_cons_self

/-- A word for a profession carries its canonical name. -/
theorem suits_profession? {word : String} {m : Material} (h : profession? word = some m) :
    (Payload.material m).Suits .population := by
  obtain ⟨name, hname, rfl⟩ := Option.map_eq_some_iff.mp h
  exact ⟨name, List.mem_map_of_mem (mem_of_lookup hname), rfl⟩

theorem suits_resource? {word : String} {m : Material} (h : resource? word = some m) :
    (Payload.material m).Suits .resource := by
  obtain ⟨hmem, heq⟩ := Option.ite_none_right_eq_some.mp h
  exact ⟨word, hmem, congrArg _ (Option.some.inj heq).symm⟩

/-- A word for research carries research, with a level or without. -/
theorem suits_research? {word : String} {m : Material} (h : research? word = some m) :
    (Payload.material m).Suits .research := by
  unfold research? at h
  split at h
  · exact ⟨none, congrArg _ (Option.some.inj h).symm⟩
  · simp only [Option.bind_eq_bind, Option.bind_eq_some_iff] at h
    obtain ⟨digits, -, level, -, heq⟩ := h
    exact ⟨some level, congrArg _ (Option.some.inj heq).symm⟩

/-- A word for a product carries its canonical name, with a level or without. -/
theorem suits_product? {word : String} {m : Material} (h : product? word = some m) :
    (Payload.material m).Suits .product := by
  unfold product? at h
  split at h
  · next name hname =>
    obtain rfl := Option.some.inj h
    exact ⟨name, List.mem_map_of_mem (mem_of_lookup hname), none, rfl⟩
  · simp only [Option.bind_eq_bind, Option.bind_eq_some_iff] at h
    obtain ⟨⟨stem, suffix⟩, -, level, -, name, hname, heq⟩ := h
    obtain rfl := Option.some.inj heq
    exact ⟨name, List.mem_map_of_mem (mem_of_lookup hname), some level, rfl⟩

/-- The category of a word decides what it carries. -/
theorem suits_classify (word : String) : (classify word).2.Suits (classify word).1 := by
  rw [classify]
  cases h : known? (lowercase word) with
  | none => exact ⟨word, rfl⟩
  | some found =>
    simp only [known?, Option.orElse_eq_orElse, Option.orElse_eq_or, Option.or_eq_some_iff,
      Option.map_eq_some_iff] at h
    rcases h with ⟨m, hm, rfl⟩ | ⟨-, ⟨m, hm, rfl⟩ | ⟨-, ⟨n, hn, rfl⟩ | ⟨-, ⟨n, hn, rfl⟩ |
      ⟨-, ⟨n, hn, rfl⟩ | ⟨-, ⟨m, hm, rfl⟩ | ⟨-, m, hm, rfl⟩⟩⟩⟩⟩⟩
    · exact suits_profession? hm
    · exact suits_resource? hm
    · exact ⟨n, nonneg_of_groupNumber? hn, rfl⟩
    · exact ⟨n, nonneg_of_groupNumber? hn, rfl⟩
    · exact ⟨n, nonneg_of_groupNumber? hn, rfl⟩
    · exact suits_research? hm
    · exact suits_product? hm

end Vocabulary

/-! ### Texts -/

namespace Token

/-- What is cut as a number carries a number. -/
theorem suits_cutNumber? {text : List Char} {k : Cut} (h : cutNumber? text = some k) :
    k.payload.Suits k.kind := by
  simp only [cutNumber?, Option.filter_eq_some_iff] at h
  replace h := h.1
  split at h
  · obtain rfl := Option.some.inj h
    exact ⟨_, rfl⟩
  · split at h
    · obtain ⟨n, -, rfl⟩ := Option.map_eq_some_iff.mp h
      exact ⟨n, rfl⟩
    · obtain ⟨n, -, rfl⟩ := Option.map_eq_some_iff.mp h
      exact ⟨n, rfl⟩

theorem suits_cutWord {text : List Char} {k : Cut} (h : cutWord text = k) :
    k.payload.Suits k.kind := by
  have hword := Vocabulary.suits_classify (String.ofList (text.takeWhile isWordChar))
  rw [cutWord] at h
  generalize Vocabulary.classify (String.ofList (text.takeWhile isWordChar)) = found at *
  obtain ⟨kind, payload⟩ := found
  rw [← h]
  exact hword

/-- Whatever is cut off a text carries what its kind asks for. -/
theorem suits_cut (c : Char) (text : List Char) : (cut c text).payload.Suits (cut c text).kind := by
  unfold cut
  split
  · rfl
  split
  · rfl
  split
  · rfl
  split
  · rfl
  split
  · rfl
  split
  · exact ⟨_, rfl⟩
  split
  · rfl
  split
  · cases h : cutNumber? (c :: text) with
    | none =>
      rw [Option.getD_none]
      generalize hk : cutWord (c :: text) = k
      exact suits_cutWord hk
    | some k =>
      rw [Option.getD_some]
      exact suits_cutNumber? h
  · generalize hk : cutWord (c :: text) = k
    exact suits_cutWord hk

/-- Every token of a text carries what its kind asks for. -/
theorem suited_of_mem_scanFrom {line : UInt32} {closed : Bool} {text : List Char} :
    ∀ t ∈ scanFrom line closed text, t.Suited := by
  fun_induction scanFrom line closed text with
  | case1 line => exact List.forall_mem_singleton.mpr rfl
  | case2 line => exact List.forall_mem_cons.mpr ⟨rfl, List.forall_mem_singleton.mpr rfl⟩
  | case3 line closed c text k ih => exact List.forall_mem_cons.mpr ⟨suits_cut c text, ih⟩

theorem suited_of_mem_prepare_scan {text : List Char} : ∀ t ∈ prepare (scan text), t.Suited :=
  fun t ht ↦ suited_of_mem_scanFrom t (mem_of_mem_prepare ht)

end Token

end OrderFile
