import OrderFile.Proofs.Order.Values
import OrderFile.Proofs.Order.Walk
import OrderFile.Proofs.Text.OneLine

/-!
Orders and complaints on one line. A command is shown on one line if the names of its materials
have no line ends, and in the tokens of a text they are names of the vocabulary:
`oneLine_of_written`. The texts of a player are shown in quotes. A complaint names its field and
says no more than numbers.
-/

set_option autoImplicit false

namespace OrderFile

open OrderFile.Tree (tokensOf)

/-! ### Numbers -/

namespace Decimal

/-- Plain notation has digits, a point and the mark of a whole number. -/
theorem oneLine_plainText {wholeMark digits : String} (hmark : OneLine wholeMark)
    (hdigits : OneLine digits) (exponent : Int) :
    OneLine (plainText wholeMark digits exponent) := by
  have hzeros (n : Nat) : '\n' ∉ List.replicate n '0' := fun hmem ↦
    absurd (List.eq_of_mem_replicate hmem) (by decide)
  unfold plainText
  split
  · rw [oneLine_append_iff, OneLine, String.toList_ofList, List.mem_append, not_or]
    exact ⟨⟨hdigits, hzeros _⟩, hmark⟩
  · rw [OneLine, String.toList_ofList, List.mem_append, List.mem_cons]
    have hpadded (n : Nat) : '\n' ∉ List.replicate n '0' ++ digits.toList := fun hmem ↦
      (List.mem_append.mp hmem).elim (hzeros n) hdigits
    rintro (hfront | hpoint | hback)
    · exact hpadded _ (List.mem_of_mem_take hfront)
    · cases hpoint
    · exact hpadded _ (List.mem_of_mem_drop hback)

/-- A decimal number is written on one line. -/
theorem oneLine_write (d : Decimal) : OneLine (listing.write d) := by
  have hdigits : OneLine (String.ofList (Nat.toDigits 10 d.coefficient)) := by
    rw [OneLine, String.toList_ofList]
    exact newline_not_mem_toDigits (by decide) (by decide) _
  have hmark : OneLine listing.wholeMark := by decide
  exact oneLine_plainText hmark hdigits d.exponent

@[simp] theorem oneLine_display (x : Float) : OneLine (display x) := by
  have hsign : OneLine (if x.toBits >>> 63 = 1 then "-" else "") := by
    split <;> decide
  rw [display, Layout.text?]
  generalize (if x.toBits >>> 63 = 1 then "-" else "") = sign at hsign ⊢
  by_cases hnan : x.isNaN = true
  · rw [if_pos hnan]
    decide
  by_cases hinf : x.isInf = true
  · rw [if_neg hnan, if_pos hinf]
    exact oneLine_append_iff.mpr ⟨hsign, by decide⟩
  · rw [if_neg hnan, if_neg hinf]
    exact oneLine_append_iff.mpr ⟨hsign, oneLine_write _⟩

end Decimal

/-! ### Values of commands -/

@[simp] theorem GroupRef.oneLine_display (group : GroupRef) : OneLine group.display := by
  cases group <;> exact oneLine_append_iff.mpr ⟨by decide, oneLine_toString_int64 _⟩

/-- A place is shown on one line. -/
@[simp] theorem Coordinates.oneLine_display (place : Coordinates) : OneLine place.display := by
  have hnumbers (numbers : List Int64) :
      OneLine (String.intercalate "," (numbers.map toString)) := by
    refine oneLine_intercalate (by decide) ?_
    rw [List.forall_mem_map]
    exact fun n _ ↦ oneLine_toString_int64 n
  rw [display, oneLine_append_iff, oneLine_append_iff]
  exact ⟨⟨by decide, hnumbers _⟩, by decide⟩

@[simp] theorem ProbeTarget.oneLine_display (target : ProbeTarget) : OneLine target.display := by
  cases target with
  | orbit n => exact oneLine_toString_int64 n
  | system location => exact location.oneLine_display

/-- A material is shown on one line if its name is. -/
theorem Material.oneLine_display {m : Material} (h : OneLine m.name) : OneLine m.display := by
  unfold display
  split
  · exact h
  · rw [oneLine_append_iff, oneLine_append_iff]
    refine ⟨⟨?_, by decide⟩, oneLine_toString_uint32 _⟩
    split
    · decide
    · exact h

/-- The materials that tokens carry have names of the vocabulary. -/
theorem Material.oneLine_name_of_suits {m : Material} {kind : Token.Kind}
    (h : (Payload.material m).Suits kind) : OneLine m.name := by
  have hprofessions : ∀ name ∈ Vocabulary.professions.map (·.2), OneLine name := by decide
  have hresources : ∀ name ∈ Vocabulary.resources, OneLine name := by decide
  have hproducts : ∀ name ∈ Vocabulary.products.map (·.2), OneLine name := by decide
  cases kind with
  | population =>
    obtain ⟨name, hname, heq⟩ := h
    obtain rfl := Payload.material.inj heq
    exact hprofessions name hname
  | resource =>
    obtain ⟨name, hname, heq⟩ := h
    obtain rfl := Payload.material.inj heq
    exact hresources name hname
  | research =>
    obtain ⟨level, heq⟩ := h
    obtain rfl := Payload.material.inj heq
    exact (by decide : OneLine research)
  | product =>
    obtain ⟨name, hname, level, heq⟩ := h
    obtain rfl := Payload.material.inj heq
    exact hproducts name hname
  | _ => simp [Payload.Suits] at h

/-! ### Commands -/

theorem Keyword.oneLine_word (k : Keyword) : OneLine k.word := by
  cases k <;> decide

theorem SetupKind.oneLine_word (kind : SetupKind) : OneLine kind.word := by
  cases kind <;> decide

namespace Command

@[simp] theorem oneLine_percent (pct : Int64) : OneLine (percent pct) :=
  oneLine_append_iff.mpr ⟨oneLine_toString_int64 pct, by decide⟩

/-- An optional operand is no word or one word without line ends. -/
theorem oneLine_of_mem_optional {α : Type} {display : α → String} (h : ∀ a, OneLine (display a))
    {operand : Option α} {word : String} (hword : word ∈ (operand.map display).toList) :
    OneLine word := by
  rw [Option.mem_toList, Option.map_eq_some_iff] at hword
  obtain ⟨a, -, rfl⟩ := hword
  exact h a

/-- A trade is told in words on one line each if its material is. -/
theorem oneLine_tradeWords {quantity : Int64} {material : Material}
    (h : OneLine material.display) : ∀ word ∈ tradeWords quantity material, OneLine word := by
  rw [tradeWords, List.forall_mem_cons]
  refine ⟨h, ?_⟩
  split <;> simp

/-- The line of a setup order in a display. -/
theorem oneLine_transferWord {quantity : Int64} {material : Material}
    (h : OneLine material.display) :
    OneLine ("[" ++ toString quantity ++ " " ++ material.display ++ "]") := by
  simp only [oneLine_append_iff]
  exact ⟨⟨⟨⟨by decide, oneLine_toString_int64 quantity⟩, by decide⟩, h⟩, by decide⟩

/-- The words of a command have no line ends if its materials have none. -/
theorem oneLine_operandWords {command : Command}
    (h : ∀ m, .material m ∈ command.values → OneLine m.display) :
    ∀ word ∈ command.operandWords, OneLine word := by
  cases command with
  | assemble id group quantity material | disassemble id group quantity material =>
    have hmaterial : OneLine material.display := h material (by simp [values])
    rw [operandWords, List.forall_mem_append, List.forall_mem_append]
    exact ⟨⟨by simp, fun word ↦ oneLine_of_mem_optional GroupRef.oneLine_display⟩,
      by simp [hmaterial]⟩
  | buy id quantity material price | sell id quantity material price =>
    have hmaterial : OneLine material.display := h material (by simp [values, tradeValues])
    rw [operandWords, List.forall_mem_append, List.forall_mem_append]
    exact ⟨⟨by simp, oneLine_tradeWords hmaterial⟩, by simp⟩
  | news location article signature =>
    rw [operandWords, List.forall_mem_append]
    exact ⟨by simp, fun word ↦ oneLine_of_mem_optional oneLine_quote⟩
  | pay id profession rate =>
    have hprofession : OneLine profession.display := h profession (by simp [values])
    rw [operandWords, List.forall_mem_append]
    exact ⟨fun word ↦ oneLine_of_mem_optional oneLine_toString_int64, by simp [hprofession]⟩
  | probe id target =>
    rw [operandWords, List.forall_mem_append]
    exact ⟨by simp, fun word ↦ oneLine_of_mem_optional ProbeTarget.oneLine_display⟩
  | ration id pct =>
    rw [operandWords, List.forall_mem_append]
    exact ⟨fun word ↦ oneLine_of_mem_optional oneLine_toString_int64, by simp⟩
  | setup id location kind items =>
    have hitem : ∀ item ∈ items, OneLine item.material.display := fun item hmem ↦
      h item.material (by
        rw [values, List.mem_cons, List.mem_append, List.mem_flatMap]
        exact .inr (.inr ⟨item, hmem, by simp [TransferItem.values]⟩))
    have htransfer : OneLine "transfer" := by decide
    rw [operandWords, List.forall_mem_append, List.forall_mem_map]
    exact ⟨by simp [htransfer, kind.oneLine_word], fun item hmem ↦
      oneLine_transferWord (hitem item hmem)⟩
  | _ => simp_all [operandWords, values]

/-- A command is shown on one line if its materials have no line ends. -/
theorem oneLine_display {command : Command}
    (h : ∀ m, .material m ∈ command.values → OneLine m.display) : OneLine command.display := by
  refine oneLine_intercalate (by decide) ?_
  rw [List.forall_mem_cons]
  refine ⟨?_, oneLine_operandWords h⟩
  cases command.keyword? with
  | none => decide
  | some k => exact k.oneLine_word

/-- Every value that trees carry comes from one of their tokens. -/
theorem Carries.exists_from {trees : List Tree} {values : List Value} {v : Value}
    (h : Carries trees values) (hv : v ∈ values) : ∃ t ∈ tokensOf trees, Value.From t v := by
  obtain ⟨hlength, hvalues⟩ := List.forall₂_iff_get.mp h
  obtain ⟨i, hi, rfl⟩ := List.mem_iff_getElem.mp hv
  have hlt := hlength ▸ hi
  exact ⟨_, List.mem_of_mem_filter (List.getElem_mem hlt), hvalues i hlt hi⟩

/-- A command that is written out in tokens of a text is shown on one line. -/
theorem oneLine_of_written {children : List Tree} {command : Command}
    (h : command.Written children) (hs : ∀ t ∈ tokensOf children, t.Suited) :
    OneLine command.display := by
  refine oneLine_display fun m hm ↦ ?_
  obtain ⟨t, ht, -, hpayload⟩ := (carries_of_written h hs).exists_from hm
  have hsuits := hs t ht
  rw [Token.Suited, hpayload] at hsuits
  exact Material.oneLine_display (Material.oneLine_name_of_suits hsuits)

end Command

/-! ### Complaints -/

/-- A value out of range is told by the name of its field and numbers. -/
theorem Complaint.oneLine_message {field : String} (h : OneLine field) (line : UInt32)
    (value min max : Int64) : OneLine (message ⟨line, .outOfRange field value min max⟩) := by
  have hmessage : message ⟨line, .outOfRange field value min max⟩ =
      "line " ++ toString line ++ ": " ++ (field ++ " " ++ toString value ++ " out of range " ++
        toString min ++ "..=" ++ toString max) := rfl
  have hspace : OneLine " " := by decide
  have hrange : OneLine " out of range " := by decide
  have hdots : OneLine "..=" := by decide
  have hline : OneLine "line " := by decide
  have hcolon : OneLine ": " := by decide
  rw [hmessage]
  simp only [oneLine_append_iff, oneLine_toString_uint32, oneLine_toString_int64, hline, hcolon,
    hspace, hrange, hdots, h, and_self]

/-- A value out of its range is told of on one line if the name of its field is. -/
theorem Bound.oneLine_message_of_mem {line : UInt32} {bounds : List Bound} {c : Complaint}
    (hfields : ∀ b ∈ bounds, OneLine b.field) (h : c ∈ complaints line bounds) :
    OneLine c.message := by
  obtain ⟨b, hb, -, rfl⟩ := exists_of_mem_complaints h
  exact Complaint.oneLine_message (hfields b hb) line b.value b.low b.high

namespace Command

/-- The fields of commands are named on one line. -/
theorem oneLine_field_of_mem_bounds (command : Command) :
    ∀ b ∈ command.bounds, OneLine b.field := by
  cases command with
  | probe id target =>
    rcases target with - | n | location <;>
      simp +decide [bounds, Bound.natural, Bound.orbit]
  | ration id pct =>
    have hfield : OneLine "id" := by decide
    rw [bounds, List.forall_mem_append, List.forall_mem_map]
    exact ⟨fun _ _ ↦ hfield, by simp +decide [Bound.percentage]⟩
  | _ => simp +decide [bounds, Bound.natural, Bound.percentage]

/-- What is wrong with a command is said on one line. -/
theorem oneLine_message_of_mem {line : UInt32} {command : Command} {c : Complaint}
    (h : c ∈ command.complaints line) : OneLine c.message := by
  rw [complaints, List.mem_append] at h
  rcases h with hbound | hrate
  · exact Bound.oneLine_message_of_mem command.oneLine_field_of_mem_bounds hbound
  · cases command with
    | pay id profession rate =>
      have hfield : ∀ b ∈ [Bound.natural "rate" rate.floor.toInt64], OneLine b.field := by
        simp +decide [Bound.natural]
      rw [rateComplaints] at hrate
      split at hrate
      · exact Bound.oneLine_message_of_mem hfield hrate
      · cases hrate
    | _ => cases hrate

end Command

end OrderFile
