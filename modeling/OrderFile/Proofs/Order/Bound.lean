import OrderFile.Order

/-!
The values of a command that have a range, and the complaints about those that lie outside of it.
-/

set_option autoImplicit false

namespace OrderFile

/-- A value of a command, with the name of its field and the range it should lie in. -/
structure Bound where
  field : String
  value : Int64
  low : Int64
  high : Int64

namespace Bound

def Holds (b : Bound) : Prop :=
  b.low ≤ b.value ∧ b.value ≤ b.high

instance (b : Bound) : Decidable b.Holds :=
  inferInstanceAs (Decidable (_ ∧ _))

/-- A value that should not be negative. -/
def natural (field : String) (value : Int64) : Bound :=
  ⟨field, value, 0, Int64.maxValue⟩

def percentage (field : String) (value : Int64) : Bound :=
  ⟨field, value, 0, 100⟩

def orbit (value : Int64) : Bound :=
  ⟨"orbit", value, 0, maxOrbit⟩

def complaint (line : UInt32) (b : Bound) : Complaint :=
  ⟨line, .outOfRange b.field b.value b.low b.high⟩

/-- The complaints about the values that are out of range, in order. -/
def complaints (line : UInt32) (bounds : List Bound) : List Complaint :=
  (bounds.filter (¬ ·.Holds)).map (complaint line)

@[simp] theorem complaints_nil (line : UInt32) : complaints line [] = [] := rfl

/-- Values in a row are complained about in a row. -/
@[simp] theorem complaints_append_complaints (line : UInt32) (first second : List Bound) :
    complaints line first ++ complaints line second = complaints line (first ++ second) := by
  rw [complaints, complaints, complaints, List.filter_append, List.map_append]

/-- There is nothing to complain about exactly if every value is in its range. -/
theorem complaints_eq_nil_iff (line : UInt32) (bounds : List Bound) :
    complaints line bounds = [] ↔ ∀ b ∈ bounds, b.Holds := by
  simp [complaints, List.filter_eq_nil_iff]

/-- A complaint is about a value out of its range. -/
theorem exists_of_mem_complaints {line : UInt32} {bounds : List Bound} {c : Complaint}
    (h : c ∈ complaints line bounds) : ∃ b ∈ bounds, ¬ b.Holds ∧ c = b.complaint line := by
  obtain ⟨b, hb, rfl⟩ := List.mem_map.mp h
  rw [List.mem_filter, decide_eq_true_eq] at hb
  exact ⟨b, hb.1, hb.2, rfl⟩

end Bound

namespace Command

/-- The values of a command that have a range, in the order in which the command is written. The
quantity of traded research is one, and places have no range: a place with an orbit that does not
exist is no place. -/
def bounds : Command → List Bound
  | assemble id _ quantity _ | disassemble id _ quantity _ | buy id quantity _ _
  | sell id quantity _ _ =>
    [.natural "id" id, .natural "quantity" quantity]
  | bombard id targetId pct | invade id targetId pct | raid id targetId pct _ =>
    [.natural "id" id, .natural "target_id" targetId, .percentage "pct_committed" pct]
  | move id _ | name id _ | retool id _ _ | survey id => [.natural "id" id]
  | news .. | unknown _ => []
  | pay id _ _ => id.toList.map (.natural "id")
  | probe id none | probe id (some (.system _)) => [.natural "id" id]
  | probe id (some (.orbit n)) => [.natural "id" id, .orbit n]
  | ration id pct => id.toList.map (.natural "id") ++ [.percentage "pct" pct]
  | setup id _ _ items => .natural "id" id :: items.map (.natural "quantity" ·.quantity)
  | supportAttack id supportId targetId pct =>
    [.natural "id" id, .natural "support_id" supportId, .natural "target_id" targetId,
      .percentage "pct_committed" pct]
  | supportDefend id supportId pct =>
    [.natural "id" id, .natural "support_id" supportId, .percentage "pct_committed" pct]
  | transfer id quantity _ targetId =>
    [.natural "id" id, .natural "quantity" quantity, .natural "target_id" targetId]

end Command

end OrderFile
