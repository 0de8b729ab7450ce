import OrderFile.Proofs.Order.Parts

/-!
What is wrong with the orders of a token stream that is read. The grammar and the readings of
commands agree on what stands where, so no part of an order is ever missing, of the wrong kind or
too many: all that can be wrong is a value out of range.
-/

set_option autoImplicit false

namespace OrderFile

theorem Bound.outOfRange_of_mem_complaints {line : UInt32} {bounds : List Bound} {c : Complaint}
    (h : c ∈ complaints line bounds) :
    ∃ field value low high, c.problem = .outOfRange field value low high := by
  obtain ⟨b, -, -, rfl⟩ := exists_of_mem_complaints h
  exact ⟨b.field, b.value, b.low, b.high, rfl⟩

namespace Command

/-- Every complaint about a command says which field is out of which range. -/
theorem outOfRange_of_mem_complaints {line : UInt32} {command : Command} {c : Complaint}
    (h : c ∈ command.complaints line) :
    ∃ field value low high, c.problem = .outOfRange field value low high := by
  rw [complaints, List.mem_append] at h
  rcases h with hbound | hrate
  · exact Bound.outOfRange_of_mem_complaints hbound
  · cases command with
    | pay id profession rate =>
      rw [rateComplaints] at hrate
      split at hrate
      · exact Bound.outOfRange_of_mem_complaints hrate
      · cases hrate
    | _ => cases hrate

/-- Only a payment has a rate to complain about. -/
theorem rateComplaints_eq_nil {line : UInt32} {command : Command}
    (h : command.keyword? ≠ some .pay) : command.rateComplaints line = [] := by
  cases command with
  | pay => exact absurd rfl h
  | _ => rfl

end Command

/-- Whatever tokens are read, in either mode: all complaints are about values out of range, and they
are those of the orders in turn. The complaints about an order are those about its own values in the
order in which they are written, and for a pay order perhaps one about its rate. So an order other
than a pay order is valid exactly if all its values are in range. -/
theorem readTokens_complaints {tokens : List Token} {options : Options} {reading : Reading}
    (h : readTokens tokens options = .ok reading) :
    (∀ c ∈ reading.errors, ∃ field value low high,
        c.problem = .outOfRange field value low high) ∧
      reading.errors = reading.orders.flatMap (·.errors) ∧
      ∀ order ∈ reading.orders,
        order.errors =
            Bound.complaints order.line order.command.bounds ++
              order.command.rateComplaints order.line ∧
          (order.keyword? ≠ some .pay →
            order.errors = Bound.complaints order.line order.command.bounds ∧
              (order.isValid = true ↔ ∀ b ∈ order.command.bounds, b.Holds)) := by
  obtain ⟨parts, orders?, t, -, -, hparts, horders, herrors⟩ := Order.parts_of_reading h
  have hown : ∀ order ∈ reading.orders, order.errors = order.command.complaints order.line := by
    intro order horder
    rw [horders, List.reduceOption_mem_iff] at horder
    exact Order.errors_of_parts hparts horder
  refine ⟨?_, herrors, ?_⟩
  · intro c hc
    rw [herrors, List.mem_flatMap] at hc
    obtain ⟨order, horder, hc⟩ := hc
    rw [hown order horder] at hc
    exact Command.outOfRange_of_mem_complaints hc
  · intro order horder
    refine ⟨hown order horder, fun hpay ↦ ?_⟩
    have hbounds : order.errors = Bound.complaints order.line order.command.bounds := by
      rw [hown order horder, Command.complaints, Command.rateComplaints_eq_nil hpay,
        List.append_nil]
    refine ⟨hbounds, ?_⟩
    rw [Order.isValid, List.isEmpty_iff, hbounds, Bound.complaints_eq_nil_iff]

/-- The tokens of a survey order with a negative id. -/
def negativeSurvey : List Token :=
  [⟨1, .text, "survey", .text "survey"⟩, ⟨1, .integer, "-5", .integer (-5)⟩, ⟨1, .eol, "\n", .none⟩,
    ⟨2, .eof, "", .none⟩]

theorem readTokens_complaints_negativeSurvey :
    ∃ reading, readTokens negativeSurvey .standard = .ok reading ∧
      reading.errors = [⟨1, .outOfRange "id" (-5) 0 Int64.maxValue⟩] ∧
      ∀ order ∈ reading.orders, order.keyword? ≠ some .pay →
        order.errors = Bound.complaints order.line order.command.bounds ∧
          (order.isValid = true ↔ ∀ b ∈ order.command.bounds, b.Holds) := by
  have hcomputed : (readTokens negativeSurvey .standard).toOption.map (·.errors) =
      some [⟨1, .outOfRange "id" (-5) 0 Int64.maxValue⟩] := by decide +kernel
  cases hread : readTokens negativeSurvey .standard with
  | error rejection =>
    rw [hread] at hcomputed
    cases hcomputed
  | ok reading =>
    rw [hread] at hcomputed
    refine ⟨reading, rfl, Option.some.inj hcomputed, fun order horder ↦ ?_⟩
    exact ((readTokens_complaints hread).2.2 order horder).2

end OrderFile
