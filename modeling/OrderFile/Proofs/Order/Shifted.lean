import OrderFile.Proofs.Grammar.Shifted
import OrderFile.Proofs.Order.Reworded

/-!
Orders that are moved down. Moving tokens down is a change that keeps every text, so a part of a
file that is moved down comes to the same order, on a line that is moved down and with complaints
that are: `parts_shift`.
-/

set_option autoImplicit false

namespace OrderFile

/-- The complaint as it stands after a number of lines. -/
def Complaint.shift (n : UInt32) (c : Complaint) : Complaint :=
  { c with line := c.line + n }

/-- The order as it stands after a number of lines. -/
def Order.shift (n : UInt32) (order : Order) : Order :=
  ⟨order.line + n, order.errors.map (Complaint.shift n), order.command⟩

/-- Moving tokens down keeps every text and moves the lines. -/
theorem Token.retells_shift (n : UInt32) : Retells (shift n) id (· + n) where
  toRewords := rewords_shift n
  line _ := rfl
  number? _ := rfl
  material _ _ := rfl
  text? t _ := (congrFun Option.map_id t.text?).symm
  said_empty := rfl

theorem Command.mapText_id (command : Command) : command.mapText id = command := by
  cases command <;> simp [mapText]

/-- Complaints about an order move down with it. -/
theorem Command.complaints_shift {n : UInt32} (line : UInt32) (command : Command) :
    command.complaints (line + n) = (command.complaints line).map (Complaint.shift n) := by
  have hmoved := @complaints_mapText id (· + n) line command
  rwa [mapText_id] at hmoved

namespace Order

/-- Moving an order down is telling it with the same texts on a later line. -/
theorem shift_eq_retell (n : UInt32) : shift n = retell id (· + n) := by
  funext order
  rw [shift, retell, Command.mapText_id]
  rfl

/-- Parts of a file that are moved down come to the same orders, moved down. -/
theorem parts_shift {n : UInt32} {parts : List Tree} {orders? : List (Option Order)}
    (h : List.Forall₂ Part parts orders?) :
    List.Forall₂ Part (parts.map (Tree.shift n)) (orders?.map (Option.map (shift n))) := by
  have hf := Token.retells_shift n
  rw [funext (Tree.shift_eq_map n), shift_eq_retell]
  refine parts_map hf h fun part _ _ ↦ ?_
  rw [unknownText_map hf, List.map_map]
  rfl

end Order

end OrderFile
