import OrderFile.Proofs.Order.Bound
import OrderFile.Tree.Reader

/-!
What each reading does when the child it asks for comes next: it gives the child's value and leaves
the children after it, and of the complaints it adds those about values out of range.
-/

set_option autoImplicit false

namespace OrderFile

/-- The value of an integer token, zero if it carries none. -/
def Token.intValue (t : Token) : Int64 :=
  t.integer?.getD 0

def Token.textValue (t : Token) : String :=
  t.text?.getD ""

def Token.numberValue (t : Token) : Float :=
  t.number?.getD 0

namespace Tree.Read

variable {rule : String} {line : UInt32} {rest : List Tree} {errors : List Complaint}

/-- A reading in two steps runs the second one on what the first one gave and left. -/
theorem run_bind {α β : Type} (body : Read α) (next : α → Read β) (r : Reader) :
    (body >>= next).run r = (next (body.run r).1).run (body.run r).2 := by
  rw [StateT.run_bind]
  rfl

theorem run_pure {α : Type} (a : α) (r : Reader) : (pure a : Read α).run r = (a, r) := by
  rw [StateT.run_pure]
  rfl

/-- The kind of the next token can be looked at without reading it. -/
theorem run_peekKind? {t : Token} :
    peekKind?.run ⟨rule, line, .leaf t :: rest, errors⟩ =
      (some t.kind, ⟨rule, line, .leaf t :: rest, errors⟩) := rfl

/-- A child that passes the test is read. -/
theorem run_child? {α : Type} {expected : String} {test : Tree → Option α} {tree : Tree} {a : α}
    (h : test tree = some a) :
    (child? expected test).run ⟨rule, line, tree :: rest, errors⟩ =
      (some a, ⟨rule, line, rest, errors⟩) := by
  simp [child?, h]
  rfl

/-! ### Ranges -/

/-- A range that is not kept to is all that the check adds to the complaints. -/
theorem run_checkRange (field : String) (value low high : Int64) (r : Reader) :
    (checkRange field value low high).run r =
      ((), { r with errors :=
        r.errors ++ Bound.complaints r.line [⟨field, value, low, high⟩] }) := by
  by_cases h : low ≤ value ∧ value ≤ high
  · have hholds : Bound.Holds ⟨field, value, low, high⟩ := h
    rw [checkRange, if_pos h, Bound.complaints, List.filter_cons_of_neg (by simpa using hholds)]
    simp
    rfl
  · have hholds : ¬ Bound.Holds ⟨field, value, low, high⟩ := h
    rw [checkRange, if_neg h, Bound.complaints, List.filter_cons_of_pos (by simpa using hholds)]
    rfl

/-! ### Tokens -/

theorem run_tokenOf? {kinds : List Token.Kind} {t : Token} (h : kinds.contains t.kind = true) :
    (tokenOf? kinds).run ⟨rule, line, .leaf t :: rest, errors⟩ =
      (some t, ⟨rule, line, rest, errors⟩) :=
  run_child? (Option.filter_some_pos h)

theorem run_token? {kind : Token.Kind} {t : Token} (h : t.kind = kind) :
    (token? kind).run ⟨rule, line, .leaf t :: rest, errors⟩ =
      (some t, ⟨rule, line, rest, errors⟩) :=
  run_tokenOf? (by simp [h])

/-- A token that may be left out is read if it is there. -/
theorem run_optional?_some {kinds : List Token.Kind} {t : Token}
    (h : kinds.contains t.kind = true) :
    (optional? kinds).run ⟨rule, line, .leaf t :: rest, errors⟩ =
      (some t, ⟨rule, line, rest, errors⟩) := by
  rw [optional?, run_bind, run_peekKind?]
  change StateT.run (if kinds.contains t.kind then token? t.kind else pure none) _ = _
  rw [if_pos h, run_token? rfl]

/-- A token that may be left out is not missed. -/
theorem run_optional?_none {kinds : List Token.Kind} {t : Token}
    (h : kinds.contains t.kind = false) :
    (optional? kinds).run ⟨rule, line, .leaf t :: rest, errors⟩ =
      (none, ⟨rule, line, .leaf t :: rest, errors⟩) := by
  rw [optional?, run_bind, run_peekKind?]
  change StateT.run (if kinds.contains t.kind then token? t.kind else pure none) _ = _
  rw [if_neg (by rw [h]; exact Bool.false_ne_true), run_pure]

/-- Reading what may be left out, whether it is there or not. -/
theorem run_optional? {kinds : List Token.Kind} {found : Option Token} {t : Token}
    (hfound : ∀ s ∈ found, kinds.contains s.kind = true) (ht : kinds.contains t.kind = false) :
    (optional? kinds).run ⟨rule, line, found.toList.map .leaf ++ .leaf t :: rest, errors⟩ =
      (found, ⟨rule, line, .leaf t :: rest, errors⟩) := by
  cases found with
  | none => exact run_optional?_none ht
  | some s => exact run_optional?_some (hfound s rfl)

/-- Of several words that may come next, the first that the token spells counts. -/
theorem run_wordOf? {words : List String} {t : Token} {i : Nat}
    (h : words.findIdx? t.spells = some i) :
    (wordOf? words).run ⟨rule, line, .leaf t :: rest, errors⟩ =
      (some i, ⟨rule, line, rest, errors⟩) :=
  run_child? h

theorem run_word {w : String} {t : Token} (h : t.spells w = true) :
    (word w).run ⟨rule, line, .leaf t :: rest, errors⟩ = ((), ⟨rule, line, rest, errors⟩) := by
  rw [word, StateT.run_bind, run_wordOf? (i := 0) (by simp [List.findIdx?_cons, h])]
  rfl

theorem run_eol {t : Token} (h : t.kind = .eol) :
    eol.run ⟨rule, line, .leaf t :: rest, errors⟩ = ((), ⟨rule, line, rest, errors⟩) := by
  rw [eol, StateT.run_bind, run_token? h]
  rfl

theorem run_integer {t : Token} (h : t.kind = .integer) :
    integer.run ⟨rule, line, .leaf t :: rest, errors⟩ =
      (t.intValue, ⟨rule, line, rest, errors⟩) := by
  rw [integer, StateT.run_bind, run_token? h]
  rfl

/-- An integer that should not be negative is read in any case, and complained about if it is. -/
theorem run_natural {field : String} {t : Token} (h : t.kind = .integer) :
    (natural field).run ⟨rule, line, .leaf t :: rest, errors⟩ =
      (t.intValue, ⟨rule, line, rest,
        errors ++ Bound.complaints line [.natural field t.intValue]⟩) := by
  rw [natural, StateT.run_bind, run_integer h]
  change StateT.run (checkRange field t.intValue 0 Int64.maxValue >>= _) _ = _
  rw [StateT.run_bind, run_checkRange]
  rfl

theorem run_percentage {field : String} {t : Token} (h : t.kind = .percentage) :
    (percentage field).run ⟨rule, line, .leaf t :: rest, errors⟩ =
      (t.intValue, ⟨rule, line, rest,
        errors ++ Bound.complaints line [.percentage field t.intValue]⟩) := by
  rw [percentage, StateT.run_bind, run_token? h]
  change StateT.run (checkRange field t.intValue 0 100 >>= _) _ = _
  rw [StateT.run_bind, run_checkRange]
  rfl

theorem run_quotedText {t : Token} (h : t.kind = .quotedText) :
    quotedText.run ⟨rule, line, .leaf t :: rest, errors⟩ =
      (t.textValue, ⟨rule, line, rest, errors⟩) := by
  rw [quotedText, StateT.run_bind, run_token? h]
  rfl

/-! ### Rules -/

theorem run_finish : finish.run ⟨rule, line, [], errors⟩ = (errors, ⟨rule, line, [], errors⟩) :=
  rfl

/-- Reading inside a rule all of whose children are read. -/
theorem run_inside {α : Type} {name : String} {children : List Tree} {body : Read α} {a : α}
    {inner : List Complaint}
    (h : body.run ⟨name, line, children, []⟩ = (a, ⟨name, line, [], inner⟩)) :
    (inside (.node name children) body).run ⟨rule, line, rest, errors⟩ =
      (a, ⟨rule, line, rest, errors ++ inner⟩) := by
  have hbody : (do return (← body, ← finish) : Read _).run ⟨name, line, children, []⟩ =
      ((a, inner), ⟨name, line, [], inner⟩) := by
    rw [StateT.run_bind, h]
    rfl
  have hrun : (inside (.node name children) body).run ⟨rule, line, rest, errors⟩ =
      (fun result : (α × List Complaint) × Reader ↦ StateT.run (do
        modify fun r : Reader ↦ { r with errors := r.errors ++ result.1.2 }
        return result.1.1) ⟨rule, line, rest, errors⟩)
        ((do return (← body, ← finish) : Read _).run ⟨name, line, children, []⟩) := rfl
  rw [hrun, hbody]
  rfl

/-- A rule within the rule is read to its end, and its complaints come after those before. -/
theorem run_nested? {α : Type} {name : String} {children : List Tree} {body : Read α} {a : α}
    {inner : List Complaint}
    (h : body.run ⟨name, line, children, []⟩ = (a, ⟨name, line, [], inner⟩)) :
    (nested? name body).run ⟨rule, line, .node name children :: rest, errors⟩ =
      (some a, ⟨rule, line, rest, errors ++ inner⟩) := by
  rw [nested?, StateT.run_bind, run_child? (a := .node name children) (by simp [isRule, rule?])]
  change StateT.run (inside (.node name children) body >>= fun a ↦ pure (some a)) _ = _
  rw [StateT.run_bind, run_inside h]
  rfl

end Tree.Read

end OrderFile
