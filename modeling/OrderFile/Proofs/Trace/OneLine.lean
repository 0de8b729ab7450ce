import OrderFile.Proofs.Text.OneLine
import OrderFile.Proofs.Token.Reended
import OrderFile.Proofs.Trace.Candidate

/-!
Traces whose entries are shown on one line. The tokens of a text are shown on one line, since plain
text is shown in quotes, quoted text holds no line end and a line end is shown as an escape. A trace
whose entries all are on one line says on one line which rule came closest:
`oneLine_of_nearestMiss`.
-/

set_option autoImplicit false

namespace OrderFile

/-! ### Tokens -/

/-- A token of a text is shown on one line, whatever it holds. -/
theorem oneLine_shown {t : Token} (h : t.OneLine) : OneLine t.shown := by
  cases hkind : t.kind with
  | text =>
    rw [Token.shown, hkind]
    exact oneLine_quote t.lexeme
  | quotedText =>
    have hempty : OneLine "" := by decide
    have htext : OneLine (t.text?.getD "") := by
      rw [Token.text?]
      cases hpayload : t.payload with
      | text s => exact h.text hkind s hpayload
      | _ => exact hempty
    simp only [Token.shown, hkind, oneLine_append_iff]
    exact ⟨⟨by decide, htext⟩, by decide⟩
  | eof | eol | comma | parenOpen | parenClose | comment | spaces =>
    simp only [Token.shown, hkind]
    decide
  | _ =>
    have hlexeme := h.lexeme (by rw [hkind]; nofun)
    rw [Token.shown, hkind]
    exact hlexeme

/-- A token of a text is shown on one line. -/
theorem oneLine_token {t : Token} (h : t.OneLine) : OneLine t.display := by
  simp only [Token.display, oneLine_append_iff]
  exact ⟨⟨⟨⟨by decide, oneLine_toString_uint32 _⟩, by decide⟩, oneLine_shown h⟩, by decide⟩

namespace Trace

/-! ### Labels and entries -/

theorem oneLine_rule_iff {name : String} {succeeded : Bool} :
    OneLine (Label.rule name succeeded).display ↔ OneLine name := by
  rw [Label.display, oneLine_append_iff, oneLine_append_iff, oneLine_append_iff]
  cases succeeded <;> simp +decide

theorem oneLine_attempt_iff {expected : String} {found : Option Token} {matched : Bool} :
    OneLine (Label.attempt expected found matched).display ↔
      OneLine expected ∧ ∀ t ∈ found, OneLine t.display := by
  have hmark : OneLine (if matched then " = " else " != ") := by
    cases matched <;> decide
  simp only [Label.display, oneLine_append_iff]
  cases found with
  | none => simp +decide [hmark]
  | some t => simp [hmark, and_comm]

/-- Whether all entries of a trace are shown on one line. -/
def IsOneLine (trace : Trace) : Prop :=
  ∀ path label, trace.labelAt? path = some label → OneLine label.display

/-- A trace is on one line entry by entry if its label is and what is under it. -/
theorem isOneLine_entry {label : Label} {children : List Trace} (hlabel : OneLine label.display)
    (h : ∀ child ∈ children, child.IsOneLine) : (entry label children).IsOneLine := by
  rintro (_ | ⟨i, path⟩) found hfound
  · obtain rfl := Option.some.inj hfound
    exact hlabel
  · obtain ⟨child, hchild, hbelow⟩ := labelAt?_cons_eq_some_iff.mp hfound
    exact h child (List.mem_of_getElem? hchild) path found hbelow

variable {trace node : Trace}

theorem IsOneLine.of_at? {path : List Nat} (h : trace.IsOneLine)
    (hnode : trace.at? path = some node) : node.IsOneLine := by
  induction path generalizing trace with
  | nil =>
    obtain rfl := Option.some.inj hnode
    exact h
  | cons i path ih =>
    obtain ⟨child, hchild, hbelow⟩ := at?_cons_eq_some_iff.mp hnode
    refine ih (fun rest label hlabel ↦ ?_) hbelow
    exact h (i :: rest) label (labelAt?_cons_eq_some_iff.mpr ⟨child, hchild, hlabel⟩)

/-! ### Near misses -/

/-- What a failed rule wanted is what an entry below it says. -/
theorem oneLine_of_wanted? {expected : String} {found : Option Token} (h : node.IsOneLine)
    (hwanted : node.wanted? = some (expected, found)) :
    OneLine expected ∧ ∀ t ∈ found, OneLine t.display := by
  rcases wants_of_wanted? hwanted with ⟨path, hmisses, -⟩ | ⟨-, rfl, path, ⟨-, hfails⟩, -⟩
  · exact oneLine_attempt_iff.mp (h path _ hmisses.attempt)
  · exact ⟨oneLine_rule_iff.mp (h path _ hfails), nofun⟩

/-- A near miss is said on one line if what it names is. -/
theorem NearMiss.oneLine_display {miss : NearMiss} (hrule : OneLine miss.rule)
    (hexpected : OneLine miss.expected) (hfound : ∀ t ∈ miss.found, OneLine t.display) :
    OneLine miss.display := by
  have hplural : OneLine (if miss.matched = 1 then "" else "s") := by
    split <;> decide
  unfold display
  simp only [oneLine_append_iff, hrule, hexpected, hplural, oneLine_toString_nat, and_true]
  refine ⟨by decide, ?_⟩
  cases hmiss : miss.found with
  | none => decide
  | some t => exact oneLine_append_iff.mpr ⟨by decide, hfound t hmiss⟩

/-- A failed rule whose entries are on one line is a near miss on one line. -/
theorem oneLine_of_nearMiss? {miss : NearMiss} (h : node.IsOneLine)
    (hmiss : node.nearMiss? = some miss) : OneLine miss.display := by
  obtain ⟨label, children⟩ := node
  obtain ⟨rule, hrule, hmiss⟩ := Option.bind_eq_some_iff.mp hmiss
  obtain ⟨⟨expected, found⟩, hwanted, hmiss⟩ := Option.bind_eq_some_iff.mp hmiss
  obtain rfl := Option.some.inj hmiss
  obtain ⟨hexpected, hfound⟩ := oneLine_of_wanted? h hwanted
  have hlabel : OneLine label.display := h [] label rfl
  cases label with
  | attempt => cases hrule
  | rule name succeeded =>
    obtain rfl := Option.some.inj hrule
    exact NearMiss.oneLine_display (oneLine_rule_iff.mp hlabel) hexpected hfound

/-- The rule that came closest is told on one line. -/
theorem oneLine_of_nearestMiss {miss : NearMiss} (h : trace.IsOneLine)
    (hmiss : trace.nearestMiss = some miss) : OneLine miss.display := by
  obtain ⟨node, hnode, hmiss⟩ := List.mem_filterMap.mp (mem_of_closest hmiss)
  rw [failedRules_eq_map, List.mem_map] at hnode
  obtain ⟨⟨path, node⟩, hmem, rfl⟩ := hnode
  have hat := (mem_nodes_iff trace).mp (List.mem_of_mem_filter hmem)
  exact oneLine_of_nearMiss? (h.of_at? hat) hmiss

end Trace

end OrderFile
