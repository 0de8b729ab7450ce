/-!
Texts of printable ASCII characters, which hold no line ends.
-/

set_option autoImplicit false

namespace OrderFile

/-- Whether a text is printable ASCII. -/
def IsAscii (text : String) : Prop :=
  ∀ c ∈ text.toList, 0x20 ≤ c.toNat ∧ c.toNat ≤ 0x7E

instance (text : String) : Decidable (IsAscii text) :=
  List.decidableBAll _ text.toList

theorem IsAscii.append {first second : String} (h : IsAscii first) (hsecond : IsAscii second) :
    IsAscii (first ++ second) := by
  rw [IsAscii, String.toList_append]
  exact List.forall_mem_append.mpr ⟨h, hsecond⟩

/-- Printable characters end no line. -/
theorem IsAscii.not_mem_newline {text : String} (h : IsAscii text) : '\n' ∉ text.toList := by
  intro hmem
  exact absurd (h _ hmem).1 (by decide)

theorem IsAscii.intercalate {separator : String} (hseparator : IsAscii separator)
    {words : List String} (h : ∀ word ∈ words, IsAscii word) :
    IsAscii (String.intercalate separator words) := by
  induction words with
  | nil =>
    rw [String.intercalate_nil]
    decide
  | cons word words ih =>
    obtain ⟨hword, hothers⟩ := List.forall_mem_cons.mp h
    cases words with
    | nil => rwa [String.intercalate_singleton]
    | cons other words =>
      rw [String.intercalate_cons_cons]
      exact (hword.append hseparator).append (ih hothers)

end OrderFile
