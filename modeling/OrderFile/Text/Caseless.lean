/-!
Words compared without regard to the case of ASCII letters.
-/

set_option autoImplicit false

namespace OrderFile

/-- A word with its ASCII letters lowercased. -/
def lowercase (word : String) : String :=
  String.ofList (word.toList.map Char.toLower)

/-- Whether two words differ in the case of ASCII letters at most. -/
def sameWord (first second : String) : Bool :=
  lowercase first == lowercase second

/-- Two words are the same exactly if they are in lower case. -/
theorem sameWord_iff {first second : String} :
    sameWord first second ↔ lowercase first = lowercase second := by
  simp [sameWord]

theorem sameWord_refl (word : String) : sameWord word word := by
  simp [sameWord]

theorem sameWord_comm (first second : String) : sameWord first second = sameWord second first := by
  simp [sameWord, Bool.beq_comm]

end OrderFile
