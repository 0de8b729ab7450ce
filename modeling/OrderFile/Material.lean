import OrderFile.Json

/-!
What orders build, trade and carry: a canonical name, with a tech level where the file gives one.
-/

set_option autoImplicit false

namespace OrderFile

structure Material where
  name : String
  techLevel : Option UInt32
  deriving DecidableEq, Inhabited

namespace Material

/-- The name of the material that is written by its tech level alone. -/
def research : String := "research"

def isResearch (m : Material) : Bool :=
  m.name == research

/-- The word that names the material in an order file. -/
def display (m : Material) : String :=
  match m.techLevel with
  | none => m.name
  | some level => (if m.isResearch then "tl" else m.name) ++ "-" ++ toString level

def toJson (m : Material) : Json :=
  .obj [("name", .str m.name), ("tech_level", .ofOption (fun level ↦ .ofNat level.toNat) m.techLevel)]

end Material

end OrderFile
