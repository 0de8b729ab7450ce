import OrderFile.Fault

/-!
Places: a star system, and in it perhaps one of ten orbits. Orbit zero stands for the system.
-/

set_option autoImplicit false

namespace OrderFile

/-- The number of the outermost orbit. -/
def maxOrbit : Int64 := 10

structure Coordinates where
  x : Int64
  y : Int64
  z : Int64
  orbit : Int64
  deriving DecidableEq, Inhabited

namespace Coordinates

def system (x y z : Int64) : Coordinates := ⟨x, y, z, 0⟩

/-- A place with an orbit that exists. -/
def checked (x y z orbit : Int64) : Except Fault Coordinates :=
  if 0 ≤ orbit ∧ orbit ≤ maxOrbit then .ok ⟨x, y, z, orbit⟩
  else .error ⟨.orbitOutOfRange orbit, none⟩

def hasOrbit (c : Coordinates) : Bool :=
  c.orbit != 0

/-- The place as it is written in an order file. -/
def display (c : Coordinates) : String :=
  let numbers := [c.x, c.y, c.z] ++ (if c.hasOrbit then [c.orbit] else [])
  "(" ++ String.intercalate "," (numbers.map toString) ++ ")"

def toJson (c : Coordinates) : Json :=
  .obj [("x", .int c.x.toInt), ("y", .int c.y.toInt), ("z", .int c.z.toInt),
    ("orbit", .int c.orbit.toInt)]

end Coordinates

end OrderFile
