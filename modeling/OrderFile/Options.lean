import OrderFile.Json

/-!
How a file is read: whether reading stops at the first line that is not an order, and whether the
trace of a successful parse is kept.
-/

set_option autoImplicit false

namespace OrderFile

structure Options where
  stopOnFirstError : Bool := true
  emitTrace : Bool := false
  deriving DecidableEq

namespace Options

def standard : Options := {}

/-- Lines that are not orders are kept as unknown commands. -/
def recovering : Options := { stopOnFirstError := false }

def tracing : Options := { emitTrace := true }

/-- The names of the options in documents and settings. -/
def stopName : String := "stop_on_first_error"

def traceName : String := "emit_debug_trace"

def toJson (options : Options) : Json :=
  .obj [(stopName, .bool options.stopOnFirstError), (traceName, .bool options.emitTrace)]

/-- The options with one named field of an object set. -/
def setField? (options : Options) : String × Json → Option Options
  | (name, .bool value) =>
    if name = stopName then some { options with stopOnFirstError := value }
    else if name = traceName then some { options with emitTrace := value }
    else none
  | _ => none

/-- The options in a document: an object that sets some of them by name, or an array that sets the
first ones in order. -/
def ofJson? : Json → Option Options
  | .obj fields => fields.foldlM setField? standard
  | .arr [] => some standard
  | .arr [.bool stop] => some { stopOnFirstError := stop }
  | .arr [.bool stop, .bool trace] => some ⟨stop, trace⟩
  | _ => none

end Options

end OrderFile
