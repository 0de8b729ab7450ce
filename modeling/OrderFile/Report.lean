import OrderFile.Reading
import OrderFile.Trace.NearMiss
import OrderFile.Trace.Outline

/-!
What a check of an order file says, as text and as a JSON document.
-/

set_option autoImplicit false

namespace OrderFile

structure Report where
  /-- The name of the file. -/
  source : String
  outcome : Except Rejection Reading
  showTrace : Bool

namespace Report

/-- Checks the bytes of a file. A fault says which file it is in. -/
def check (source : String) (bytes : List UInt8) (options : Options) (showTrace : Bool) : Report where
  source := source
  outcome := (readBytes bytes options).mapError fun rejection ↦
    { rejection with fault := rejection.fault.withSource source }
  showTrace := showTrace

def isClean (report : Report) : Bool :=
  match report.outcome with
  | .ok reading => reading.isClean
  | .error _ => false

/-- The exit status of a check: zero for a clean file, one for any other. -/
def exitCode (report : Report) : Nat :=
  if report.isClean then 0 else 1

private def textLine (text : String) : String := text ++ "\n"

/-- The counts at the end of a report. -/
def summary (source : String) (reading : Reading) : String :=
  let unknown := reading.unknownLines.length
  source ++ ": " ++ toString (reading.orders.length - unknown) ++ " orders (" ++
    toString reading.validOrders.length ++ " valid), " ++ toString reading.errors.length ++
    " errors, " ++ toString unknown ++ " unrecognized lines"

/-- The text about a file that was read. -/
def readingText (source : String) (showTrace : Bool) (reading : Reading) : String :=
  let unknown := reading.unknownLines
  String.join (reading.orders.map fun order ↦ textLine order.display) ++
    String.join (reading.errors.map fun error ↦ textLine ("error: " ++ error.message)) ++
    (if unknown.isEmpty then ""
      else textLine ("unrecognized lines: " ++ String.intercalate ", " (unknown.map toString))) ++
    textLine (summary source reading) ++
    (if showTrace then reading.trace.elim "" (({} : Trace.Outline).text) else "")

/-- The text about a file that was rejected. -/
def rejectionText (source : String) (showTrace : Bool) (rejection : Rejection) : String :=
  textLine (source ++ ": " ++ rejection.fault.message) ++
    rejection.fault.context.elim "" Fault.Context.display ++
    rejection.trace.elim "" fun trace ↦
      trace.nearestMiss.elim "" (fun miss ↦ textLine ("hint: " ++ miss.display)) ++
        (if showTrace then ({ collapseSuccesses := true } : Trace.Outline).text trace else "")

/-- The report as text. -/
def text (report : Report) : String :=
  match report.outcome with
  | .ok reading => readingText report.source report.showTrace reading
  | .error rejection => rejectionText report.source report.showTrace rejection

/-- The trace as a field of a document, if it is to be shown. -/
def traceField (showTrace : Bool) (trace : Option Trace) : List (String × Json) :=
  if showTrace then [("trace", .ofOption Trace.toJson trace)] else []

def readingFields (reading : Reading) : List (String × Json) :=
  [("ok", .bool true), ("clean", .bool reading.isClean),
    ("valid_orders", .ofNat reading.validOrders.length),
    ("unknown_lines", .arr (reading.unknownLines.map fun line ↦ .ofNat line.toNat)),
    ("orders", .arr (reading.orders.map Order.toJson)),
    ("errors", .arr (reading.errors.map fun error ↦
      .obj [("line", .ofNat error.line.toNat), ("message", .str error.message)]))]

def rejectionFields (rejection : Rejection) : List (String × Json) :=
  [("ok", .bool false), ("error", .str rejection.fault.message),
    ("line", .ofOption (fun line ↦ .ofNat line.toNat) rejection.fault.line?),
    ("nearest_miss", .ofOption Trace.NearMiss.toJson (rejection.trace.bind Trace.nearestMiss))]

/-- The report as a document. -/
def toJson (report : Report) : Json :=
  .obj <| ("source", .str report.source) ::
    match report.outcome with
    | .ok reading => readingFields reading ++ traceField report.showTrace reading.trace
    | .error rejection => rejectionFields rejection ++ traceField report.showTrace rejection.trace

/-- The report as indented JSON with sorted keys. -/
def json (report : Report) : String :=
  report.toJson.sortKeys.indented

end Report

end OrderFile
