import OrderFile.CommandLine

/-!
The program: arguments, environment and files in; output, messages and exit status out.
-/

set_option autoImplicit false

namespace OrderFile

/-- The variable that names a settings file. -/
def settingsVariable : String := "WRAITH_CONFIG"

/-- Reads a file, or says why it cannot be read. -/
def readFile (path : String) : IO (Except Unreadable ByteArray) := do
  try
    return .ok (← IO.FS.readBinFile path)
  catch
    | .noFileOrDirectory .. => return .error .notFound
    | .inappropriateType .. => return .error .isDirectory
    | error => return .error (.other (toString error))

/-- The contents of some files, read beforehand. -/
def readFiles (paths : List String) : IO Files := do
  let contents ← paths.mapM fun path ↦ do return (path, ← readFile path)
  return fun path ↦ (contents.lookup path).getD (.error .notFound)

/-- The files that a command may read. -/
def CommandLine.paths (environment : Option String) : CommandLine → List String
  | grammar => []
  | check command => command.file :: (Settings.path? command.config environment).toList

end OrderFile

open OrderFile in
def main (arguments : List String) : IO UInt32 := do
  match CommandLine.ofArguments? arguments with
  | none =>
    IO.eprintln "usage: check FILE [--recover] [--trace] [--format text|json] [--config PATH] | grammar"
    return 2
  | some command =>
    let environment ← IO.getEnv settingsVariable
    let files ← readFiles (command.paths environment)
    let result := command.run files environment
    IO.print result.output
    IO.eprint result.messages
    return result.exit.toUInt32
