import OrderFile.Grammar.Text
import OrderFile.Report
import OrderFile.Settings
import OrderFile.Toml.Reader

/-!
The commands of the program and what they write. Files and the environment are given as values, and
so is the reader of the documents that hold settings; who gives none gets the one of this library.
-/

set_option autoImplicit false

namespace OrderFile

namespace Report

/-- Checks a file. -/
def checkFile (files : Files) (path : String) (options : Options) (showTrace : Bool) :
    Except Fault Report :=
  match files path with
  | .ok bytes => .ok (check path bytes.toList options showTrace)
  | .error reason => .error ⟨.unreadable path reason.reason, none⟩

end Report

/-- How a report is written. -/
inductive OutputFormat where
  | text
  | json
  deriving DecidableEq

/-- What to check, and how. -/
structure CheckCommand where
  file : String
  recover : Bool := false
  trace : Bool := false
  format : OutputFormat := .text
  config : Option String := none
  deriving DecidableEq

inductive CommandLine where
  | grammar
  | check (command : CheckCommand)
  deriving DecidableEq

/-- What a command writes to its two outputs, and its exit status. -/
structure CommandResult where
  exit : UInt8
  output : String
  messages : String := ""
  deriving DecidableEq

namespace CommandLine

def format? : String → Option OutputFormat
  | "text" => some .text
  | "json" => some .json
  | _ => none

/-- The arguments of `check`, options in any order around the one file. -/
def checkArguments? (file : Option String) (command : CheckCommand) :
    List String → Option CheckCommand
  | [] => file.map fun file ↦ { command with file }
  | "--recover" :: arguments => checkArguments? file { command with recover := true } arguments
  | "--trace" :: arguments => checkArguments? file { command with trace := true } arguments
  | "--format" :: format :: arguments => do
    checkArguments? file { command with format := ← format? format } arguments
  | "--format=json" :: arguments => checkArguments? file { command with format := .json } arguments
  | "--format=text" :: arguments => checkArguments? file { command with format := .text } arguments
  | "--config" :: path :: arguments =>
    checkArguments? file { command with config := some path } arguments
  | argument :: arguments =>
    match "--config=".toList.isPrefixOf? argument.toList with
    | some path =>
      checkArguments? file { command with config := some (String.ofList path) } arguments
    | none =>
      if file.isSome ∨ "-".toList.isPrefixOf argument.toList then none
      else checkArguments? (some argument) command arguments

/-- The command that arguments ask for. -/
def ofArguments? : List String → Option CommandLine
  | ["grammar"] => some grammar
  | "check" :: arguments => (checkArguments? none { file := "" } arguments).map check
  | _ => none

private def failure (fault : Fault) : CommandResult :=
  ⟨2, "", "error: " ++ fault.message ++ "\n"⟩

section

variable [Toml.Parser]

/-- Runs `check`: with settings that cannot be loaded or a file that cannot be read, nothing is
written but the fault. -/
def runCheck (files : Files) (environment : Option String) (command : CheckCommand) :
    CommandResult :=
  match Settings.load files command.config environment with
  | .error error => failure error.fault
  | .ok settings =>
    let options : Options :=
      { stopOnFirstError := settings.options.stopOnFirstError && !command.recover
        emitTrace := settings.options.emitTrace || command.trace }
    match Report.checkFile files command.file options command.trace with
    | .error fault => failure fault
    | .ok report =>
      let output := match command.format with
        | .text => report.text
        | .json => report.json ++ "\n"
      ⟨.ofNat report.exitCode, output, ""⟩

/-- Runs a command. -/
def run (files : Files) (environment : Option String) : CommandLine → CommandResult
  | grammar =>
    ⟨0, "# grammar version " ++ toString Grammar.version ++ "\n" ++ Grammar.text, ""⟩
  | check command => runCheck files environment command

end

end CommandLine

end OrderFile
