import OrderFile.Fault
import OrderFile.Options
import OrderFile.Text.Blank
import OrderFile.Text.Quoted
import OrderFile.Toml.Value

/-!
Settings of the program: a log level and the options for reading. They come from a TOML file that
is named outright, or else by the environment, or else they are the defaults. What reads the text of
the file as a TOML document is a parameter.
-/

set_option autoImplicit false

namespace OrderFile

structure Settings where
  logLevel : String := "warn"
  options : Options := {}
  deriving DecidableEq

/-- Why a file cannot be read. -/
inductive Unreadable where
  | notFound
  | isDirectory
  | notText
  | other (reason : String)
  deriving DecidableEq

def Unreadable.reason : Unreadable → String
  | notFound => "No such file or directory (os error 2)"
  | isDirectory => "Is a directory (os error 21)"
  | notText => "stream did not contain valid UTF-8"
  | other reason => reason

/-- What files hold, by path. -/
abbrev Files := String → Except Unreadable ByteArray

namespace Settings

/-- What keeps a text from being settings. -/
inductive Problem where
  /-- It is no document at all, for the reason that the reader of documents gives. -/
  | malformed {reason : String}
  | unknownField (name : String) (known : List String)
  | wrongType (found expected : String)
  | emptyLogLevel
  deriving DecidableEq

/-- The problem in words. -/
def Problem.message : Problem → String
  | @malformed reason => reason
  | unknownField name known =>
    "unknown field `" ++ name ++ "`, expected " ++
      String.intercalate " or " (known.map fun field ↦ "`" ++ field ++ "`")
  | wrongType found expected => "invalid type: " ++ found ++ ", expected " ++ expected
  | emptyLogLevel => "log_level must not be empty"

def Problem.fault (problem : Problem) : Fault :=
  ⟨.settings problem.message, none⟩

/-- A number with a point or a word, as in `1.0` and `inf`. -/
def floatWords (x : Float) : String :=
  let text := Decimal.display x
  if x.isFinite ∧ !text.toList.contains '.' then text ++ ".0" else text

/-- What a value of the wrong type is called. -/
def describe : Toml.Value → String
  | .string s => "string " ++ Quoted.quote s
  | .integer n => "integer `" ++ toString n ++ "`"
  | .float x => "floating point `" ++ floatWords x ++ "`"
  | .boolean b => "boolean `" ++ toString b ++ "`"
  | .datetime | .table _ _ => "map"
  | .array _ | .tables _ => "sequence"

def wrongType {α : Type} (value : Toml.Value) (expected : String) : Except Problem α :=
  .error (.wrongType (describe value) expected)

def stringOf : Toml.Value → Except Problem String
  | .string s => .ok s
  | value => wrongType value "a string"

def booleanOf : Toml.Value → Except Problem Bool
  | .boolean b => .ok b
  | value => wrongType value "a boolean"

/-- The options with one more entry of a table. -/
def setOption (options : Options) (entry : String × Toml.Value) : Except Problem Options := do
  if entry.1 = Options.stopName then return { options with stopOnFirstError := ← booleanOf entry.2 }
  else if entry.1 = Options.traceName then return { options with emitTrace := ← booleanOf entry.2 }
  else .error (.unknownField entry.1 [Options.stopName, Options.traceName])

/-- Options by position; what comes after the last of them does not matter. -/
def optionsOfList (items : List Toml.Value) : Except Problem Options := do
  let stop ← items[0]?.elim (.ok Options.standard.stopOnFirstError) booleanOf
  let trace ← items[1]?.elim (.ok Options.standard.emitTrace) booleanOf
  return ⟨stop, trace⟩

def optionsOf : Toml.Value → Except Problem Options
  | .table _ entries => entries.foldlM setOption Options.standard
  | .array items => optionsOfList items
  | .tables elements => optionsOfList (elements.map (.table .header))
  | value => wrongType value "struct ParseConfig"

/-- The settings with one more entry of the document. -/
def setEntry (settings : Settings) (entry : String × Toml.Value) : Except Problem Settings := do
  if entry.1 = "log_level" then return { settings with logLevel := ← stringOf entry.2 }
  else if entry.1 = "parser" then return { settings with options := ← optionsOf entry.2 }
  else .error (.unknownField entry.1 ["log_level", "parser"])

/-- Settings that can be used have a log level. -/
def validate (settings : Settings) : Except Problem Unit :=
  if isBlankText settings.logLevel then .error .emptyLogLevel else .ok ()

/-- Why settings could not be loaded: their file cannot be read, or what it holds is no settings. -/
inductive LoadError where
  | unreadable (path : String) (reason : Unreadable)
  | invalid (path : String) (problem : Problem)
  deriving DecidableEq

/-- The failure as a fault; a problem with what a file holds names the file. -/
def LoadError.fault : LoadError → Fault
  | unreadable path reason => ⟨.unreadable path reason.reason, none⟩
  | invalid path problem => problem.fault.withSource path

/-- The file that settings come from, if any: the one named outright, or else the one that the
environment names with a text that is not empty. -/
def path? (explicit environment : Option String) : Option String :=
  explicit.or (environment.filter (· ≠ ""))

section

variable [Toml.Parser]

/-- The settings in a TOML text. Entries are taken in order, and the first problem wins. -/
def ofToml (text : String) : Except Problem Settings := do
  let entries ← (Toml.Parser.parse text).mapError fun reason ↦ @Problem.malformed reason
  let settings ← entries.foldlM setEntry ({} : Settings)
  settings.validate
  return settings

/-- The settings in a file. -/
def ofFile (files : Files) (path : String) : Except LoadError Settings := do
  let bytes ← (files path).mapError (.unreadable path)
  match String.fromUTF8? bytes with
  | none => .error (.unreadable path .notText)
  | some text => (ofToml text).mapError (.invalid path)

/-- The settings to use. -/
def load (files : Files) (explicit environment : Option String) : Except LoadError Settings :=
  match path? explicit environment with
  | some path => ofFile files path
  | none => .ok {}

end

end Settings

end OrderFile
