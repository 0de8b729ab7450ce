/-!
TOML values, and how the lines of a document build up its root table. A table is defined by its
own header once; tables that a longer header or a dotted key mentions on the way exist without
being defined, and only what mentioned them may add to them.
-/

set_option autoImplicit false

namespace OrderFile.Toml

/-- What brought a table into being. -/
inductive Origin where
  /-- Braces on one line; nothing can be added. -/
  | inline
  /-- A header of its own. -/
  | header
  /-- The header of a table within it. -/
  | path
  /-- A dotted key. -/
  | dotted
  deriving DecidableEq

/-- A value. Entries are in the order of the document. Of dates and times only the kind is kept. -/
inductive Value where
  | string (value : String)
  | integer (value : Int64)
  | float (value : Float)
  | boolean (value : Bool)
  | datetime
  | array (items : List Value)
  | table (origin : Origin) (entries : List (String × Value))
  /-- Tables with a double header each. -/
  | tables (elements : List (List (String × Value)))

/-- The entries of a table, in order. -/
abbrev Entries := List (String × Value)

/-- A reader of whole documents: the root table of the document in a text, or what keeps the text
from being a document, in the reader's words. -/
class Parser where
  parse : String → Except String Entries

namespace Entries

/-- The entries with the value of a key that is there replaced. -/
def replace (key : String) (value : Value) (entries : Entries) : Entries :=
  entries.map fun entry ↦ if entry.1 = key then (key, value) else entry

def insertNew? (key : String) (value : Value) (entries : Entries) : Option Entries :=
  if (entries.lookup key).isSome then none else some (entries ++ [(key, value)])

/-- Changes the table at a path. Tables on the way that are missing come into being with the given
origin, and an array of tables stands for its last one. A dotted key cannot pass a table with a
header of its own. -/
def update? (missing : Origin) (change : Origin → Entries → Option Entries) :
    List String → Origin → Entries → Option Entries
  | [], origin, entries => change origin entries
  | key :: path, _, entries =>
    match entries.lookup key with
    | none => do
      let inner ← update? missing change path missing []
      return entries ++ [(key, .table missing inner)]
    | some (.table origin inner) =>
      if origin = .inline ∨ missing = .dotted ∧ origin = .header then none
      else do
        let inner ← update? missing change path origin inner
        return entries.replace key (.table origin inner)
    | some (.tables elements) => do
      let last ← elements.getLast?
      let inner ← update? missing change path .header last
      return entries.replace key (.tables (elements.dropLast ++ [inner]))
    | some _ => none

/-- Adds a value under a dotted key. The table it goes to must be the one that the key starts from
or one made by dotted keys. -/
def insertDotted? (path : List String) (key : String) (value : Value) (entries : Entries) :
    Option Entries :=
  update? .dotted
    (fun origin inner ↦
      if path.isEmpty ∨ origin = .dotted then insertNew? key value inner else none)
    path .header entries

end Entries

/-- A document so far: the root table without the table that is being filled. -/
structure Document where
  root : Entries
  /-- The path of the table that is being filled; none for the root table itself. -/
  path : List String
  key : Option String
  /-- Whether that table is one of an array. -/
  element : Bool
  /-- The entries of that table. -/
  current : Entries

namespace Document

/-- The empty document. -/
def empty : Document := ⟨[], [], none, false, []⟩

/-- The root table with the table that was being filled put in its place. -/
def close? (d : Document) : Option Entries :=
  match d.key with
  | none => some d.current
  | some key =>
    d.root.update? .path
      (fun _ parent ↦
        if d.element then
          match parent.lookup key with
          | some (.tables elements) => some (parent.replace key (.tables (elements ++ [d.current])))
          | _ => none
        else parent.insertNew? key (.table .header d.current))
      d.path .header

/-- Starts the table of a header. A table that exists only because longer headers mentioned it
keeps what they put there; any other table is taken. -/
def openTable? (path : List String) (key : String) (d : Document) : Option Document := do
  let root ← d.close?
  let root ← root.update? .path (fun _ parent ↦ some parent) path .header
  let held ← find? path root
  match held.lookup key with
  | none => return ⟨root, path, some key, false, []⟩
  | some (.table .path entries) =>
    let root ← root.update? .path
      (fun _ parent ↦ some (parent.filter fun entry ↦ entry.1 != key)) path .header
    return ⟨root, path, some key, false, entries⟩
  | some _ => none
where
  /-- The entries of the table at a path. -/
  find? : List String → Entries → Option Entries
    | [], entries => some entries
    | key :: path, entries =>
      match entries.lookup key with
      | some (.table _ inner) => find? path inner
      | some (.tables elements) => elements.getLast?.bind (find? path)
      | _ => none

/-- Starts one more table of an array of tables. -/
def openElement? (path : List String) (key : String) (d : Document) : Option Document := do
  let root ← d.close?
  let root ← root.update? .path
    (fun _ parent ↦
      match parent.lookup key with
      | none => some (parent ++ [(key, .tables [])])
      | some (.tables _) => some parent
      | some _ => none)
    path .header
  return ⟨root, path, some key, true, []⟩

/-- Adds a value to the table that is being filled. -/
def insert? (path : List String) (key : String) (value : Value) (d : Document) : Option Document := do
  let current ← d.current.insertDotted? path key value
  return { d with current }

end Document

end OrderFile.Toml
