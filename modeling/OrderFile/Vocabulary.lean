import OrderFile.Decimal.Digits
import OrderFile.Token

/-!
The words of the game. A word belongs to at most one of seven categories, tried on its lowercase
form; a word of no category is plain text.
-/

set_option autoImplicit false

namespace OrderFile.Vocabulary

/-- The words for professions, each with its canonical name. -/
def professions : List (String × String) :=
  [("civilian", "civilian"), ("construction-crew", "construction-crew"),
    ("professional", "professional"), ("soldier", "soldier"), ("spy", "spy"),
    ("unskilled-worker", "unskilled-worker"), ("unsk", "unskilled-worker")]

def resources : List String :=
  ["fuel", "gold", "metallics", "non-metallics"]

/-- The words for products, each with its canonical name. -/
def products : List (String × String) :=
  [("anti-missile", "anti-missile"), ("assault-craft", "assault-craft"),
    ("assault-weapons", "assault-weapons"), ("automation", "automation"),
    ("consumer-goods", "consumer-goods"), ("energy-shield", "energy-shield"),
    ("energy-weapon", "energy-weapon"), ("factory", "factory"), ("farm", "farm"),
    ("food", "food"), ("hyper-engine", "hyper-engine"), ("life-support", "life-support"),
    ("light-structural-unit", "light-structural-unit"), ("lsu", "light-structural-unit"),
    ("military-robot", "military-robot"), ("military-supplies", "military-supplies"),
    ("mine", "mine"), ("missile", "missile"), ("missile-launcher", "missile-launcher"),
    ("sensor", "sensor"), ("space-drive", "space-drive"),
    ("structural-unit", "structural-unit"), ("su", "structural-unit"),
    ("super-light-structural-unit", "super-light-structural-unit"),
    ("slsu", "super-light-structural-unit"), ("transport", "transport")]

/-- The text cut at the last occurrence of a character, which is left out. -/
def splitAtLast? (x : Char) : List Char → Option (List Char × List Char)
  | [] => none
  | c :: cs =>
    match splitAtLast? x cs with
    | some (stem, suffix) => some (c :: stem, suffix)
    | none => if c = x then some ([], cs) else none

/-- The number in a group's word: the group's letters, a hyphen and digits. -/
def groupNumber? (letters : String) (word : String) : Option Int64 := do
  let digits ← (letters ++ "-").toList.isPrefixOf? word.toList
  let n ← numeral? digits
  int64? n

/-- The level of a suffix of digits. -/
def techLevel? (digits : List Char) : Option UInt32 :=
  (numeral? digits).bind uint32?

def profession? (word : String) : Option Material :=
  (professions.lookup word).map (⟨·, none⟩)

def resource? (word : String) : Option Material :=
  if word ∈ resources then some ⟨word, none⟩ else none

def depositId? (word : String) : Option Int64 := groupNumber? "dp" word

def factoryGroupId? (word : String) : Option Int64 := groupNumber? "fg" word

def mineGroupId? (word : String) : Option Int64 := groupNumber? "mg" word

/-- The word `research`, or `tl-` and a level. -/
def research? (word : String) : Option Material :=
  if word = Material.research then some ⟨Material.research, none⟩
  else do
    let digits ← "tl-".toList.isPrefixOf? word.toList
    let level ← techLevel? digits
    return ⟨Material.research, some level⟩

/-- A product's word, or one followed by a hyphen and a level. -/
def product? (word : String) : Option Material :=
  match products.lookup word with
  | some name => some ⟨name, none⟩
  | none => do
    let (stem, suffix) ← splitAtLast? '-' word.toList
    let level ← techLevel? suffix
    let name ← products.lookup (String.ofList stem)
    return ⟨name, some level⟩

/-- The kind and value of a lowercase word, if it is in the vocabulary. -/
def known? (word : String) : Option (Token.Kind × Payload) :=
  (profession? word).map (fun m ↦ (.population, .material m))
    <|> (resource? word).map (fun m ↦ (.resource, .material m))
    <|> (depositId? word).map (fun n ↦ (.depositId, .integer n))
    <|> (factoryGroupId? word).map (fun n ↦ (.factoryGroupId, .integer n))
    <|> (mineGroupId? word).map (fun n ↦ (.mineGroupId, .integer n))
    <|> (research? word).map (fun m ↦ (.research, .material m))
    <|> (product? word).map (fun m ↦ (.product, .material m))

/-- The kind and value of a word. -/
def classify (word : String) : Token.Kind × Payload :=
  (known? (lowercase word)).getD (.text, .text word)

end OrderFile.Vocabulary
