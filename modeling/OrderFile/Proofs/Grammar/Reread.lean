import OrderFile.Proofs.Grammar.File
import OrderFile.Proofs.Parse.Reworded

/-!
Token lists that are told in other words. The rules of order files ask of a token its kind, its
integer and what its word spells, so a change that keeps these can be made before reading or after
it: `front?_map`, `linesFront?_map`, `fileTree?_map`.
-/

set_option autoImplicit false

namespace OrderFile.Grammar

open Token (Rewords)

/-- What is read off the front of a token list, with every token changed. -/
def mapRead (f : Token → Token) (read : List Tree × List Token) : List Tree × List Token :=
  (read.1.map (Tree.map f), read.2.map f)

namespace Pattern

/-- Whether the shapes of a pattern ask for words of plain text only. -/
def isPlain : Pattern → Bool
  | token shape => shape.isPlain
  | seq first second | choice first second => first.isPlain && second.isPlain
  | optional body | repeated body _ | rule _ body => body.isPlain
  | empty | anyOf _ | oneWord _ | integerIn _ _ => true

section

variable {f : Token → Token}

theorem any_head?_map {test : Token → Bool} (htest : ∀ t, test (f t) = test t) (ts : List Token) :
    (ts.map f).head?.any test = ts.head?.any test := by
  cases ts with
  | nil => rfl
  | cons t ts => exact htest t

/-- The next token is read in other words if the test cannot tell the words apart. -/
theorem frontToken?_map {test : Token → Bool} (htest : ∀ t, test (f t) = test t)
    (ts : List Token) : frontToken? test (ts.map f) = (frontToken? test ts).map (mapRead f) := by
  cases ts with
  | nil => rfl
  | cons t ts =>
    rw [List.map_cons, frontToken?, frontToken?, htest]
    split <;> rfl

/-- Two readings in a row are told in other words if each of them is. -/
theorem andThen_map {read other : Option (List Tree × List Token)}
    {next : List Token → Option (List Tree × List Token)} (hread : other = read.map (mapRead f))
    (hnext : ∀ result ∈ read, next (result.2.map f) = (next result.2).map (mapRead f)) :
    andThen other next = (andThen read next).map (mapRead f) := by
  rw [hread]
  cases read with
  | none => rfl
  | some result =>
    have hrest := hnext result rfl
    simp only [andThen, Option.map_some, Option.bind_some, mapRead] at hrest ⊢
    rw [hrest, Option.map_map, Option.map_map]
    refine congrArg (Option.map · _) (funext fun _ ↦ ?_)
    simp [mapRead]

/-- A rule of its own is changed with what it took. -/
theorem map_node_mapRead (name : String) (read : Option (List Tree × List Token)) :
    (read.map (mapRead f)).map (fun (trees, rest) ↦ ([.node name trees], rest)) =
      (read.map fun (trees, rest) ↦ ([.node name trees], rest)).map (mapRead f) := by
  cases read with
  | none => rfl
  | some result => simp [mapRead]

variable (hf : Rewords f)

include hf

/-- A plain pattern starts with the same tokens. -/
theorem starts_map {pattern : Pattern} (h : pattern.isPlain = true) (t : Token) :
    pattern.starts (f t) = pattern.starts t := by
  induction pattern with
  | token shape => exact hf.accepts h t
  | anyOf kinds => rw [starts, starts, hf.kind]
  | oneWord words => exact congrArg words.any (funext (hf.spells t))
  | integerIn low high => rw [starts, starts, hf.kind]
  | seq first second ihfirst ihsecond => exact ihfirst ((Bool.and_eq_true _ _).mp h).1
  | choice first second ihfirst ihsecond =>
    obtain ⟨hfirst, hsecond⟩ := (Bool.and_eq_true _ _).mp h
    rw [starts, starts, ihfirst hfirst, ihsecond hsecond]
  | rule name body ih => exact ih h
  | empty | optional | repeated => rfl

theorem admits_map {pattern : Pattern} (h : pattern.isPlain = true) (t : Token) :
    pattern.admits (f t) = pattern.admits t := by
  cases pattern with
  | integerIn low high => rw [admits, admits, hf.kind, hf.integer?]
  | token | anyOf | oneWord => exact starts_map hf h t
  | _ => rfl

/-- A repetition is told in other words if what it repeats is. -/
theorem frontUntil_map {stop : String} {body : List Token → Option (List Tree × List Token)}
    (hbody : ∀ ts, body (ts.map f) = (body ts).map (mapRead f)) (fuel : Nat) (ts : List Token) :
    frontUntil stop body fuel (ts.map f) = mapRead f (frontUntil stop body fuel ts) := by
  induction fuel generalizing ts with
  | zero => rfl
  | succ fuel ih =>
    rw [frontUntil, frontUntil, any_head?_map fun t ↦ hf.spells t stop, hbody]
    by_cases hstop : ts.head?.any (·.spells stop) = true
    · rw [if_pos hstop, if_pos hstop]
      rfl
    · rw [if_neg hstop, if_neg hstop]
      cases body ts with
      | none => rfl
      | some result => simp [mapRead, ih]

/-- A plain pattern reads the same trees, in other words. -/
theorem front?_map {pattern : Pattern} (h : pattern.isPlain = true) (ts : List Token) :
    pattern.front? (ts.map f) = (pattern.front? ts).map (mapRead f) := by
  induction pattern generalizing ts with
  | empty => rfl
  | token | anyOf | oneWord | integerIn => exact frontToken?_map (admits_map hf h) ts
  | seq first second ihfirst ihsecond =>
    obtain ⟨hfirst, hsecond⟩ := (Bool.and_eq_true _ _).mp h
    exact andThen_map (ihfirst hfirst ts) fun result _ ↦ ihsecond hsecond result.2
  | optional body ih =>
    rw [front?, front?, any_head?_map (@starts_map _ hf body h)]
    split
    · exact ih h ts
    · rfl
  | choice first second ihfirst ihsecond =>
    obtain ⟨hfirst, hsecond⟩ := (Bool.and_eq_true _ _).mp h
    rw [front?, front?, any_head?_map (starts_map hf hfirst)]
    split
    · exact ihfirst hfirst ts
    · exact ihsecond hsecond ts
  | repeated body stop ih =>
    rw [front?, front?, List.length_map, frontUntil_map hf (ih h)]
    rfl
  | rule name body ih => rw [front?, front?, ih h, map_node_mapRead]

end

end Pattern

open Pattern

/-! ### Lines -/

/-- The pattern of every command is plain. -/
theorem command_isPlain (k : Keyword) : (command k).isPlain = true := by
  cases k <;> rfl

section

variable {f : Token → Token} (hf : Rewords f)

include hf

/-- An order is read off tokens in other words where it is read off the tokens. -/
theorem orderFront?_map (ts : List Token) :
    orderFront? (ts.map f) = (orderFront? ts).map (mapRead f) := by
  have hkeyword : (ts.map f).head?.bind Keyword.ofToken? = ts.head?.bind Keyword.ofToken? := by
    cases ts with
    | nil => rfl
    | cons t ts => exact hf.ofToken? t
  rw [orderFront?, orderFront?, hkeyword]
  cases ts.head?.bind Keyword.ofToken? with
  | none => rfl
  | some k =>
    rw [Option.bind_some, Option.bind_some, front?_map hf (command_isPlain k), map_node_mapRead]

theorem skipFront?_map (ts : List Token) :
    skipFront? (ts.map f) = (skipFront? ts).map (mapRead f) := by
  induction ts with
  | nil => rfl
  | cons t ts ih =>
    rw [List.map_cons, skipFront?, skipFront?, ih, hf.kind]
    split
    · rfl
    · rw [Option.map_map, Option.map_map]
      rfl

theorem frontKind?_map (kind : Token.Kind) (ts : List Token) :
    frontToken? (·.kind == kind) (ts.map f) =
      (frontToken? (·.kind == kind) ts).map (mapRead f) :=
  frontToken?_map (fun t ↦ congrArg (· == kind) (hf.kind t)) ts

theorem unknownFront?_map (ts : List Token) :
    unknownFront? (ts.map f) = (unknownFront? ts).map (mapRead f) := by
  have hline := @andThen_map f _ _ eolFront? (skipFront?_map hf ts)
    fun result _ ↦ frontKind?_map hf .eol result.2
  rw [unknownFront?, unknownFront?, hline, map_node_mapRead]

theorem lineFront?_map (stop : Bool) (ts : List Token) :
    lineFront? stop (ts.map f) = (lineFront? stop ts).map (mapRead f) := by
  rw [lineFront?, lineFront?, orderFront?_map hf, eolFront?, frontKind?_map hf,
    unknownFront?_map hf]
  cases orderFront? ts with
  | some result => rfl
  | none =>
    cases frontToken? (·.kind == .eol) ts with
    | some result => rfl
    | none => cases stop <;> simp

/-- The lines of a token list with changed tokens are its lines, changed. -/
theorem linesFront?_map (stop : Bool) (ts : List Token) :
    linesFront? stop (ts.map f) = (linesFront? stop ts).map (mapRead f) := by
  have hhead : (ts.map f).head?.any (·.kind == .eof) = ts.head?.any (·.kind == .eof) :=
    any_head?_map (fun t ↦ congrArg (· == Token.Kind.eof) (hf.kind t)) ts
  by_cases heof : ts.head?.any (·.kind == .eof) = true
  · rw [linesFront?_of_eof heof, linesFront?_of_eof (hhead.trans heof)]
    rfl
  · rw [linesFront?_of_not_eof heof, linesFront?_of_not_eof (by rwa [hhead])]
    refine andThen_map (lineFront?_map hf stop ts) fun result hresult ↦ ?_
    have hshorter := lineFront?_length_lt hresult
    exact linesFront?_map stop result.2
termination_by ts.length

/-! ### Files -/

/-- The tree of a token list with changed tokens is its tree, changed. -/
theorem fileTree?_map (stop : Bool) (ts : List Token) :
    fileTree? stop (ts.map f) = (fileTree? stop ts).map (Tree.map f) := by
  have hfile : fileFront? stop (ts.map f) = (fileFront? stop ts).map (mapRead f) :=
    andThen_map (linesFront?_map hf stop ts) fun result _ ↦ frontKind?_map hf .eof result.2
  rw [fileTree?, fileTree?, hfile]
  cases fileFront? stop ts with
  | none => rfl
  | some read =>
    obtain ⟨trees, rest⟩ := read
    have hend : (rest.map f).head?.all (·.kind == .eof) = rest.head?.all (·.kind == .eof) := by
      cases rest with
      | nil => rfl
      | cons t rest => exact congrArg (· == Token.Kind.eof) (hf.kind t)
    simp only [Option.map_some, Option.bind_some, mapRead, hend]
    split <;> simp

end

end OrderFile.Grammar
