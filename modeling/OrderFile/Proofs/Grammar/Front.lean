import OrderFile.Grammar.Pattern
import OrderFile.Proofs.Parse.Bare

/-!
Patterns read off the front of a token list, with no parse around. `follow_agrees_and` says that a
parse that follows a pattern takes the trees that `front?` reads off the tokens left, and fails where
`front?` gives nothing; so all that patterns do can be said of lists.
-/

set_option autoImplicit false

namespace OrderFile.Grammar.Pattern

/-- Whether a token is all that a pattern of one token asks for. -/
def admits (t : Token) : Pattern → Bool
  | token shape => shape.accepts t
  | anyOf kinds => kinds.contains t.kind
  | oneWord words => words.any t.spells
  | integerIn low high =>
    t.kind == .integer && t.integer?.any fun n ↦ low ≤ n && n ≤ high
  | _ => false

/-- The first token, if it passes a test. -/
def frontToken? (test : Token → Bool) : List Token → Option (List Tree × List Token)
  | [] => none
  | t :: ts => if test t then some ([.leaf t], ts) else none

/-- What a body reads until it fails or a word comes next, at most the given number of times. -/
def frontUntil (stop : String) (body : List Token → Option (List Tree × List Token)) :
    Nat → List Token → List Tree × List Token
  | 0, ts => ([], ts)
  | n + 1, ts =>
    if ts.head?.any (·.spells stop) then ([], ts)
    else
      match body ts with
      | some (trees, rest) =>
        (trees ++ (frontUntil stop body n rest).1, (frontUntil stop body n rest).2)
      | none => ([], ts)

/-- One reading, and another one of the tokens after it. -/
def andThen (read : Option (List Tree × List Token))
    (next : List Token → Option (List Tree × List Token)) : Option (List Tree × List Token) :=
  read.bind fun (trees, ts) ↦ (next ts).map fun (others, rest) ↦ (trees ++ others, rest)

/-- What a pattern reads off the front of a token list, and the tokens after it. -/
def front? : Pattern → List Token → Option (List Tree × List Token)
  | empty, ts => some ([], ts)
  | token shape, ts => frontToken? (token shape |>.admits ·) ts
  | anyOf kinds, ts => frontToken? (anyOf kinds |>.admits ·) ts
  | oneWord words, ts => frontToken? (oneWord words |>.admits ·) ts
  | integerIn low high, ts => frontToken? (integerIn low high |>.admits ·) ts
  | seq first second, ts => andThen (first.front? ts) second.front?
  | optional body, ts => if ts.head?.any (body.starts ·) then body.front? ts else some ([], ts)
  | choice first second, ts =>
    if ts.head?.any (first.starts ·) then first.front? ts else second.front? ts
  | repeated body stop, ts => some (frontUntil stop body.front? (ts.length + 1) ts)
  | rule name body, ts => (body.front? ts).map fun (trees, rest) ↦ ([.node name trees], rest)

def isRule : Pattern → Bool
  | rule _ _ => true
  | _ => false

/-- Whether only rules are repeated. What a rule took is given back when it fails, so that the
repetition ends where the last success did. -/
def repeatsRules : Pattern → Bool
  | seq first second | choice first second => first.repeatsRules && second.repeatsRules
  | optional body | rule _ body => body.repeatsRules
  | repeated body _ => body.isRule && body.repeatsRules
  | _ => true

/-! ### Nothing is lost -/

theorem frontToken?_eq_some {test : Token → Bool} {ts rest : List Token} {trees : List Tree}
    (h : frontToken? test ts = some (trees, rest)) :
    ∃ t, test t = true ∧ trees = [.leaf t] ∧ ts = t :: rest := by
  cases ts with
  | nil => cases h
  | cons t ts =>
    by_cases ht : test t
    · rw [frontToken?, if_pos ht] at h
      cases h
      exact ⟨t, ht, rfl, rfl⟩
    · rw [frontToken?, if_neg ht] at h
      cases h

/-- What is repeated and what is left are all the tokens. -/
theorem frontUntil_append {stop : String}
    {body : List Token → Option (List Tree × List Token)}
    (hbody : ∀ ts trees rest, body ts = some (trees, rest) → ts = Tree.tokensOf trees ++ rest)
    (n : Nat) (ts : List Token) :
    ts = Tree.tokensOf (frontUntil stop body n ts).1 ++ (frontUntil stop body n ts).2 := by
  induction n generalizing ts with
  | zero => rfl
  | succ n ih =>
    rw [frontUntil]
    split
    · rfl
    split
    · next trees rest hfront =>
      rw [Tree.tokensOf_append, List.append_assoc, ← ih rest]
      exact hbody _ _ _ hfront
    · rfl

/-- Two readings in a row come to something if each of them does. -/
theorem andThen_eq_some {read : Option (List Tree × List Token)}
    {next : List Token → Option (List Tree × List Token)} {trees : List Tree} {rest : List Token}
    (h : andThen read next = some (trees, rest)) :
    ∃ first middle second, read = some (first, middle) ∧ next middle = some (second, rest) ∧
      trees = first ++ second := by
  obtain ⟨⟨first, middle⟩, hread, hmap⟩ := Option.bind_eq_some_iff.mp h
  obtain ⟨⟨second, after⟩, hnext, heq⟩ := Option.map_eq_some_iff.mp hmap
  cases heq
  exact ⟨first, middle, second, hread, hnext, rfl⟩

theorem andThen_of_eq_some {read : Option (List Tree × List Token)}
    {next : List Token → Option (List Tree × List Token)} {first second : List Tree}
    {middle rest : List Token} (hread : read = some (first, middle))
    (hnext : next middle = some (second, rest)) :
    andThen read next = some (first ++ second, rest) := by
  rw [andThen, hread, Option.bind_some]
  dsimp only
  rw [hnext, Option.map_some]

/-- What a pattern reads and what is left are all the tokens. -/
theorem front?_append {pattern : Pattern} {ts rest : List Token} {trees : List Tree}
    (h : pattern.front? ts = some (trees, rest)) : ts = Tree.tokensOf trees ++ rest := by
  induction pattern generalizing ts rest trees with
  | empty =>
    cases h
    rfl
  | token | anyOf | oneWord | integerIn =>
    obtain ⟨t, -, rfl, rfl⟩ := frontToken?_eq_some h
    rfl
  | seq first second ihfirst ihsecond =>
    obtain ⟨trees₁, middle, trees₂, hfirst, hsecond, rfl⟩ := andThen_eq_some h
    rw [Tree.tokensOf_append, List.append_assoc, ← ihsecond hsecond, ← ihfirst hfirst]
  | optional body ih =>
    rw [front?] at h
    split at h
    · exact ih h
    · cases h
      rfl
  | choice first second ihfirst ihsecond =>
    rw [front?] at h
    split at h
    · exact ihfirst h
    · exact ihsecond h
  | repeated body stop ih =>
    have heq := Option.some.inj h
    have hparts := @frontUntil_append stop _ (fun _ _ _ ↦ ih) (ts.length + 1) ts
    rwa [heq] at hparts
  | rule name body ih =>
    obtain ⟨⟨inner, after⟩, hbody, heq⟩ := Option.map_eq_some_iff.mp h
    cases heq
    simpa using ih hbody

/-! ### Parses that follow a pattern -/

/-- A parse went as the reading of the tokens left went: it took the trees that were read, or it
failed and strayed. -/
def Agrees (p : Parse) (result : Bool × Parse) : Option (List Tree × List Token) → Prop
  | some (trees, _) => result.1 = true ∧ result.2.bare = p.bare.took trees
  | none => result.1 = false ∧ p.Strayed result.2

/-- The same for what changes nothing when it fails. -/
def AgreesWhole (p : Parse) (result : Bool × Parse) : Option (List Tree × List Token) → Prop
  | some (trees, _) => result.1 = true ∧ result.2.bare = p.bare.took trees
  | none => result.1 = false ∧ result.2.bare = p.bare

/-- A parse that fails without straying has failed. -/
theorem AgreesWhole.agrees {p : Parse} {result : Bool × Parse}
    {outcome : Option (List Tree × List Token)} (h : AgreesWhole p result outcome) :
    Agrees p result outcome := by
  cases outcome with
  | none => exact ⟨h.1, .of_bare_eq h.2⟩
  | some outcome => exact h

/-- A rule gives back what it took if it fails, however far its body strayed. -/
theorem within_agreesWhole {name : String} {body : Parse → Bool × Parse} {p : Parse}
    {outcome : Option (List Tree × List Token)} (hopen : p.frames ≠ [])
    (h : Agrees (p.enter name) (body (p.enter name)) outcome) :
    AgreesWhole p (p.within name body)
      (outcome.map fun (trees, rest) ↦ ([.node name trees], rest)) := by
  cases outcome with
  | none => exact Parse.bare_within_of_strayed hopen h.1 h.2
  | some outcome => exact Parse.bare_within_of_took hopen h.1 h.2

/-! #### One token -/

theorem frontToken?_congr {first : Token → Bool} (second : Token → Bool) {ts : List Token}
    (h : ∀ t, ts.head? = some t → first t = second t) :
    frontToken? first ts = frontToken? second ts := by
  cases ts with
  | nil => rfl
  | cons t ts => rw [frontToken?, frontToken?, h t rfl]

/-- An attempt takes the next token exactly if the token passes. -/
theorem attempt_agreesWhole (expected : String) (test : Token → Bool) (p : Parse) :
    AgreesWhole p (p.attempt expected test) (frontToken? test p.rest) := by
  rw [Parse.attempt, Parse.next?_eq]
  cases p.rest with
  | nil => exact ⟨rfl, Parse.bare_miss ..⟩
  | cons t ts =>
    rw [frontToken?, List.head?_cons]
    dsimp only
    split
    · exact ⟨rfl, Parse.bare_take ..⟩
    · exact ⟨rfl, Parse.bare_miss ..⟩

theorem accept_agreesWhole (shape : Shape) (p : Parse) :
    AgreesWhole p (p.accept shape) (frontToken? shape.accepts p.rest) :=
  attempt_agreesWhole ..

@[simp] theorem accepts_kind (k : Token.Kind) (t : Token) :
    Shape.accepts ⟨k, none⟩ t = (t.kind == k) := by
  simp [Shape.accepts]

/-- Of several kinds the next token must have one. -/
theorem acceptAnyOf_agreesWhole (kinds : List Token.Kind) (p : Parse) :
    AgreesWhole p (p.acceptAnyOf kinds) (frontToken? (kinds.contains ·.kind) p.rest) := by
  rw [Parse.acceptAnyOf]
  split
  · next kind hfind =>
    have hsees := List.find?_some hfind
    have hmem := List.mem_of_find?_eq_some hfind
    rw [frontToken?_congr (Shape.accepts ⟨kind, none⟩)]
    · exact accept_agreesWhole ..
    · intro t ht
      simp_all [Parse.sees, Parse.next?_eq]
  · next hfind =>
    rw [frontToken?_congr fun _ ↦ false]
    · cases p.rest <;> exact ⟨rfl, Parse.bare_miss ..⟩
    · intro t ht
      simp only [Parse.sees, Parse.next?_eq, ht, List.find?_eq_none] at hfind
      simpa using fun hmem ↦ hfind t.kind hmem (by simp)

theorem follow_oneWord_agreesWhole (words : List String) (p : Parse) :
    AgreesWhole p (follow (oneWord words) p) (front? (oneWord words) p.rest) := by
  have hword {w : String}
      (h : ∀ t, p.rest.head? = some t → admits t (oneWord words) = t.spells w) :
      AgreesWhole p (p.acceptWord w) (front? (oneWord words) p.rest) := by
    rw [front?, frontToken?_congr _ h]
    exact accept_agreesWhole (.keyword w) p
  cases hfind : words.find? fun w ↦ p.next?.any (·.spells w) with
  | some w =>
    have hfollow : follow (oneWord words) p = p.acceptWord w := by
      cases words <;> simp [follow, hfind]
    rw [hfollow]
    refine hword fun t ht ↦ ?_
    have hnext := List.find?_some hfind
    simp only [Parse.next?_eq, ht, Option.any_some] at hnext
    rw [admits, hnext]
    exact List.any_eq_true.mpr ⟨w, List.mem_of_find?_eq_some hfind, hnext⟩
  | none =>
    cases words with
    | nil => cases hrest : p.rest <;> exact ⟨rfl, rfl⟩
    | cons w others =>
      have hfollow : follow (oneWord (w :: others)) p = p.acceptWord w := by
        simp [follow, hfind]
      rw [hfollow]
      refine hword fun t ht ↦ ?_
      simp only [Parse.next?_eq, ht, Option.any_some, List.find?_eq_none] at hfind
      simp_all [admits]

/-- An integer out of its bounds is taken, and fails after that. -/
theorem follow_integerIn_agrees (low high : Int64) (p : Parse) :
    Agrees p (follow (integerIn low high) p) (front? (integerIn low high) p.rest) := by
  have hkind := accept_agreesWhole ⟨.integer, none⟩ p
  rw [follow, front?, Parse.acceptKind, Parse.next?_eq]
  generalize p.accept ⟨.integer, none⟩ = result at *
  obtain ⟨success, later⟩ := result
  cases hrest : p.rest with
  | nil =>
    rw [hrest] at hkind
    have hsuccess : success = false := hkind.1
    exact ⟨by rw [hsuccess]; rfl, .of_bare_eq hkind.2⟩
  | cons t ts =>
    rw [hrest, frontToken?, accepts_kind] at hkind
    rw [frontToken?, admits, List.head?_cons, Option.bind_some]
    cases ht : t.kind == .integer with
    | false =>
      rw [ht] at hkind
      have hsuccess : success = false := hkind.1
      exact ⟨by rw [hsuccess]; rfl, .of_bare_eq hkind.2⟩
    | true =>
      rw [ht] at hkind
      obtain ⟨hsuccess, hbare⟩ := hkind
      cases hrange : t.integer?.any fun n ↦ low ≤ n && n ≤ high with
      | false => exact ⟨by simp, .of_took hbare (.of_bare_eq rfl)⟩
      | true => exact ⟨by simpa using hsuccess, hbare⟩

/-! #### Repetition -/

/-- Taking trees leaves a rule open if one was. -/
theorem frames_ne_nil_of_took {p later : Parse} {trees : List Tree} (hopen : p.frames ≠ [])
    (h : later.bare = p.bare.took trees) : later.frames ≠ [] := by
  intro hnil
  have hframes := congrArg Parse.frames h
  rw [Parse.bare, Parse.took, hnil] at hframes
  cases hp : p.frames with
  | nil => exact hopen hp
  | cons frame outer => simp [Parse.bare, hp] at hframes

/-- The tokens left after trees were taken that stand at the front. -/
theorem rest_of_took {p later : Parse} {trees : List Tree} {ts : List Token}
    (h : later.bare = p.bare.took trees) (hfront : p.rest = Tree.tokensOf trees ++ ts) :
    later.rest = ts := by
  rw [← Parse.rest_bare, h, Parse.rest_took, Parse.rest_bare, hfront, List.drop_left]

/-- A parse that repeats a rule takes what is read by repeating it. -/
theorem repeatUntil_took {stop : String} {body : Parse → Bool × Parse}
    {front : List Token → Option (List Tree × List Token)}
    (happend : ∀ ts trees rest, front ts = some (trees, rest) → ts = Tree.tokensOf trees ++ rest)
    (hbody : ∀ p, p.frames ≠ [] → AgreesWhole p (body p) (front p.rest)) (n : Nat) (p : Parse)
    (hopen : p.frames ≠ []) :
    (repeatUntil stop body n p).bare = p.bare.took (frontUntil stop front n p.rest).1 := by
  induction n generalizing p with
  | zero => exact (Parse.took_nil _).symm
  | succ n ih =>
    rw [repeatUntil, frontUntil, Parse.next?_eq]
    split
    · exact (Parse.took_nil _).symm
    have hstep := hbody p hopen
    generalize body p = result at hstep
    obtain ⟨success, later⟩ := result
    cases hfront : front p.rest with
    | none =>
      rw [hfront] at hstep
      have hsuccess : success = false := hstep.1
      rw [hsuccess]
      exact hstep.2.trans (Parse.took_nil _).symm
    | some read =>
      obtain ⟨trees, rest⟩ := read
      rw [hfront] at hstep
      have hsuccess : success = true := hstep.1
      have hbare : later.bare = p.bare.took trees := hstep.2
      have hrest := rest_of_took hbare (happend _ _ _ hfront)
      rw [hsuccess]
      dsimp only
      rw [ih later (frames_ne_nil_of_took hopen hbare), hbare, hrest, Parse.took_took]

/-! #### Whole patterns -/

/-- What comes after a step, if that succeeded. -/
def onSuccess (next : Parse → Bool × Parse) : Bool × Parse → Bool × Parse
  | (true, p) => next p
  | (false, p) => (false, p)

/-- A step that goes on after a success agrees with two readings one after the other. -/
theorem agrees_andThen {goOn : Parse → Bool × Parse} {p : Parse} {first : Bool × Parse}
    {read : Option (List Tree × List Token)}
    {next : List Token → Option (List Tree × List Token)}
    (happend : ∀ trees rest, read = some (trees, rest) → p.rest = Tree.tokensOf trees ++ rest)
    (hfirst : Agrees p first read)
    (hnext : ∀ later trees rest, read = some (trees, rest) → later.bare = p.bare.took trees →
      later.rest = rest → Agrees later (goOn later) (next rest)) :
    Agrees p (onSuccess goOn first) (andThen read next) := by
  obtain ⟨success, later⟩ := first
  cases read with
  | none =>
    have hsuccess : success = false := hfirst.1
    rw [hsuccess]
    exact ⟨rfl, hfirst.2⟩
  | some read =>
    obtain ⟨trees, rest⟩ := read
    have hsuccess : success = true := hfirst.1
    have hbare : later.bare = p.bare.took trees := hfirst.2
    have hafter := hnext later trees rest rfl hbare (rest_of_took hbare (happend trees rest rfl))
    rw [hsuccess]
    change Agrees p _ ((next rest).map fun read ↦ (trees ++ read.1, read.2))
    cases hread : next rest with
    | none =>
      rw [hread] at hafter
      exact ⟨hafter.1, hafter.2.of_took hbare⟩
    | some read =>
      rw [hread] at hafter
      refine ⟨hafter.1, ?_⟩
      change (goOn later).2.bare = _
      rw [hafter.2, hbare, Parse.took_took]

/-- A parse that follows a pattern inside a rule goes as the reading of the tokens left goes. A
pattern that is a rule changes nothing when it fails: the induction needs this of repeated rules. -/
theorem follow_agrees_and {pattern : Pattern} (hrepeats : pattern.repeatsRules) {p : Parse}
    (hopen : p.frames ≠ []) :
    Agrees p (pattern.follow p) (pattern.front? p.rest) ∧
      (pattern.isRule → AgreesWhole p (pattern.follow p) (pattern.front? p.rest)) := by
  -- The two statements are proved together, since what is repeated has to be a rule, and a rule
  -- gives back what it took.
  induction pattern generalizing p with
  | empty => exact ⟨⟨rfl, (Parse.took_nil _).symm⟩, (absurd · Bool.false_ne_true)⟩
  | token shape => exact ⟨(accept_agreesWhole shape p).agrees, (absurd · Bool.false_ne_true)⟩
  | anyOf kinds => exact ⟨(acceptAnyOf_agreesWhole kinds p).agrees, (absurd · Bool.false_ne_true)⟩
  | oneWord words =>
    exact ⟨(follow_oneWord_agreesWhole words p).agrees, (absurd · Bool.false_ne_true)⟩
  | integerIn low high => exact ⟨follow_integerIn_agrees low high p, (absurd · Bool.false_ne_true)⟩
  | seq first second ihfirst ihsecond =>
    have hboth := (Bool.and_eq_true _ _).mp hrepeats
    refine ⟨?_, (absurd · Bool.false_ne_true)⟩
    have hfirst := (ihfirst hboth.1 hopen).1
    rw [follow, front?]
    change Agrees p (onSuccess second.follow (first.follow p)) _
    exact agrees_andThen (fun _ _ ↦ front?_append) hfirst fun later _ _ _ hbare hrest ↦
      hrest ▸ (ihsecond hboth.2 (frames_ne_nil_of_took hopen hbare)).1
  | optional body ih =>
    refine ⟨?_, (absurd · Bool.false_ne_true)⟩
    rw [follow, front?, isNext, Parse.next?_eq]
    split
    · exact (ih hrepeats hopen).1
    · exact ⟨rfl, (Parse.took_nil _).symm⟩
  | choice first second ihfirst ihsecond =>
    have hboth := (Bool.and_eq_true _ _).mp hrepeats
    refine ⟨?_, (absurd · Bool.false_ne_true)⟩
    rw [follow, front?, isNext, Parse.next?_eq]
    split
    · exact (ihfirst hboth.1 hopen).1
    · exact (ihsecond hboth.2 hopen).1
  | repeated body stop ih =>
    have hboth := (Bool.and_eq_true _ _).mp hrepeats
    refine ⟨⟨rfl, ?_⟩, (absurd · Bool.false_ne_true)⟩
    rw [follow, Parse.remaining_eq]
    exact repeatUntil_took (fun _ _ _ ↦ front?_append)
      (fun _ hopen ↦ (ih hboth.2 hopen).2 hboth.1) _ _ hopen
  | rule name body ih =>
    have hbody := (@ih hrepeats (p.enter name) (List.cons_ne_nil _ _)).1
    have hwhole := within_agreesWhole hopen hbody
    exact ⟨hwhole.agrees, fun _ ↦ hwhole⟩

end OrderFile.Grammar.Pattern
