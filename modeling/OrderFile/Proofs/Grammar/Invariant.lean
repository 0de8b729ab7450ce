import OrderFile.Proofs.Grammar.Dispatch

/-!
What every step of a parse keeps, a parse of a whole file keeps: `keeps_orders`. The rules that are
entered on the way are known by name, so an invariant need not be kept by any others.
-/

set_option autoImplicit false

namespace OrderFile

/-- What the steps of a parse keep if no rules are entered but those with certain names. -/
structure Parse.Keeps (names : List String) (Inv : Parse → Prop) : Prop where
  enter {p : Parse} {name : String} (hname : name ∈ names) (h : Inv p) : Inv (p.enter name)
  accept {p : Parse} (shape : Shape) (h : Inv p) : Inv (p.accept shape).2
  acceptAnyOf {p : Parse} (kinds : List Token.Kind) (h : Inv p) : Inv (p.acceptAnyOf kinds).2
  advance {p : Parse} (h : Inv p) : Inv p.advance.2
  close {p : Parse} (success : Bool) (h : Inv p) : Inv (p.close success).2

namespace Grammar

open Pattern
open Parse (Keeps)

variable {names : List String} {Inv : Parse → Prop} {p : Parse}

/-! ### Parts of a parse -/

/-- A rule with one of the names keeps what its body keeps. -/
theorem keeps_within (hkeeps : Keeps names Inv) {name : String} (hname : name ∈ names)
    {body : Parse → Bool × Parse} (hbody : ∀ q, Inv q → Inv (body q).2) (h : Inv p) :
    Inv (p.within name body).2 := by
  rw [Parse.within_eq]
  exact hkeeps.close _ (hbody _ (hkeeps.enter hname h))

theorem keeps_onSuccess {first : Bool × Parse} {next : Parse → Bool × Parse} (hfirst : Inv first.2)
    (hnext : ∀ q, Inv q → Inv (next q).2) : Inv (onSuccess next first).2 := by
  obtain ⟨success, later⟩ := first
  cases success with
  | false => exact hfirst
  | true => exact hnext later hfirst

theorem keeps_onFailure {first : Bool × Parse} {orElse : Parse → Bool × Parse}
    (hfirst : Inv first.2) (horElse : ∀ q, Inv q → Inv (orElse q).2) :
    Inv (onFailure orElse first).2 := by
  obtain ⟨success, later⟩ := first
  cases success with
  | true => exact hfirst
  | false => exact horElse later hfirst

/-! ### Patterns -/

/-- Repeating a step keeps what the step keeps, however often it is repeated. -/
theorem keeps_repeatUntil {stop : String} {body : Parse → Bool × Parse}
    (hbody : ∀ q, Inv q → Inv (body q).2) (n : Nat) (h : Inv p) :
    Inv (repeatUntil stop body n p) := by
  induction n generalizing p with
  | zero => exact h
  | succ n ih =>
    have hfirst := hbody p h
    rw [repeatUntil]
    split
    · exact h
    generalize body p = result at hfirst
    obtain ⟨success, later⟩ := result
    cases success with
    | false => exact hfirst
    | true => exact ih hfirst

/-- A pattern that is followed keeps what all steps keep that enter none but its own rules. -/
theorem keeps_follow (hkeeps : Keeps names Inv) {pattern : Pattern}
    (hnames : pattern.ruleNames ⊆ names) (h : Inv p) : Inv (pattern.follow p).2 := by
  induction pattern generalizing p with
  | empty => exact h
  | token shape => exact hkeeps.accept shape h
  | anyOf kinds => exact hkeeps.acceptAnyOf kinds h
  | oneWord words =>
    unfold follow
    split
    · exact hkeeps.accept _ h
    · exact hkeeps.accept _ h
    · exact h
  | integerIn low high => exact hkeeps.accept _ h
  | seq first second ihfirst ihsecond =>
    obtain ⟨hfirst, hsecond⟩ := List.append_subset.mp hnames
    exact keeps_onSuccess (ihfirst hfirst h) fun q ↦ ihsecond hsecond
  | optional body ih =>
    rw [follow]
    split
    · exact ih hnames h
    · exact h
  | choice first second ihfirst ihsecond =>
    obtain ⟨hfirst, hsecond⟩ := List.append_subset.mp hnames
    rw [follow]
    split
    · exact ihfirst hfirst h
    · exact ihsecond hsecond h
  | repeated body stop ih => exact keeps_repeatUntil (fun q ↦ ih hnames) _ h
  | rule name body ih =>
    obtain ⟨hname, hbody⟩ := List.cons_subset.mp hnames
    exact keeps_within hkeeps hname (fun q ↦ ih hbody) h

/-! ### Files -/

/-- The names of all rules of order files. -/
def ruleNames : List String :=
  ["orders", "order", "unknown"] ++ Keyword.all.flatMap fun k ↦ (command k).ruleNames

/-- The rules of every command are among the rules of files. -/
theorem command_ruleNames_subset (k : Keyword) : (command k).ruleNames ⊆ ruleNames :=
  fun _ hname ↦ List.mem_append_right _ (List.mem_flatMap.mpr ⟨k, k.mem_all, hname⟩)

/-- An order keeps what is kept by every step. -/
theorem keeps_order (hkeeps : Keeps ruleNames Inv) (h : Inv p) : Inv (order p).2 := by
  refine keeps_within hkeeps (by decide) (fun q hq ↦ ?_) h
  split
  · exact keeps_follow hkeeps (command_ruleNames_subset _) hq
  · exact hq

theorem keeps_skipLine (hkeeps : Keeps names Inv) (n : Nat) (h : Inv p) :
    Inv (skipLine n p).2 := by
  induction n generalizing p with
  | zero => exact h
  | succ n ih =>
    rw [skipLine]
    split
    · exact h
    · exact keeps_onSuccess (hkeeps.advance h) fun q ↦ ih

theorem keeps_unknown (hkeeps : Keeps ruleNames Inv) (h : Inv p) : Inv (unknown p).2 :=
  keeps_within hkeeps (by decide)
    (fun _ hq ↦ keeps_onSuccess (keeps_skipLine hkeeps _ hq) fun _ ↦ hkeeps.accept _) h

theorem keeps_line (hkeeps : Keeps ruleNames Inv) (stop : Bool) (h : Inv p) :
    Inv (line stop p).2 := by
  let last (q : Parse) : Bool × Parse := if stop then (false, q) else unknown q
  change Inv (onFailure (fun q ↦ onFailure last (q.acceptKind .eol)) (order p)).2
  refine keeps_onFailure (keeps_order hkeeps h) fun middle hmiddle ↦ ?_
  refine keeps_onFailure (hkeeps.accept _ hmiddle) fun later hlater ↦ ?_
  cases stop with
  | true => exact hlater
  | false => exact keeps_unknown hkeeps hlater

theorem keeps_lines (hkeeps : Keeps ruleNames Inv) (stop : Bool) (n : Nat) (h : Inv p) :
    Inv (lines stop n p).2 := by
  induction n generalizing p with
  | zero => exact h
  | succ n ih =>
    rw [lines]
    split
    · exact h
    · exact keeps_onSuccess (keeps_line hkeeps stop h) fun q ↦ ih

/-- What all steps keep that enter none but the rules of order files, a parse of a file keeps. -/
theorem keeps_orders (hkeeps : Keeps ruleNames Inv) (stop : Bool) (h : Inv p) :
    Inv (orders stop p).2 :=
  keeps_within hkeeps (by decide)
    (fun _ hq ↦ keeps_onSuccess (keeps_lines hkeeps stop _ hq) fun _ ↦ hkeeps.accept _) h

end Grammar

end OrderFile
