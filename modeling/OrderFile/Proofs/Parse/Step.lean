import OrderFile.Parse.Call
import OrderFile.Proofs.Parse.Bare

/-!
What a step of a parse can do, and sequences of steps in which every rule that is entered is closed
again. `step_of_call` says once what every call does to the state, so that an invariant of parses
needs one case for each of the six steps (`run_invariant`). `run_inside` is the frame rule: inside a
rule, balanced calls touch nothing but what that rule took and tried.
-/

set_option autoImplicit false

namespace OrderFile.Parse

/-! ### Single steps -/

/-- Whether a call tries the next token: it neither enters nor closes a rule. -/
def Call.isAttempt : Call → Bool
  | enter _ | close _ => false
  | accept _ | acceptAnyOf _ | advance => true

/-- What a call expects the next token to be, if it tries one. -/
def Call.expected? : Call → Option String
  | enter _ | close _ => none
  | accept shape => some shape.display
  | acceptAnyOf kinds => some (Token.Kind.joinedNames kinds)
  | advance => some "ANY"

/-- The entry of a closed rule. -/
def Frame.entry (frame : Frame) (succeeded : Bool) : Trace :=
  .entry (.rule frame.rule succeeded) frame.trace.toList

/-- The node of a rule that succeeded. -/
def Frame.node (frame : Frame) : Tree :=
  .node frame.rule frame.children.toList

/-- What a call that makes sense answers and leaves behind. -/
inductive Step (p : Parse) : Call → Bool → Parse → Prop
  | enter (rule : String) : Step p (.enter rule) true (p.enter rule)
  | take {c : Call} {t : Token} (expected : String) (hc : c.isAttempt = true)
      (hopen : p.frames ≠ []) (ht : p.next? = some t) : Step p c true (p.take expected t)
  | miss {c : Call} (expected : String) (hc : c.expected? = some expected) :
      Step p c false (p.miss expected)
  | inner {frame parent : Frame} {outer : List Frame} (success : Bool)
      (hframes : p.frames = frame :: parent :: outer) :
      Step p (.close success) success (p.closeInner success frame parent outer)
  | root {frame : Frame} (hframes : p.frames = [frame]) (hend : p.atEnd = true) :
      Step p (.close true) true
        { p with frames := [], tree := some frame.node, trace := some (frame.entry true) }
  /-- The root fails by itself, or because there is more to read. -/
  | rejected {frame : Frame} (success : Bool) (fault : Fault) (hframes : p.frames = [frame]) :
      Step p (.close success) false
        { p with
          cursor := frame.start
          frames := []
          trace := some (frame.entry false)
          fault := some fault }

section

variable {p q : Parse} {c : Call} {answer : Bool}

theorem Call.isAttempt_of_expected? {expected : String} (hc : c.expected? = some expected) :
    c.isAttempt = true := by
  cases c with
  | enter | close => cases hc
  | accept | acceptAnyOf | advance => rfl

/-- An attempt at one token takes it or misses it. -/
theorem step_of_attempt {expected : String} {test : Token → Bool}
    (hc : c.expected? = some expected) (hopen : p.frames ≠ [])
    (h : p.attempt expected test = (answer, q)) : Step p c answer q := by
  obtain ⟨t, ht, htaken⟩ | hmissed := attempt_cases expected test p
  · rw [htaken] at h
    cases h
    exact .take expected (Call.isAttempt_of_expected? hc) hopen ht
  · rw [hmissed] at h
    cases h
    exact .miss expected hc

/-- A call that needs an open rule is made only if one is open, and changes nothing by that. -/
theorem inRule_eq_ok {operation : String} (h : p.inRule operation = .ok q) :
    q = p ∧ p.frames ≠ [] := by
  unfold inRule at h
  split at h
  · cases h
  · next hopen =>
    cases h
    exact ⟨rfl, fun hnil ↦ hopen (by rw [hnil]; rfl)⟩

/-- If two calls in a row are made, each of them is. -/
theorem bind_eq_ok {α β : Type} {first : Except Misuse α} {next : α → Except Misuse β} {b : β}
    (h : first >>= next = .ok b) : ∃ a, first = .ok a ∧ next a = .ok b := by
  cases first with
  | error misuse => cases h
  | ok a => exact ⟨a, rfl, h⟩

/-- A result of which something was computed. -/
theorem exists_ok_of_toOption {ε α β : Type} {result : Except ε α} {f : α → β} {b : β}
    (h : result.toOption.map f = some b) : ∃ a, result = .ok a ∧ f a = b := by
  cases result with
  | error e => cases h
  | ok a => exact ⟨a, rfl, Option.some.inj h⟩

/-- A token of a kind that is seen is taken. -/
theorem acceptKind_of_sees {kind : Token.Kind} (h : p.sees [kind] = true) :
    ∃ t, p.next? = some t ∧ p.acceptKind kind = (true, p.take (Shape.display ⟨kind, none⟩) t) := by
  rw [sees, Option.any_eq_true] at h
  obtain ⟨t, ht, hkind⟩ := h
  have haccepts : Shape.accepts ⟨kind, none⟩ t = true := by
    simpa [Shape.accepts] using hkind
  refine ⟨t, ht, ?_⟩
  rw [acceptKind, accept, attempt, ht]
  exact if_pos haccepts

/-- An attempt at one of several kinds takes a token, misses, or has no kinds to try. -/
theorem step_of_acceptAnyOf {kinds : List Token.Kind} (hopen : kinds ≠ [] → p.frames ≠ [])
    (h : p.acceptAnyOf kinds = (answer, q)) : Step p (.acceptAnyOf kinds) answer q := by
  unfold acceptAnyOf at h
  split at h
  · next kind hfind =>
    have hkinds : kinds ≠ [] := List.ne_nil_of_mem (List.mem_of_find?_eq_some hfind)
    have hsees := List.find?_some hfind
    obtain ⟨t, ht, htaken⟩ := acceptKind_of_sees hsees
    rw [htaken] at h
    cases h
    exact .take _ rfl (hopen hkinds) ht
  · cases h
    exact .miss _ rfl

/-- Closing a rule ends the root or a rule inside another one. -/
theorem step_of_close {success : Bool} (hopen : p.frames ≠ [])
    (h : p.close success = (answer, q)) : Step p (.close success) answer q := by
  unfold close at h
  split at h
  · next hnil => exact absurd hnil hopen
  · next frame hframes =>
    unfold closeRoot at h
    by_cases hsuccess : success = true
    · subst hsuccess
      rw [if_pos rfl] at h
      by_cases hend : p.atEnd = true
      · rw [if_pos hend] at h
        cases h
        exact .root hframes hend
      · rw [if_neg hend] at h
        cases h
        exact .rejected true _ hframes
    · rw [if_neg hsuccess] at h
      cases h
      exact .rejected success _ hframes
  · next frame parent outer hframes =>
    cases h
    exact .inner _ hframes

/-- Every call that makes sense is one of the steps. -/
theorem step_of_call (h : p.call c = .ok (answer, q)) : Step p c answer q := by
  cases c with
  | enter rule =>
    cases h
    exact .enter rule
  | close success =>
    rw [call] at h
    split at h
    · cases h
    · next hopen => exact step_of_close (fun hnil ↦ hopen (by rw [hnil]; rfl)) (Except.ok.inj h)
  | accept shape =>
    rw [call] at h
    obtain ⟨m, hm, hanswer⟩ := bind_eq_ok h
    obtain ⟨rfl, hopen⟩ := inRule_eq_ok hm
    exact step_of_attempt rfl hopen (Except.ok.inj hanswer)
  | acceptAnyOf kinds =>
    rw [call] at h
    by_cases hnil : kinds = []
    · rw [hnil] at h ⊢
      exact step_of_acceptAnyOf (fun hkinds ↦ absurd rfl hkinds) (Except.ok.inj h)
    · rw [List.isEmpty_eq_false_iff.mpr hnil] at h
      obtain ⟨m, hm, hanswer⟩ := bind_eq_ok h
      obtain ⟨rfl, hopen⟩ := inRule_eq_ok hm
      exact step_of_acceptAnyOf (fun _ ↦ hopen) (Except.ok.inj hanswer)
  | advance =>
    rw [call] at h
    obtain ⟨m, hm, hanswer⟩ := bind_eq_ok h
    obtain ⟨rfl, hopen⟩ := inRule_eq_ok hm
    exact step_of_attempt rfl hopen (Except.ok.inj hanswer)

/-! ### Sequences of steps -/

theorem run_nil_iff : p.run [] = .ok q ↔ p = q := by
  constructor
  · intro h
    exact Except.ok.inj h
  · rintro rfl
    rfl

/-- The first call of a sequence, and the others. -/
theorem run_cons {calls : List Call} (h : p.run (c :: calls) = .ok q) :
    ∃ answer m, p.call c = .ok (answer, m) ∧ m.run calls = .ok q := by
  obtain ⟨⟨answer, m⟩, hcall, hrest⟩ := bind_eq_ok h
  exact ⟨answer, m, hcall, hrest⟩

theorem run_append_bind (first second : List Call) (p : Parse) :
    p.run (first ++ second) = p.run first >>= fun m ↦ m.run second := by
  induction first generalizing p with
  | nil => rfl
  | cons c first ih =>
    rw [List.cons_append, run, run]
    cases p.call c with
    | error misuse => rfl
    | ok result => exact ih result.2

/-- A run of two sequences of calls is a run of one and then of the other. -/
theorem run_append {first second : List Call} (h : p.run (first ++ second) = .ok q) :
    ∃ m, p.run first = .ok m ∧ m.run second = .ok q := by
  rw [run_append_bind] at h
  exact bind_eq_ok h

theorem run_append_eq {first second : List Call} {m : Parse} (h : p.run first = .ok m) :
    p.run (first ++ second) = m.run second := by
  rw [run_append_bind, h]
  rfl

/-- What every step keeps, every sequence of steps keeps. -/
theorem run_invariant {Inv : Parse → Prop}
    (hstep : ∀ p c answer q, Inv p → Step p c answer q → Inv q) {calls : List Call}
    (hp : Inv p) (h : p.run calls = .ok q) : Inv q := by
  induction calls generalizing p with
  | nil =>
    rw [run_nil_iff] at h
    rwa [← h]
  | cons c calls ih =>
    obtain ⟨answer, m, hcall, hrest⟩ := run_cons h
    exact ih (hstep p c answer m hp (step_of_call hcall)) hrest

end

/-! ### Balanced sequences -/

/-- Calls that close every rule they enter, and no other one. -/
inductive Balanced : List Call → Prop
  | nil : Balanced []
  | attempt {c : Call} {calls : List Call} (hc : c.isAttempt = true) (hcalls : Balanced calls) :
      Balanced (c :: calls)
  | rule {name : String} {success : Bool} {body calls : List Call} (hbody : Balanced body)
      (hcalls : Balanced calls) : Balanced (.enter name :: body ++ .close success :: calls)

/-- No call changes the tokens. -/
theorem tokens_of_step {p q : Parse} {c : Call} {answer : Bool} (h : Step p c answer q) :
    q.tokens = p.tokens := by
  cases h <;> rfl

/-- Trying the next token inside a rule touches nothing but that rule. -/
theorem step_inside {p q : Parse} {c : Call} {answer : Bool} {frame : Frame} {outer : List Frame}
    (hc : c.isAttempt = true) (hframes : p.frames = frame :: outer) (h : Step p c answer q) :
    ∃ cursor children trace farthest,
      q = { p with cursor, farthest, frames := { frame with children, trace } :: outer } := by
  cases h with
  | take => exact ⟨_, _, _, _, by rw [take, hframes, List.modifyHead_cons]⟩
  | miss => exact ⟨_, _, _, _, by rw [miss, hframes, List.modifyHead_cons]⟩
  | enter | inner | root | rejected => cases hc

/-- No token is taken outside of all rules. -/
theorem step_outside {p q : Parse} {c : Call} {answer : Bool} (hc : c.isAttempt = true)
    (hframes : p.frames = []) (h : Step p c answer q) : ∃ farthest, q = { p with farthest } := by
  cases h with
  | take _ _ hopen => exact absurd hframes hopen
  | miss => exact ⟨_, by rw [miss, hframes, List.modifyHead_nil, ← hframes]⟩
  | enter | inner | root | rejected => cases hc

theorem call_close {p : Parse} (hopen : p.frames ≠ []) (success : Bool) :
    p.call (.close success) = .ok (p.close success) := by
  rw [call, if_neg (by simpa using hopen)]

/-- Closing a rule that stands in another one. -/
theorem call_close_inner {p q : Parse} {frame parent : Frame} {outer : List Frame}
    {success answer : Bool} (hframes : p.frames = frame :: parent :: outer)
    (h : p.call (.close success) = .ok (answer, q)) :
    q = p.closeInner success frame parent outer := by
  rw [call_close (by simp [hframes]), close, hframes] at h
  cases h
  rfl

/-- Balanced calls inside a rule change nothing but where the parse stands, the farthest miss, and
what that rule matched and tried. -/
theorem run_inside {body : List Call} (hbody : Balanced body) {p q : Parse} {frame : Frame}
    {outer : List Frame} (hframes : p.frames = frame :: outer) (h : p.run body = .ok q) :
    ∃ cursor children trace farthest,
      q = { p with cursor, farthest, frames := { frame with children, trace } :: outer } := by
  induction hbody generalizing p q frame outer with
  | nil =>
    rw [run_nil_iff] at h
    subst h
    exact ⟨p.cursor, frame.children, frame.trace, p.farthest, by rw [← hframes]⟩
  | attempt hc _ ih =>
    obtain ⟨answer, m, hcall, hrest⟩ := run_cons h
    obtain ⟨_, _, _, _, rfl⟩ := step_inside hc hframes (step_of_call hcall)
    obtain ⟨_, _, _, _, rfl⟩ := ih rfl hrest
    exact ⟨_, _, _, _, rfl⟩
  | @rule name success body calls _ _ ihbody ihcalls =>
    obtain ⟨_, m, hcall, hrest⟩ := run_cons h
    cases hcall
    obtain ⟨l, hinner, hrest⟩ := run_append hrest
    obtain ⟨_, _, _, _, rfl⟩ := ihbody (by rw [enter, hframes]) hinner
    obtain ⟨_, n, hclose, hrest⟩ := run_cons hrest
    obtain rfl := call_close_inner rfl hclose
    obtain ⟨_, _, _, _, rfl⟩ := ihcalls rfl hrest
    exact ⟨_, _, _, _, rfl⟩

/-- Balanced calls inside a rule leave the rules around it alone, and keep where it started. -/
theorem run_balanced {body : List Call} (hbody : Balanced body) {p q : Parse} {frame : Frame}
    {outer : List Frame} (hframes : p.frames = frame :: outer) (h : p.run body = .ok q) :
    q.tree = p.tree ∧ q.trace = p.trace ∧
      ∃ children trace, q.frames = { frame with children, trace } :: outer := by
  obtain ⟨_, children, trace, _, rfl⟩ := run_inside hbody hframes h
  exact ⟨rfl, rfl, children, trace, rfl⟩

/-- Outside of all rules, attempts change nothing but the farthest miss. -/
theorem run_outside {calls : List Call} (hcalls : ∀ c ∈ calls, c.isAttempt = true) {p q : Parse}
    (hframes : p.frames = []) (h : p.run calls = .ok q) :
    q.frames = [] ∧ q.cursor = p.cursor ∧ q.tree = p.tree ∧ q.trace = p.trace := by
  induction calls generalizing p with
  | nil =>
    rw [run_nil_iff] at h
    subst h
    exact ⟨hframes, rfl, rfl, rfl⟩
  | cons c calls ih =>
    obtain ⟨hc, hothers⟩ := List.forall_mem_cons.mp hcalls
    obtain ⟨answer, m, hcall, hrest⟩ := run_cons h
    obtain ⟨_, rfl⟩ := step_outside hc hframes (step_of_call hcall)
    have hkept := ih hothers (by exact hframes) hrest
    exact hkept

end OrderFile.Parse
