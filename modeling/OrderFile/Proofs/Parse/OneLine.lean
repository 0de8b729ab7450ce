import OrderFile.Proofs.Grammar.Invariant
import OrderFile.Proofs.Parse.Step
import OrderFile.Proofs.Trace.OneLine

/-!
All that a parse could say is said on one line: the tokens it reads, what it expects and the rules
it has tried. Every step keeps this (`keeps_isOneLine`), so that a file that is rejected is told of
in lines which nothing in the file can break.
-/

set_option autoImplicit false

namespace OrderFile

/-! ### Expectations -/

theorem oneLine_kindName (kind : Token.Kind) : OneLine kind.name := by
  cases kind <;> decide

/-- Kinds of tokens are named on one line, however many. -/
theorem oneLine_joinedNames (kinds : List Token.Kind) :
    OneLine (Token.Kind.joinedNames kinds) := by
  refine oneLine_intercalate (by decide) ?_
  rw [List.forall_mem_map]
  exact fun kind _ ↦ oneLine_kindName kind

/-- What is expected is said on one line. -/
theorem Shape.oneLine_display (shape : Shape) : OneLine shape.display := by
  unfold display
  split
  · exact oneLine_quote _
  · exact oneLine_kindName shape.kind

/-! ### What a parse could say -/

/-- Whether a fault is told on one line and names rules on one line each. -/
structure Fault.IsOneLine (fault : Fault) : Prop where
  message : OneLine fault.message
  stack : ∀ context ∈ fault.context, ∀ rule ∈ context.stack, OneLine rule

/-- An unexpected token is told of on one line, if it and what was expected are. -/
theorem Fault.oneLine_unexpected {line : UInt32} {found expected : String}
    (hfound : OneLine found) (hexpected : OneLine expected) (context : Option Context) :
    OneLine (message ⟨.unexpected line found expected, context⟩) := by
  unfold message
  simp only [oneLine_append_iff, hfound, hexpected, oneLine_toString_uint32, and_true]
  decide

/-- A fault without a place names no rules. -/
theorem Fault.isOneLine_of_message {cause : Cause} (h : OneLine (message ⟨cause, none⟩)) :
    IsOneLine ⟨cause, none⟩ :=
  ⟨h, fun _ hcontext ↦ by cases hcontext⟩

theorem Fault.oneLine_unconsumed (line : UInt32) :
    OneLine (message ⟨.unconsumed line, none⟩) :=
  oneLine_append_iff.mpr ⟨by decide, oneLine_toString_uint32 line⟩

namespace Parse

structure Frame.IsOneLine (frame : Frame) : Prop where
  rule : OneLine frame.rule
  trace : ∀ entry ∈ frame.trace, entry.IsOneLine

structure Miss.IsOneLine (miss : Miss) : Prop where
  expected : OneLine miss.expected
  rules : ∀ rule ∈ miss.rules, OneLine rule

/-- Whether all that a parse could say is on one line. -/
structure IsOneLine (p : Parse) : Prop where
  tokens : ∀ t ∈ p.tokens, OneLine t.display
  frames : ∀ frame ∈ p.frames, frame.IsOneLine
  farthest : ∀ miss ∈ p.farthest, miss.IsOneLine
  trace : ∀ trace ∈ p.trace, trace.IsOneLine
  fault : ∀ fault ∈ p.fault, fault.IsOneLine

/-- A parse that starts has nothing to say but its tokens. -/
theorem isOneLine_start {ts : List Token} (h : ∀ t ∈ ts, OneLine t.display) :
    (start ts).IsOneLine where
  tokens t ht := h t (List.mem_toArray.mp ht)
  frames := nofun
  farthest := nofun
  trace := nofun
  fault := nofun

variable {p : Parse}

theorem IsOneLine.next? (h : p.IsOneLine) : ∀ t ∈ p.next?, OneLine t.display :=
  fun t ht ↦ h.tokens t (Array.mem_of_getElem? ht)

/-! ### Rules -/

theorem Frame.IsOneLine.push {frame : Frame} {entry : Trace} (h : frame.IsOneLine)
    (hentry : entry.IsOneLine) (children : Array Tree) :
    Frame.IsOneLine { frame with children, trace := frame.trace.push entry } where
  rule := h.rule
  trace := by
    intro other hother
    rcases Array.mem_push.mp hother with hmem | rfl
    · exact h.trace other hmem
    · exact hentry

/-- The entry of a rule is on one line if what was tried in it is. -/
theorem Frame.IsOneLine.entry {frame : Frame} (h : frame.IsOneLine) (succeeded : Bool) :
    (frame.entry succeeded).IsOneLine :=
  Trace.isOneLine_entry (Trace.oneLine_rule_iff.mpr h.rule)
    fun entry hentry ↦ h.trace entry (Array.mem_toList_iff.mp hentry)

/-- A change of the innermost rule leaves the others as they are. -/
theorem isOneLine_modifyHead {frames : List Frame} {change : Frame → Frame}
    (h : ∀ frame ∈ frames, frame.IsOneLine)
    (hchange : ∀ frame, frame.IsOneLine → (change frame).IsOneLine) :
    ∀ frame ∈ frames.modifyHead change, frame.IsOneLine := by
  cases frames with
  | nil => exact h
  | cons frame outer =>
    obtain ⟨hframe, houter⟩ := List.forall_mem_cons.mp h
    exact List.forall_mem_cons.mpr ⟨hchange frame hframe, houter⟩

/-- An attempt is noted on one line, if what it expected and found is. -/
theorem isOneLine_attemptEntry {expected : String} {found : Option Token}
    (hexpected : OneLine expected) (hfound : ∀ t ∈ found, OneLine t.display) (matched : Bool) :
    (Trace.entry (.attempt expected found matched) []).IsOneLine :=
  Trace.isOneLine_entry (Trace.oneLine_attempt_iff.mpr ⟨hexpected, hfound⟩) (List.forall_mem_nil _)

/-! ### Steps -/

/-- A rule whose name is on one line can be entered. -/
theorem IsOneLine.enter {name : String} (hname : OneLine name) (h : p.IsOneLine) :
    (p.enter name).IsOneLine :=
  { h with frames := List.forall_mem_cons.mpr ⟨⟨hname, by simp⟩, h.frames⟩ }

theorem IsOneLine.take {expected : String} (hexpected : OneLine expected) {t : Token}
    (ht : OneLine t.display) (h : p.IsOneLine) : (p.take expected t).IsOneLine :=
  have hfound : ∀ found ∈ some t, OneLine found.display := by simpa using ht
  { h with
    frames := isOneLine_modifyHead h.frames fun _ hframe ↦
      hframe.push (isOneLine_attemptEntry hexpected hfound true) _ }

theorem IsOneLine.miss {expected : String} (hexpected : OneLine expected) (h : p.IsOneLine) :
    (p.miss expected).IsOneLine where
  tokens := h.tokens
  frames := isOneLine_modifyHead h.frames fun frame hframe ↦
    hframe.push (isOneLine_attemptEntry hexpected h.next? false) frame.children
  farthest := by
    have hrules : ∀ rule ∈ p.frames.map (·.rule), OneLine rule :=
      List.forall_mem_map.mpr fun frame hframe ↦ (h.frames frame hframe).rule
    intro miss hmiss
    rw [Parse.miss] at hmiss
    split at hmiss
    · obtain rfl := Option.some.inj hmiss
      exact ⟨hexpected, hrules⟩
    · exact h.farthest miss hmiss
  trace := h.trace
  fault := h.fault

/-- An attempt adds nothing but the token and what was expected, whether it comes to something. -/
theorem IsOneLine.attempt {expected : String} (hexpected : OneLine expected)
    (test : Token → Bool) (h : p.IsOneLine) : (p.attempt expected test).2.IsOneLine := by
  obtain ⟨t, ht, htaken⟩ | hmissed := attempt_cases expected test p
  · rw [htaken]
    exact h.take hexpected (h.next? t ht)
  · rw [hmissed]
    exact h.miss hexpected

theorem IsOneLine.acceptAnyOf (kinds : List Token.Kind) (h : p.IsOneLine) :
    (p.acceptAnyOf kinds).2.IsOneLine := by
  rw [Parse.acceptAnyOf]
  split
  · exact h.attempt (Shape.oneLine_display _) _
  · exact h.miss (oneLine_joinedNames kinds)

/-! ### Closing rules -/

/-- The fault of a root rule that failed is told on one line. -/
theorem IsOneLine.explain (h : p.IsOneLine) : p.explain.IsOneLine := by
  have hfound (index : Nat) :
      OneLine ((p.tokens[index]?).elim "end of input" Token.display) := by
    cases ht : p.tokens[index]? with
    | none => decide
    | some t => exact h.tokens t (Array.mem_of_getElem? ht)
  rw [Parse.explain]
  cases hmiss : p.farthest with
  | none => exact Fault.isOneLine_of_message (Fault.oneLine_unexpected (hfound _) (by decide) none)
  | some miss =>
    obtain ⟨hexpected, hrules⟩ := h.farthest miss hmiss
    have hmessage := oneLine_append_iff.mpr ⟨(by decide : OneLine "expected "), hexpected⟩
    refine ⟨Fault.oneLine_unexpected (hfound _) hmessage _, fun context hcontext ↦ ?_⟩
    obtain rfl := Option.some.inj hcontext
    exact hrules

theorem IsOneLine.closeRoot {frame : Frame} (hframe : frame.IsOneLine) (success : Bool)
    (h : p.IsOneLine) : (p.closeRoot success frame).2.IsOneLine := by
  have htrace (result : Bool) : ∀ trace ∈ some (frame.entry result), trace.IsOneLine := by
    simpa using hframe.entry result
  rw [Parse.closeRoot]
  split
  · split
    · exact { h with frames := List.forall_mem_nil _, trace := htrace true }
    · refine { h with frames := List.forall_mem_nil _, trace := htrace false, fault := ?_ }
      intro fault hfault
      obtain rfl := Option.some.inj hfault
      exact Fault.isOneLine_of_message (Fault.oneLine_unconsumed _)
  · have hback : IsOneLine { p with cursor := frame.start, frames := [] } :=
      { h with frames := List.forall_mem_nil _ }
    refine { hback with trace := htrace false, fault := ?_ }
    intro fault hfault
    obtain rfl := Option.some.inj hfault
    exact hback.explain

/-- Closing a rule adds its entry to the rule around it, or to the parse. -/
theorem IsOneLine.close (success : Bool) (h : p.IsOneLine) : (p.close success).2.IsOneLine := by
  have hframes := h.frames
  rw [Parse.close]
  split
  · exact h
  · next frame hopen =>
    rw [hopen] at hframes
    exact h.closeRoot (hframes frame List.mem_cons_self) success
  · next frame parent outer hopen =>
    rw [hopen] at hframes
    obtain ⟨hframe, hothers⟩ := List.forall_mem_cons.mp hframes
    obtain ⟨hparent, houter⟩ := List.forall_mem_cons.mp hothers
    refine { h with frames := List.forall_mem_cons.mpr ⟨?_, houter⟩ }
    exact hparent.push (hframe.entry success) _

/-- Every step of a parse keeps what it says on one line. -/
theorem keeps_isOneLine {names : List String} (hnames : ∀ name ∈ names, OneLine name) :
    Keeps names IsOneLine where
  enter hname h := h.enter (hnames _ hname)
  accept shape h := h.attempt shape.oneLine_display _
  acceptAnyOf kinds h := h.acceptAnyOf kinds
  advance h := h.attempt (by decide) _
  close success h := h.close success

end Parse

end OrderFile
