import OrderFile.Proofs.Parse.Step
import OrderFile.Proofs.Trace.Replay

/-!
The trace of a parse is a faithful recording. A parse builds two trees side by side: the tree of
what was matched, which forgets every rule that fails, and the trace, which forgets nothing. At any
time the trace of each open rule replays from the start of the rule to the start of the next one,
and leaves exactly the trees that the rule holds (`Recorded`). So a trace replays as a whole, and
the parse tree is what is left of it without its failures.
-/

set_option autoImplicit false

namespace OrderFile.Parse

open Trace (ReplaysAll cursorAfterAll keptOf)

/-! ### One open rule -/

/-- The trace of an open rule replays from the start of the rule to an index, and leaves the trees
that the rule holds. -/
structure Frame.Recorded (ts : List Token) (frame : Frame) (index : Nat) : Prop where
  replays : ReplaysAll ts frame.start frame.trace.toList
  reaches : cursorAfterAll frame.start frame.trace.toList = index
  keeps : keptOf frame.trace.toList = frame.children.toList

/-- An open rule after one more entry, with the tree that is left of the entry. -/
def Frame.add (frame : Frame) (entry : Trace) : Frame :=
  { frame with
    children := frame.children ++ entry.kept?.toList
    trace := frame.trace.push entry }

section

variable {ts : List Token} {frame : Frame} {index : Nat}

/-- A rule that was just entered holds nothing, and nothing was recorded in it. -/
theorem Frame.Recorded.opened (ts : List Token) (rule : String) (index : Nat) :
    Frame.Recorded ts ⟨rule, index, #[], #[]⟩ index where
  replays := by simp [ReplaysAll]
  reaches := by simp [cursorAfterAll]
  keeps := by simp [keptOf]

/-- One more entry that replays from where a rule stands keeps the recording. -/
theorem Frame.Recorded.add (h : frame.Recorded ts index) {entry : Trace}
    (hentry : entry.Replays ts index) :
    (frame.add entry).Recorded ts (entry.cursorAfter index) := by
  obtain ⟨hreplays, rfl, hkeeps⟩ := h
  have htrace : (frame.add entry).trace.toList = frame.trace.toList ++ [entry] :=
    Array.toList_push
  constructor
  · rw [htrace, Trace.replaysAll_append_iff]
    exact ⟨hreplays, hentry, trivial⟩
  · rw [htrace, Trace.cursorAfterAll_append]
    simp [Frame.add, cursorAfterAll]
  · rw [htrace, Trace.keptOf_append, hkeeps]
    simp [Frame.add, keptOf]

/-- The entry of a rule that is closed replays from the start of the rule. -/
theorem Frame.Recorded.replays_entry (h : frame.Recorded ts index) (succeeded : Bool) :
    (frame.entry succeeded).Replays ts frame.start :=
  h.replays

/-- A rule that is closed replays to where it stood, or to its start if it failed. -/
theorem Frame.Recorded.cursorAfter_entry (h : frame.Recorded ts index) (succeeded : Bool) :
    (frame.entry succeeded).cursorAfter frame.start = if succeeded then index else frame.start := by
  rw [Frame.entry, Trace.cursorAfter, h.reaches]

/-- A rule that is closed keeps its node, or nothing if it failed. -/
theorem Frame.Recorded.kept?_entry (h : frame.Recorded ts index) (succeeded : Bool) :
    (frame.entry succeeded).kept? = if succeeded then some frame.node else none := by
  rw [Frame.entry, Trace.kept?, h.keeps, Frame.node]

end

/-! ### All open rules -/

/-- The open rules up to an index, innermost first: each is recorded up to the start of the one
inside it. -/
def Recorded (ts : List Token) : List Frame → Nat → Prop
  | [], index => index ≤ ts.length
  | frame :: outer, index => frame.Recorded ts index ∧ Recorded ts outer frame.start

variable {ts : List Token}

/-- No recorded place lies behind the last token. -/
theorem le_length_of_recorded {frames : List Frame} {index : Nat} (h : Recorded ts frames index) :
    index ≤ ts.length := by
  induction frames generalizing index with
  | nil => exact h
  | cons frame outer ih =>
    obtain ⟨hframe, houter⟩ := h
    rw [← hframe.reaches]
    exact (Trace.tokens_of_replaysAll (ih houter) _ hframe.replays).2.1

/-- What replays in the innermost rule is recorded there, and moves its place on. -/
theorem recorded_modifyHead {frames : List Frame} {index : Nat} {entry : Trace}
    {change : Frame → Frame} (hchange : ∀ frame, change frame = frame.add entry)
    (hopen : frames ≠ []) (h : Recorded ts frames index) (hentry : entry.Replays ts index) :
    Recorded ts (frames.modifyHead change) (entry.cursorAfter index) := by
  obtain ⟨frame, outer, rfl⟩ := List.exists_cons_of_ne_nil hopen
  rw [List.modifyHead_cons, hchange]
  exact ⟨h.1.add hentry, h.2⟩

theorem next?_of_tokens {p : Parse} (h : p.tokens = ts.toArray) : p.next? = ts[p.cursor]? := by
  rw [next?, h, List.getElem?_toArray]

/-- A step adds to the trace of a rule what it did to the cursor and to the trees of the rule. -/
theorem recorded_step {p q : Parse} {c : Call} {answer : Bool} (htokens : p.tokens = ts.toArray)
    (h : Recorded ts p.frames p.cursor) (hstep : Step p c answer q) :
    Recorded ts q.frames q.cursor := by
  cases hstep with
  | enter rule => exact ⟨.opened ts rule p.cursor, h⟩
  | @take _ t expected _ hopen ht =>
    rw [next?_of_tokens htokens] at ht
    have hentry : (Trace.entry (.attempt expected (some t) true) []).Replays ts p.cursor :=
      ⟨ht.symm, fun _ ↦ rfl⟩
    refine recorded_modifyHead (fun frame ↦ ?_) hopen h hentry
    simp [Frame.add, Trace.kept?]
  | miss expected =>
    by_cases hopen : p.frames = []
    · rw [miss, hopen]
      rwa [hopen] at h
    · have hentry : (Trace.entry (.attempt expected p.next? false) []).Replays ts p.cursor :=
        ⟨next?_of_tokens htokens, (absurd · Bool.false_ne_true)⟩
      refine recorded_modifyHead (fun frame ↦ ?_) hopen h hentry
      simp [Frame.add, Trace.kept?]
  -- A rule that is closed becomes one entry of the rule around it. Whether it kept its tree or put
  -- the cursor back, the entry replays the same way.
  | @inner frame parent outer _ hframes =>
    rw [hframes] at h
    obtain ⟨hframe, hparent, houter⟩ := h
    have hadded := hparent.add (hframe.replays_entry answer)
    rw [hframe.cursorAfter_entry] at hadded
    have hparent' : parent.add (frame.entry answer) =
        { parent with
          children :=
            if answer then parent.children.push (.node frame.rule frame.children.toList)
            else parent.children
          trace := parent.trace.push (.entry (.rule frame.rule answer) frame.trace.toList) } := by
      rw [Frame.add, hframe.kept?_entry]
      cases answer <;> simp [Frame.entry, Frame.node]
    rw [hparent'] at hadded
    exact ⟨hadded, houter⟩
  | root hframes => exact le_length_of_recorded h
  | rejected success fault hframes =>
    rw [hframes] at h
    exact h.2

/-- Whether the open rules of a parse of some tokens are recorded. -/
def IsRecorded (ts : List Token) (p : Parse) : Prop :=
  p.tokens = ts.toArray ∧ Recorded ts p.frames p.cursor

theorem isRecorded_start (ts : List Token) : IsRecorded ts (start ts) :=
  ⟨rfl, Nat.zero_le _⟩

/-- Every call keeps the recording. -/
theorem isRecorded_run {p q : Parse} {calls : List Call} (h : IsRecorded ts p)
    (hrun : p.run calls = .ok q) : IsRecorded ts q := by
  refine run_invariant ?_ h hrun
  rintro p c answer q ⟨htokens, hrecorded⟩ hstep
  exact ⟨(tokens_of_step hstep).trans htokens, recorded_step htokens hrecorded hstep⟩

/-! ### Root rules -/

/-- The trace of a root rule that is closed replays from the start of the rule to the cursor, and if
the rule succeeded, the tree is what is left of the trace. -/
theorem close_recorded {p q : Parse} {frame : Frame} {success answer : Bool}
    (h : Recorded ts p.frames p.cursor) (hframes : p.frames = [frame])
    (hclose : p.call (.close success) = .ok (answer, q)) :
    q.frames = [] ∧ ∃ trace, q.trace = some trace ∧ trace.label = .rule frame.rule answer ∧
      trace.Replays ts frame.start ∧ trace.cursorAfter frame.start = q.cursor ∧
      q.tree = if answer then trace.kept? else p.tree := by
  rw [hframes] at h
  cases step_of_call hclose with
  | take _ hc => cases hc
  | miss _ hc => cases hc
  | inner _ hinner =>
    rw [hframes] at hinner
    cases hinner
  | root hroot =>
    rw [hframes] at hroot
    cases hroot
    exact ⟨rfl, _, rfl, rfl, h.1.replays_entry true, h.1.cursorAfter_entry true,
      (h.1.kept?_entry true).symm⟩
  | rejected _ _ hroot =>
    rw [hframes] at hroot
    cases hroot
    exact ⟨rfl, _, rfl, rfl, h.1.replays_entry false, h.1.cursorAfter_entry false, rfl⟩

/-- Calls that enter one root rule and close it again. -/
inductive OneRoot : List Call → Prop
  | intro {before body after : List Call} (rule : String) (success : Bool)
      (hbefore : ∀ c ∈ before, c.isAttempt = true) (hbody : Balanced body)
      (hafter : ∀ c ∈ after, c.isAttempt = true) :
      OneRoot (before ++ .enter rule :: body ++ .close success :: after)

/-- The root rule starts at the first token. Replayed from there, its trace finds at every attempt
the token that was tried and ends where the parse ended; and the parse tree is what is left of the
trace without its failures, which is nothing if the root failed. -/
theorem run_replays {calls : List Call} {p : Parse} (hcalls : OneRoot calls)
    (h : (start ts).run calls = .ok p) :
    ∃ trace, p.trace = some trace ∧ trace.label.isRule = true ∧ trace.Replays ts 0 ∧
      trace.cursorAfter 0 = p.cursor ∧ p.tree = trace.kept? := by
  obtain ⟨rule, success, hbefore, hbody, hafter⟩ := hcalls
  obtain ⟨q, hq, hlast⟩ := run_append h
  obtain ⟨o, ho, hbodyRun⟩ := run_append hq
  obtain ⟨hnone, hcursor, htree, -⟩ := run_outside hbefore rfl ho
  obtain ⟨_, m, hm, hbodyRun⟩ := run_cons hbodyRun
  cases hm
  have hopened : (o.enter rule).frames = [⟨rule, o.cursor, #[], #[]⟩] := by
    rw [enter, hnone]
  obtain ⟨htree', -, children, entries, hframes⟩ := run_balanced hbody hopened hbodyRun
  have hrecorded := (isRecorded_run (isRecorded_start ts) hq).2
  obtain ⟨answer, r, hclose, hafterRun⟩ := run_cons hlast
  obtain ⟨hr, trace, htrace, hlabel, hreplays, hreaches, hkept⟩ :=
    close_recorded hrecorded hframes hclose
  obtain ⟨-, hcursor', htree'', htrace'⟩ := run_outside hafter hr hafterRun
  have hstart : o.cursor = 0 := hcursor
  have hnothing : q.tree = none := htree'.trans htree
  rw [hstart] at hreplays hreaches
  refine ⟨trace, htrace'.trans htrace, by rw [hlabel]; rfl, hreplays,
    hreaches.trans hcursor'.symm, ?_⟩
  rw [htree'', hkept, hnothing]
  cases answer with
  | true => rfl
  | false =>
    obtain ⟨label, entries⟩ := trace
    cases hlabel
    rfl

/-- A survey order and the end of the file. -/
def surveyTokens : List Token :=
  [⟨1, .text, "survey", .text "survey"⟩, ⟨1, .integer, "4", .integer 4⟩, ⟨1, .eol, "\n", .none⟩,
    ⟨2, .eof, "", .none⟩]

/-- The order is tried as a name order first, which takes the wrong word back. -/
def retriedSurvey : List Call :=
  [.enter "name", .advance, .accept ⟨.integer, none⟩, .accept ⟨.quotedText, none⟩, .close false,
    .enter "survey", .accept (.keyword "survey"), .accept ⟨.integer, none⟩, .close true,
    .acceptAnyOf [.comma, .eol], .accept ⟨.eof, none⟩]

theorem balanced_retriedSurvey : Balanced retriedSurvey :=
  .rule (.attempt rfl (.attempt rfl (.attempt rfl .nil)))
    (.rule (.attempt rfl (.attempt rfl .nil)) (.attempt rfl (.attempt rfl .nil)))

theorem run_replays_retriedSurvey :
    ∃ p, (start surveyTokens).run (.enter "orders" :: retriedSurvey ++ [.close true]) = .ok p ∧
      p.cursor = 4 ∧ ∃ trace, p.trace = some trace ∧ trace.Replays surveyTokens 0 ∧
        trace.cursorAfter 0 = 4 ∧ p.tree = trace.kept? := by
  have hcalls : OneRoot (.enter "orders" :: retriedSurvey ++ [.close true]) :=
    @OneRoot.intro [] retriedSurvey [] "orders" true nofun balanced_retriedSurvey nofun
  have hcomputed : ((start surveyTokens).run
      (.enter "orders" :: retriedSurvey ++ [.close true])).toOption.map (·.cursor) = some 4 := by
    decide +kernel
  cases hrun : (start surveyTokens).run (.enter "orders" :: retriedSurvey ++ [.close true]) with
  | error misuse =>
    rw [hrun] at hcomputed
    cases hcomputed
  | ok p =>
    rw [hrun] at hcomputed
    have hcursor : p.cursor = 4 := Option.some.inj hcomputed
    obtain ⟨trace, htrace, -, hreplays, hreaches, htree⟩ := run_replays hcalls hrun
    exact ⟨p, rfl, hcursor, trace, htrace, hreplays, hreaches.trans hcursor, htree⟩

end OrderFile.Parse
