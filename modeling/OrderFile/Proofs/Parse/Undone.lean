import OrderFile.Proofs.Parse.Recorded

/-!
Attempts that fail can be left out. A rule that fails inside another one changes nothing but the
record of what was tried: the farthest miss, and one more entry in the trace of the rule around it.
No call looks at that record, so that the calls after it answer as they would have answered without
it, and a parse comes to the same end when the attempt is deleted (`run_undone`).
-/

set_option autoImplicit false

namespace OrderFile

/-- A fault without what it says about a miss. -/
def Fault.bare (fault : Fault) : Fault :=
  match fault.cause with
  | .unexpected _ _ _ => ⟨.unexpected 0 "" "", none⟩
  | _ => fault

@[simp] theorem Fault.bare_bare (fault : Fault) : fault.bare.bare = fault.bare := by
  obtain ⟨cause, context⟩ := fault
  cases cause <;> rfl

namespace Parse

theorem bare_explain (p : Parse) : p.explain.bare = ⟨.unexpected 0 "" "", none⟩ := by
  rw [explain]
  cases p.farthest <;> rfl

/-! ### Where a parse stands -/

/-- A parse without what was tried in it and without what is said about misses. Of the trace of a
root rule the outcome is kept. -/
def standing (p : Parse) : Parse :=
  { p.bare with
    trace := p.trace.map fun trace ↦ .entry trace.label []
    fault := p.fault.map Fault.bare }

/-- The answer of a step, and where the parse stands after it. -/
def standingResult (result : Bool × Parse) : Bool × Parse :=
  (result.1, result.2.standing)

variable {p q : Parse}

/-- What stands of a trace is its label. -/
theorem label_standing (p : Parse) :
    p.standing.trace.map Trace.label = p.trace.map Trace.label := by
  rw [standing]
  cases p.trace <;> rfl

theorem standing_standing (p : Parse) : p.standing.standing = p.standing := by
  simp [standing, bare, Frame.bare, Function.comp_def, Trace.label]

/-- Entering a rule does not look at what was tried. -/
theorem standing_enter (rule : String) (p : Parse) :
    (p.standing.enter rule).standing = (p.enter rule).standing := by
  simp [enter, standing, bare, Frame.bare, Function.comp_def, Trace.label]

theorem standing_take (expected : String) (t : Token) (p : Parse) :
    (p.standing.take expected t).standing = (p.take expected t).standing := by
  obtain ⟨tokens, cursor, frames⟩ := p
  cases frames <;> simp [take, standing, bare, Frame.bare, Function.comp_def, Trace.label]

/-- A miss leaves nothing that stands. -/
theorem standing_miss (expected : String) (p : Parse) :
    (p.miss expected).standing = p.standing := by
  obtain ⟨tokens, cursor, frames⟩ := p
  cases frames <;> simp [miss, standing, bare, Frame.bare]

/-- Whether a token is taken does not hang on what was tried before. -/
theorem standing_attempt (expected : String) (test : Token → Bool) (p : Parse) :
    standingResult (p.standing.attempt expected test) =
      standingResult (p.attempt expected test) := by
  have hnext : p.standing.next? = p.next? := rfl
  rw [attempt, attempt, hnext]
  cases p.next? with
  | none => simp only [standingResult, standing_miss, standing_standing]
  | some t =>
    dsimp only
    split
    · simp only [standingResult, standing_take]
    · simp only [standingResult, standing_miss, standing_standing]

/-- An attempt at one of several kinds answers alike from what stands. -/
theorem standing_acceptAnyOf (kinds : List Token.Kind) (p : Parse) :
    standingResult (p.standing.acceptAnyOf kinds) = standingResult (p.acceptAnyOf kinds) := by
  have hsees (kind : Token.Kind) : p.standing.sees [kind] = p.sees [kind] := rfl
  rw [acceptAnyOf, acceptAnyOf]
  simp only [hsees]
  split
  · exact standing_attempt _ _ p
  · simp only [standingResult, standing_miss, standing_standing]

/-- A root is closed alike from what stands, whatever is said about its misses. -/
theorem standing_closeRoot (success : Bool) (frame : Frame) (p : Parse) :
    standingResult (p.standing.closeRoot success frame.bare) =
      standingResult (p.closeRoot success frame) := by
  have hend : p.standing.atEnd = p.atEnd := rfl
  have hline : p.standing.lineAt p.standing.cursor = p.lineAt p.cursor := rfl
  cases success with
  | false =>
    simp [closeRoot, standingResult, standing, bare, Frame.bare, Trace.label, bare_explain]
  | true =>
    rw [closeRoot, closeRoot, if_pos rfl, if_pos rfl, hend, hline]
    split
    · simp [standingResult, standing, bare, Frame.bare, Function.comp_def, Trace.label]
    · simp [standingResult, standing, bare, Frame.bare, Trace.label]

/-- How a rule ends does not hang on what was tried in it. -/
theorem standing_close (success : Bool) (p : Parse) :
    standingResult (p.standing.close success) = standingResult (p.close success) := by
  have hframes : p.standing.frames = p.frames.map Frame.bare := rfl
  rw [close, close, hframes]
  rcases p.frames with _ | ⟨frame, _ | ⟨parent, outer⟩⟩
  · simp only [List.map_nil, standingResult, standing_standing]
  · exact standing_closeRoot success frame p
  · cases success <;>
      simp [closeInner, standingResult, standing, bare, Frame.bare, Function.comp_def, Trace.label]

/-- A call makes sense, and answers, by where a parse stands. -/
theorem standing_call (c : Call) (p : Parse) :
    (p.standing.call c).map standingResult = (p.call c).map standingResult := by
  have hempty : p.standing.frames.isEmpty = p.frames.isEmpty := List.isEmpty_map
  cases c with
  | enter rule => exact congrArg Except.ok (Prod.ext rfl (standing_enter rule p))
  | close success =>
    rw [call, call, hempty]
    split
    · rfl
    · exact congrArg Except.ok (standing_close success p)
  | accept shape =>
    rw [call, call, inRule, inRule, hempty]
    split
    · rfl
    · exact congrArg Except.ok (standing_attempt _ _ p)
  | acceptAnyOf kinds =>
    rw [call, call, inRule, inRule, hempty]
    split
    · exact congrArg Except.ok (standing_acceptAnyOf kinds p)
    · split
      · rfl
      · exact congrArg Except.ok (standing_acceptAnyOf kinds p)
  | advance =>
    rw [call, call, inRule, inRule, hempty]
    split
    · rfl
    · exact congrArg Except.ok (standing_attempt _ _ p)

/-- Of two parses that stand alike, what one answers the other one answers. -/
theorem call_of_standing_eq (h : q.standing = p.standing) {c : Call} {answer : Bool} {r : Parse}
    (hcall : p.call c = .ok (answer, r)) :
    ∃ r', q.call c = .ok (answer, r') ∧ r'.standing = r.standing := by
  have hmap : (q.call c).map standingResult = .ok (answer, r.standing) := by
    rw [← standing_call, h, standing_call, hcall]
    rfl
  cases hq : q.call c with
  | error misuse =>
    rw [hq] at hmap
    cases hmap
  | ok result =>
    rw [hq] at hmap
    obtain ⟨hanswer, hstanding⟩ := Prod.mk.inj (Except.ok.inj hmap)
    exact ⟨result.2, by rw [← hanswer], hstanding⟩

/-- Parses in which the same things stand can make the same calls, and come to the same. -/
theorem run_of_standing_eq {calls : List Call} {r : Parse} (h : q.standing = p.standing)
    (hrun : p.run calls = .ok r) : ∃ r', q.run calls = .ok r' ∧ r'.standing = r.standing := by
  induction calls generalizing p q with
  | nil =>
    rw [run_nil_iff] at hrun
    exact ⟨q, rfl, by rw [h, hrun]⟩
  | cons c calls ih =>
    obtain ⟨answer, m, hcall, hrest⟩ := run_cons hrun
    obtain ⟨m', hcall', hm⟩ := call_of_standing_eq h hcall
    obtain ⟨r', hrest', hr⟩ := ih hm hrest
    refine ⟨r', ?_, hr⟩
    rw [run, hcall']
    exact hrest'

/-! ### Attempts that fail -/

/-- A rule that fails inside another one is noted there, and changes no more than the farthest
miss. -/
theorem run_rejected {name : String} {body : List Call} (hbody : Balanced body) {p q : Parse}
    (hopen : p.frames ≠ []) (h : p.run (.enter name :: body ++ [.close false]) = .ok q) :
    ∃ entry farthest, q =
      { p with
        farthest
        frames := p.frames.modifyHead fun frame ↦
          { frame with trace := frame.trace.push entry } } := by
  obtain ⟨frame, outer, hframes⟩ := List.exists_cons_of_ne_nil hopen
  obtain ⟨_, m, hcall, hrest⟩ := run_cons h
  cases hcall
  obtain ⟨l, hinner, hlast⟩ := run_append hrest
  -- The body leaves the start of the rule alone, and that is where the cursor goes back to.
  obtain ⟨_, _, _, farthest, rfl⟩ := run_inside hbody (by rw [enter, hframes]) hinner
  obtain ⟨_, n, hclose, hnil⟩ := run_cons hlast
  rw [run_nil_iff] at hnil
  subst hnil
  obtain rfl := call_close_inner rfl hclose
  exact ⟨_, farthest, by rw [hframes]; rfl⟩

theorem standing_of_rejected {entry : Trace} {farthest : Option Miss} (p : Parse) :
    standing { p with
      farthest
      frames := p.frames.modifyHead fun frame ↦
        { frame with trace := frame.trace.push entry } } = p.standing := by
  obtain ⟨tokens, cursor, frames⟩ := p
  cases frames <;> simp [standing, bare, Frame.bare]

/-- Calls that enter a rule inside another one and close it as failed, whatever balanced calls come
between. The cursor, the open rules and what each of them took are then as they were: no more is
new than the farthest miss, and an entry in the trace of the rule around. So if the attempt is left
out of a sequence of calls, the others still make sense. They lead to the same cursor, the same open
rules and the same tree, and to a root rule that ended the same way; and every further call answers
what it would have answered. -/
theorem run_undone {name : String} {body : List Call} (hbody : Balanced body) {m n : Parse}
    (hopen : m.frames ≠ []) (h : m.run (.enter name :: body ++ [.close false]) = .ok n) :
    (∃ entry farthest, n =
      { m with
        farthest
        frames := m.frames.modifyHead fun frame ↦
          { frame with trace := frame.trace.push entry } }) ∧
      ∀ (p : Parse) (before after : List Call) (q : Parse), p.run before = .ok m →
        p.run (before ++ (.enter name :: body ++ [.close false]) ++ after) = .ok q →
          ∃ q', p.run (before ++ after) = .ok q' ∧ q'.cursor = q.cursor ∧
            q'.frames.map Frame.bare = q.frames.map Frame.bare ∧ q'.tree = q.tree ∧
            q'.trace.map Trace.label = q.trace.map Trace.label ∧
            q'.fault.map Fault.bare = q.fault.map Fault.bare ∧
            ∀ c answer r, q.call c = .ok (answer, r) → ∃ r', q'.call c = .ok (answer, r') := by
  obtain ⟨entry, farthest, hn⟩ := run_rejected hbody hopen h
  refine ⟨⟨entry, farthest, hn⟩, ?_⟩
  intro p before after q hbefore hq
  -- Before and after the attempt the parse stands alike, so the calls after it see no difference.
  have hstanding : m.standing = n.standing := by rw [hn, standing_of_rejected]
  rw [List.append_assoc, run_append_eq hbefore, run_append_eq h] at hq
  obtain ⟨q', hq', hsame⟩ := run_of_standing_eq hstanding hq
  have hcursor : q'.standing.cursor = q.standing.cursor := by rw [hsame]
  have hframes : q'.standing.frames = q.standing.frames := by rw [hsame]
  have htree : q'.standing.tree = q.standing.tree := by rw [hsame]
  have hfault : q'.standing.fault = q.standing.fault := by rw [hsame]
  refine ⟨q', by rwa [run_append_eq hbefore], hcursor, hframes, htree,
    by rw [← label_standing, hsame, label_standing], hfault, ?_⟩
  intro c answer r hcall
  obtain ⟨r', hcall', -⟩ := call_of_standing_eq hsame hcall
  exact ⟨r', hcall'⟩

/-- Without the name order that was tried first, the survey order is read as before. -/
theorem run_undone_retriedSurvey :
    ∃ n q q', ((start surveyTokens).enter "orders").run (retriedSurvey.take 5) = .ok n ∧
      (start surveyTokens).run (.enter "orders" :: retriedSurvey ++ [.close true]) = .ok q ∧
      (start surveyTokens).run (.enter "orders" :: retriedSurvey.drop 5 ++ [.close true]) =
        .ok q' ∧ n.cursor = 0 ∧ q'.cursor = 4 ∧ q'.tree = q.tree := by
  have hbody : Balanced [.advance, .accept ⟨.integer, none⟩, .accept ⟨.quotedText, none⟩] :=
    .attempt rfl (.attempt rfl (.attempt rfl .nil))
  have hattempt : (((start surveyTokens).enter "orders").run
      (retriedSurvey.take 5)).toOption.map (·.frames.length) = some 1 := by decide +kernel
  have hwhole : ((start surveyTokens).run
      (.enter "orders" :: retriedSurvey ++ [.close true])).toOption.map (·.cursor) = some 4 := by
    decide +kernel
  obtain ⟨n, hn, -⟩ := exists_ok_of_toOption hattempt
  obtain ⟨q, hq, hcursor⟩ := exists_ok_of_toOption hwhole
  obtain ⟨⟨_, _, hkept⟩, hdeleted⟩ := run_undone hbody (List.cons_ne_nil _ _) hn
  have hrewound : n.cursor = 0 := by
    rw [hkept]
    rfl
  obtain ⟨q', hq', hsame, -, htree, -⟩ := hdeleted _ [.enter "orders"] _ q rfl hq
  exact ⟨n, q, q', hn, hq, hq', hrewound, hsame.trans hcursor, htree⟩

end Parse

end OrderFile
