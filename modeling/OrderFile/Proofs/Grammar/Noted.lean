import OrderFile.Proofs.Grammar.File
import OrderFile.Proofs.Parse.Noted

/-!
What a parse of a line notes in the trace of the rule around it. A line that is taken leaves an
order or the end of an empty line, and a line at which the parse stops leaves the order that it is
not and the line end that was not there: `line_noted`.
-/

set_option autoImplicit false

namespace OrderFile.Grammar

open Parse (Noted noted_nil noted_attempt noted_miss noted_within)

namespace Pattern

/-! ### Patterns -/

/-- Whether a pattern that fails leaves a failure directly in the innermost rule. A number out of
range leaves none, since its token was matched. -/
def reports : Pattern → Bool
  | oneWord words => !words.isEmpty
  | integerIn _ _ => false
  | seq first second | choice first second => first.reports && second.reports
  | optional body => body.reports
  | _ => true

/-- What was noted, together with a failure among it if the step failed. -/
def Reported (reports : Bool) (p : Parse) (result : Bool × Parse) : Prop :=
  ∃ entries, Noted entries p result.2 ∧
    (reports = true → result.1 = false → ∃ entry ∈ entries, entry.succeeded = false)

/-- An attempt that fails leaves an entry that did not succeed. -/
theorem reported_attempt (expected : String) (test : Token → Bool) (p : Parse) :
    Reported true p (p.attempt expected test) := by
  refine ⟨_, noted_attempt expected test p, fun _ hfailure ↦ ?_⟩
  exact ⟨_, List.mem_singleton_self _, hfailure⟩

theorem reported_miss (expected : String) (p : Parse) :
    Reported true p (false, p.miss expected) :=
  ⟨_, noted_miss expected p, fun _ _ ↦ ⟨_, List.mem_singleton_self _, rfl⟩⟩

theorem reported_of_success (reports : Bool) (p : Parse) : Reported reports p (true, p) :=
  ⟨[], noted_nil p, fun _ hfailure ↦ absurd hfailure Bool.false_ne_true.symm⟩

/-- A step that reports its failures does so if that is asked for, too. -/
theorem Reported.mono {reports more : Bool} {p : Parse} {result : Bool × Parse}
    (h : Reported more p result) (hreports : reports = true → more = true) :
    Reported reports p result := by
  obtain ⟨entries, hentries, hfailure⟩ := h
  exact ⟨entries, hentries, fun hmore ↦ hfailure (hreports hmore)⟩

/-- What was noted before stays before. -/
theorem Reported.after {reports : Bool} {p middle : Parse} {result : Bool × Parse}
    {entries : List Trace} (h : Reported reports middle result) (hbefore : Noted entries p middle) :
    Reported reports p result := by
  obtain ⟨others, hothers, hfailure⟩ := h
  refine ⟨entries ++ others, hbefore.append hothers, fun hreports hfail ↦ ?_⟩
  obtain ⟨entry, hmem, hentry⟩ := hfailure hreports hfail
  exact ⟨entry, List.mem_append_right _ hmem, hentry⟩

theorem reported_acceptAnyOf (kinds : List Token.Kind) (p : Parse) :
    Reported true p (p.acceptAnyOf kinds) := by
  rw [Parse.acceptAnyOf]
  split
  · exact reported_attempt ..
  · exact reported_miss ..

/-- Repeating a step notes entries only, if the step does. -/
theorem repeatUntil_noted {stop : String} {body : Parse → Bool × Parse}
    (hbody : ∀ p, p.frames ≠ [] → ∃ entries, Noted entries p (body p).2) (n : Nat) {p : Parse}
    (hopen : p.frames ≠ []) : ∃ entries, Noted entries p (repeatUntil stop body n p) := by
  induction n generalizing p with
  | zero => exact ⟨[], noted_nil p⟩
  | succ n ih =>
    rw [repeatUntil]
    split
    · exact ⟨[], noted_nil p⟩
    obtain ⟨entries, hentries⟩ := hbody p hopen
    generalize body p = result at hentries
    obtain ⟨success, later⟩ := result
    cases success with
    | false => exact ⟨entries, hentries⟩
    | true =>
      obtain ⟨others, hothers⟩ := ih (hentries.frames_ne_nil hopen)
      exact ⟨entries ++ others, hentries.append hothers⟩

/-- A pattern that is followed notes entries in the innermost rule and nothing else. -/
theorem follow_reported (pattern : Pattern) {p : Parse} (hopen : p.frames ≠ []) :
    Reported pattern.reports p (pattern.follow p) := by
  induction pattern generalizing p with
  | empty => exact reported_of_success _ p
  | token shape => exact reported_attempt ..
  | anyOf kinds => exact reported_acceptAnyOf kinds p
  | oneWord words =>
    unfold follow
    split
    · exact (reported_attempt ..).mono fun _ ↦ rfl
    · exact (reported_attempt ..).mono fun _ ↦ rfl
    · exact ⟨[], noted_nil p, (absurd · Bool.false_ne_true)⟩
  | integerIn low high =>
    have hnoted := noted_attempt (Shape.display ⟨.integer, none⟩) (Shape.accepts ⟨.integer, none⟩) p
    exact ⟨_, hnoted, (absurd · Bool.false_ne_true)⟩
  | seq first second ihfirst ihsecond =>
    have hfirst := ihfirst hopen
    rw [follow]
    generalize first.follow p = result at hfirst
    obtain ⟨success, later⟩ := result
    cases success with
    | false => exact hfirst.mono fun hboth ↦ ((Bool.and_eq_true _ _).mp hboth).1
    | true =>
      obtain ⟨entries, hentries, -⟩ := hfirst
      exact ((ihsecond (hentries.frames_ne_nil hopen)).after hentries).mono fun hboth ↦
        ((Bool.and_eq_true _ _).mp hboth).2
  | optional body ih =>
    rw [follow]
    split
    · exact ih hopen
    · exact reported_of_success _ p
  | choice first second ihfirst ihsecond =>
    rw [follow]
    split
    · exact (ihfirst hopen).mono fun hboth ↦ ((Bool.and_eq_true _ _).mp hboth).1
    · exact (ihsecond hopen).mono fun hboth ↦ ((Bool.and_eq_true _ _).mp hboth).2
  | repeated body stop ih =>
    rw [follow]
    obtain ⟨entries, hentries⟩ := @repeatUntil_noted stop body.follow
      (fun _ hq ↦ (ih hq).imp fun _ h ↦ h.1) (p.remaining + 1) p hopen
    exact ⟨entries, hentries, fun _ hfailure ↦ absurd hfailure Bool.false_ne_true.symm⟩
  | rule name body ih =>
    obtain ⟨entries, hentries, -⟩ := @ih (p.enter name) (List.cons_ne_nil _ _)
    refine ⟨_, noted_within hentries, fun _ hfailure ↦ ⟨_, List.mem_singleton_self _, ?_⟩⟩
    exact (Parse.within_fst hopen hentries).symm.trans hfailure

end Pattern

open Pattern

/-! ### Orders -/

/-- What an order leaves in the trace. If no keyword comes next there is nothing in it, and
otherwise the rule of the keyword, in which the keyword was matched first. A rule that failed did so
at something in it. -/
inductive OrderNoted : Option Keyword → Bool → Trace → Prop
  | none : OrderNoted none false (.entry (.rule "order" false) [])
  | command {k : Keyword} {success : Bool} {expected : String} {found : Option Token}
      {others : List Trace}
      (hfailure : success = false → ∃ entry ∈ others, entry.succeeded = false) :
      OrderNoted (some k) success
        (.entry (.rule "order" success)
          [.entry (.rule k.word success) (.entry (.attempt expected found true) [] :: others)])

/-- The operands of every order report their failures. -/
theorem operands_report (k : Keyword) : (sequence (operands k)).reports = true := by
  cases k <;> rfl

/-- The word of the keyword that comes next is taken. -/
theorem acceptWord_of_ofToken? {k : Keyword} {p : Parse}
    (h : p.next?.bind Keyword.ofToken? = some k) : (p.acceptWord k.word).1 = true := by
  obtain ⟨t, ht, hk⟩ := Option.bind_eq_some_iff.mp h
  have haccepts : (Shape.keyword k.word).accepts t = true := Keyword.spells_of_ofToken? hk
  rw [Parse.acceptWord, Parse.accept, Parse.attempt, ht]
  dsimp only
  rw [if_pos haccepts]

/-- The rule of a keyword goes on with the operands when the keyword is taken. -/
theorem commandBody_of_taken {k : Keyword} {p later : Parse}
    (h : p.acceptWord k.word = (true, later)) :
    (sequence (word k.word :: operands k)).follow p = (sequence (operands k)).follow later := by
  change onSuccess (sequence (operands k)).follow (p.acceptWord k.word) = _
  rw [h]
  rfl

/-- The rule of the keyword that comes next matches the keyword before all else. -/
theorem command_noted {k : Keyword} {p : Parse} (hopen : p.frames ≠ [])
    (hk : p.next?.bind Keyword.ofToken? = some k) :
    ∃ expected found others,
      (((command k).follow p).1 = false → ∃ entry ∈ others, entry.succeeded = false) ∧
        Noted [.entry (.rule k.word ((command k).follow p).1)
          (.entry (.attempt expected found true) [] :: others)] p ((command k).follow p).2 := by
  obtain ⟨m, hm⟩ : ∃ m, (p.enter k.word).acceptWord k.word = (true, m) :=
    ⟨_, Prod.ext (acceptWord_of_ofToken? hk) rfl⟩
  have hword := noted_attempt (Shape.keyword k.word).display (Shape.keyword k.word).accepts
    (p.enter k.word)
  rw [← Parse.accept, ← Parse.acceptWord, hm] at hword
  have hbody := commandBody_of_taken hm
  have hopened : m.frames ≠ [] := hword.frames_ne_nil (List.cons_ne_nil _ _)
  obtain ⟨others, hothers, hfailure⟩ := follow_reported (sequence (operands k)) hopened
  have hinside := hword.append hothers
  rw [← hbody] at hinside hfailure
  have hfst : ((command k).follow p).1 = _ := Parse.within_fst hopen hinside
  have hnoted := noted_within hinside
  rw [← hfst] at hnoted hfailure
  exact ⟨_, _, others, hfailure (operands_report k), hnoted⟩

/-- An order leaves one entry, with the keyword that decided it. -/
theorem order_noted {p : Parse} (hopen : p.frames ≠ []) :
    ∃ entry, OrderNoted (p.next?.bind Keyword.ofToken?) (order p).1 entry ∧
      Noted [entry] p (order p).2 := by
  cases hk : p.next?.bind Keyword.ofToken? with
  | none =>
    rw [order_of_none hk, Parse.within_fst hopen (noted_nil _)]
    exact ⟨_, .none, noted_within (noted_nil _)⟩
  | some k =>
    obtain ⟨expected, found, others, hfailure, hcommand⟩ :=
      @command_noted k (p.enter "order") (List.cons_ne_nil _ _) hk
    rw [order_of_keyword hk, Parse.within_fst hopen hcommand]
    exact ⟨_, .command hfailure, noted_within hcommand⟩

/-! ### Lines -/

/-- What a line that is taken leaves in the trace: an order, or an order that did not start and the
line end. -/
inductive LineNoted : List Trace → Prop
  | order {k : Keyword} {entry : Trace} (h : OrderNoted (some k) true entry) : LineNoted [entry]
  | blank {found : Option Token} {entry : Trace} (h : OrderNoted none false entry) :
      LineNoted [entry, .entry (.attempt (Shape.display ⟨.eol, none⟩) found true) []]

/-- What a line leaves at which a parse stops: the order that failed, and the line end that was not
there. -/
inductive StopNoted : Option Keyword → List Trace → Prop
  | intro {k? : Option Keyword} {found : Option Token} {entry : Trace}
      (h : OrderNoted k? false entry) :
      StopNoted k? [entry, .entry (.attempt (Shape.display ⟨.eol, none⟩) found false) []]

/-- A line end is no keyword. -/
theorem ofToken?_of_acceptKind {p : Parse} (h : (p.acceptKind .eol).1 = true) :
    p.next?.bind Keyword.ofToken? = none := by
  have hwhole := acceptKind_agreesWhole .eol p
  rw [Parse.next?_eq]
  cases hrest : p.rest with
  | nil => rfl
  | cons t ts =>
    rw [hrest, frontToken?] at hwhole
    by_cases ht : (t.kind == .eol) = true
    · exact if_neg (by simp [eq_of_beq ht])
    · rw [if_neg ht] at hwhole
      rw [hwhole.1] at h
      cases h

/-- A line leaves the entries of a line that is taken, or those of one at which the parse stops. -/
theorem line_noted {p : Parse} (hopen : p.frames ≠ []) :
    ∃ entries, Noted entries p (line true p).2 ∧
      ((line true p).1 = true → LineNoted entries) ∧
      ((line true p).1 = false → StopNoted (p.next?.bind Keyword.ofToken?) entries) := by
  obtain ⟨entry, hentry, hnoted⟩ := order_noted hopen
  have hback : (order p).1 = false → (order p).2.next? = p.next? := by
    intro hfailure
    have hwhole := order_agreesWhole hopen
    cases hread : orderFront? p.rest with
    | none =>
      rw [hread] at hwhole
      rw [Parse.next?_eq, Parse.next?_eq, ← Parse.rest_bare, hwhole.2, Parse.rest_bare]
    | some read =>
      rw [hread, AgreesWhole, hfailure] at hwhole
      cases hwhole.1
  rw [line]
  generalize order p = result at hentry hnoted hback
  obtain ⟨success, q⟩ := result
  cases success with
  | true =>
    refine ⟨[entry], hnoted, fun _ ↦ ?_, (absurd · Bool.false_ne_true.symm)⟩
    cases hk : p.next?.bind Keyword.ofToken? with
    | none =>
      rw [hk] at hentry
      cases hentry
    | some k =>
      rw [hk] at hentry
      exact .order hentry
  | false =>
    have hend := noted_attempt (Shape.display ⟨.eol, none⟩) (Shape.accepts ⟨.eol, none⟩) q
    rw [← Parse.accept, ← Parse.acceptKind] at hend
    have hnone := @ofToken?_of_acceptKind q
    rw [hback rfl] at hnone
    dsimp only
    generalize q.acceptKind .eol = result at hend hnone
    obtain ⟨success, r⟩ := result
    have hboth := hnoted.append hend
    cases success with
    | true =>
      rw [hnone rfl] at hentry
      exact ⟨_, hboth, fun _ ↦ .blank hentry, (absurd · Bool.false_ne_true.symm)⟩
    | false => exact ⟨_, hboth, (absurd · Bool.false_ne_true), fun _ ↦ .intro hentry⟩

end OrderFile.Grammar
