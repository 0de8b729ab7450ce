import Mathlib.Data.List.Induction
import OrderFile.Proofs.Parse.Missed
import OrderFile.Proofs.Parse.Recorded

/-!
The failure that explains a parse. Among all calls that tried a token and failed, those in rules
that were taken back included, a parse remembers the first of those that got farthest
(`run_farthest`). If the root rule fails, its fault names that call: what it expected, the token
that it found, and the rules that were open when it was made.
-/

set_option autoImplicit false

namespace OrderFile.Parse

/-! ### Open rules -/

/-- The open rules after a call, innermost first. -/
def Call.opened (rules : List String) : Call → List String
  | enter rule => rule :: rules
  | close _ => rules.tail
  | accept _ | acceptAnyOf _ | advance => rules

section

variable {p q : Parse} {c : Call} {answer : Bool}

theorem Call.opened_of_isAttempt (hc : c.isAttempt = true) (rules : List String) :
    c.opened rules = rules := by
  cases c with
  | enter | close => cases hc
  | accept | acceptAnyOf | advance => rfl

/-- A rule is open from the call that enters it to the call that closes it. -/
theorem rules_step (h : Step p c answer q) : q.rules = c.opened p.rules := by
  by_cases hc : c.isAttempt = true
  · rw [Call.opened_of_isAttempt hc]
    cases hframes : p.frames with
    | nil =>
      obtain ⟨_, rfl⟩ := step_outside hc hframes h
      rfl
    | cons frame outer =>
      obtain ⟨_, _, _, _, rfl⟩ := step_inside hc hframes h
      simp [rules, hframes]
  · cases h with
    | enter rule => rfl
    | take _ hattempt => exact absurd hattempt hc
    | miss _ hexpected => exact absurd (Call.isAttempt_of_expected? hexpected) hc
    | inner success hframes => simp [rules, Call.opened, closeInner, hframes]
    | root hframes => simp [rules, Call.opened, hframes]
    | rejected success fault hframes => simp [rules, Call.opened, hframes]

/-- The open rules after a run are told by its calls alone. -/
theorem rules_run {calls : List Call} (h : p.run calls = .ok q) :
    q.rules = calls.foldl Call.opened p.rules := by
  induction calls generalizing p with
  | nil =>
    rw [run_nil_iff] at h
    rw [h, List.foldl_nil]
  | cons c calls ih =>
    obtain ⟨answer, m, hcall, hrest⟩ := run_cons h
    rw [ih hrest, rules_step (step_of_call hcall), List.foldl_cons]

end

/-! ### Calls that fail -/

/-- The call at an index tries a token and fails. The miss says where the parse of the tokens stood
then, what was expected, and which rules had been entered and not yet closed. -/
def FailsAt (ts : List Token) (calls : List Call) (i : Nat) (miss : Miss) : Prop :=
  ∃ c p q, calls[i]? = some c ∧ (start ts).run (calls.take i) = .ok p ∧
    p.call c = .ok (false, q) ∧ c.expected? = some miss.expected ∧ miss.index = p.cursor ∧
    miss.rules = (calls.take i).foldl Call.opened []

/-- No failed call got farther than the miss, and none before it got as far. -/
def IsFarthest (ts : List Token) (calls : List Call) (miss : Miss) : Prop :=
  ∃ i, FailsAt ts calls i miss ∧ ∀ (j : Nat) (other : Miss), FailsAt ts calls j other →
    other.index < miss.index ∨ other.index = miss.index ∧ i ≤ j

variable {ts : List Token} {calls : List Call} {c : Call} {p q : Parse}

theorem FailsAt.lt {i : Nat} {miss : Miss} (h : FailsAt ts calls i miss) : i < calls.length := by
  obtain ⟨c, p, q, hc, -⟩ := h
  exact (List.getElem?_eq_some_iff.mp hc).1

/-- A call that is made last fails, or else a call before it. -/
theorem failsAt_concat_iff (hp : (start ts).run calls = .ok p) {i : Nat} {miss : Miss} :
    FailsAt ts (calls ++ [c]) i miss ↔ FailsAt ts calls i miss ∨
      i = calls.length ∧ (∃ q, p.call c = .ok (false, q)) ∧ c.expected? = some miss.expected ∧
        miss.index = p.cursor ∧ miss.rules = p.rules := by
  have hrules : p.rules = calls.foldl Call.opened [] := rules_run hp
  by_cases hi : i < calls.length
  · have hbefore : (calls ++ [c]).take i = calls.take i :=
      List.take_append_of_le_length (Nat.le_of_lt hi)
    rw [FailsAt, FailsAt, List.getElem?_append_left hi, hbefore]
    exact ⟨.inl, fun h ↦ h.resolve_right fun hlast ↦ Nat.ne_of_lt hi hlast.1⟩
  · constructor
    · intro h
      have hlast : i = calls.length := by
        have hlt := h.lt
        rw [List.length_append, List.length_singleton] at hlt
        omega
      subst hlast
      obtain ⟨_, _, q, hc, hrun, hcall, hmiss⟩ := h
      rw [List.getElem?_concat_length] at hc
      rw [List.take_left] at hrun hmiss
      cases hc
      obtain rfl : p = _ := Except.ok.inj (hp.symm.trans hrun)
      rw [← hrules] at hmiss
      exact .inr ⟨rfl, ⟨q, hcall⟩, hmiss⟩
    · rintro (h | ⟨rfl, ⟨q, hcall⟩, hmiss⟩)
      · exact absurd h.lt hi
      · refine ⟨c, p, q, List.getElem?_concat_length, ?_⟩
        rw [List.take_left, ← hrules]
        exact ⟨hp, hcall, hmiss⟩

/-! ### The farthest of them -/

/-- A call that tries a token and fails is a miss at the cursor. Every other call leaves the
farthest miss alone. -/
theorem farthest_step {answer : Bool} (h : Step p c answer q) :
    (∃ expected, c.expected? = some expected ∧ answer = false ∧
        q.farthest = farther p.farthest ⟨p.cursor, expected, p.rules⟩) ∨
      (c.expected? = none ∨ answer = true) ∧ q.farthest = p.farthest := by
  cases h with
  | enter | inner | root | rejected => exact .inr ⟨.inl rfl, rfl⟩
  | take => exact .inr ⟨.inr rfl, rfl⟩
  | miss expected hc => exact .inl ⟨expected, hc, rfl, rfl⟩

/-- Of the calls that failed the farthest one is remembered, and nothing if none failed. -/
def Remembers (ts : List Token) (calls : List Call) : Option Miss → Prop
  | none => ∀ i miss, ¬ FailsAt ts calls i miss
  | some miss => IsFarthest ts calls miss

/-- Calls of which the same ones fail have the same farthest one. -/
theorem Remembers.congr {later : List Call} {farthest : Option Miss}
    (hsame : ∀ i miss, FailsAt ts later i miss ↔ FailsAt ts calls i miss)
    (h : Remembers ts calls farthest) : Remembers ts later farthest := by
  cases farthest with
  | none => exact fun i miss hmiss ↦ h i miss ((hsame i miss).mp hmiss)
  | some first =>
    obtain ⟨i, hi, hmax⟩ := h
    refine ⟨i, (hsame i first).mpr hi, fun j other hother ↦ ?_⟩
    exact hmax j other ((hsame j other).mp hother)

/-- One more call that fails is remembered if it is farther on than the farthest one before. -/
theorem Remembers.add {later : List Call} {farthest : Option Miss} {miss : Miss}
    (hlater : ∀ i other, FailsAt ts later i other ↔
      FailsAt ts calls i other ∨ i = calls.length ∧ other = miss)
    (h : Remembers ts calls farthest) : Remembers ts later (farther farthest miss) := by
  have hnew : FailsAt ts later calls.length miss := (hlater _ _).mpr (.inr ⟨rfl, rfl⟩)
  cases farthest with
  | none =>
    refine ⟨calls.length, hnew, fun j other hother ↦ ?_⟩
    obtain hbefore | ⟨rfl, rfl⟩ := (hlater j other).mp hother
    · exact absurd hbefore (h j other)
    · exact .inr ⟨rfl, Nat.le_refl _⟩
  | some first =>
    obtain ⟨i, hi, hmax⟩ := h
    rw [farther, Option.all_some]
    by_cases hlt : first.index < miss.index
    · rw [if_pos (decide_eq_true hlt)]
      refine ⟨calls.length, hnew, fun j other hother ↦ ?_⟩
      obtain hbefore | ⟨rfl, rfl⟩ := (hlater j other).mp hother
      · have hle := hmax j other hbefore
        omega
      · exact .inr ⟨rfl, Nat.le_refl _⟩
    · -- A miss at the same index comes too late: the call of the first one is before all new calls.
      rw [if_neg (by simpa using hlt)]
      refine ⟨i, (hlater i first).mpr (.inl hi), fun j other hother ↦ ?_⟩
      obtain hbefore | ⟨rfl, rfl⟩ := (hlater j other).mp hother
      · exact hmax j other hbefore
      · have hi := hi.lt
        omega

/-- If the farthest miss of some calls is remembered, so is that of one more call. -/
theorem remembers_concat {answer : Bool} (hp : (start ts).run calls = .ok p)
    (h : Remembers ts calls p.farthest) (hcall : p.call c = .ok (answer, q)) :
    Remembers ts (calls ++ [c]) q.farthest := by
  obtain ⟨expected, hc, rfl, hq⟩ | ⟨hquiet, hq⟩ := farthest_step (step_of_call hcall)
  · rw [hq]
    refine h.add fun i other ↦ (failsAt_concat_iff hp).trans (or_congr_right ?_)
    refine and_congr_right fun _ ↦ ⟨?_, ?_⟩
    · rintro ⟨-, hother, hindex, hrules⟩
      obtain rfl : expected = other.expected := Option.some.inj (hc.symm.trans hother)
      rw [← hindex, ← hrules]
    · rintro rfl
      exact ⟨⟨q, hcall⟩, hc, rfl, rfl⟩
  · rw [hq]
    refine h.congr fun i other ↦ (failsAt_concat_iff hp).trans (or_iff_left ?_)
    rintro ⟨-, ⟨q', hfailed⟩, hc, -⟩
    obtain hnone | rfl := hquiet
    · rw [hnone] at hc
      cases hc
    · rw [hcall] at hfailed
      cases hfailed

/-- A parse remembers the farthest miss of all its calls. -/
theorem remembers_run (h : (start ts).run calls = .ok p) : Remembers ts calls p.farthest := by
  -- On the last call, since a call before it fails or not whatever comes after.
  induction calls using List.reverseRecOn generalizing p with
  | nil =>
    rw [run_nil_iff] at h
    subst h
    exact fun i miss hmiss ↦ absurd hmiss.lt (Nat.not_lt_zero i)
  | append_singleton calls c ih =>
    obtain ⟨m, hm, hlast⟩ := run_append h
    obtain ⟨answer, q, hcall, hnil⟩ := run_cons hlast
    rw [run_nil_iff] at hnil
    subst hnil
    exact remembers_concat hm (ih hm) hcall

/-- Whatever calls make sense on a parse: if none of those that try a token failed, no miss is
remembered, and otherwise the farthest is, the first one of several. If the only open rule is closed
as failed then, the fault names the miss: what was expected, the token there or the end of the
input, the line of that token or of the last one behind the end, which without any tokens is line
1, and the rules that were open. -/
theorem run_farthest (h : (start ts).run calls = .ok p) :
    (p.farthest = none ↔ ∀ i miss, ¬ FailsAt ts calls i miss) ∧
      ∀ miss, p.farthest = some miss → IsFarthest ts calls miss ∧
        ∀ frame, p.frames = [frame] → ∃ q line, p.call (.close false) = .ok (false, q) ∧
          line = ((ts[miss.index]?).or ts.getLast?).elim 1 (·.line) ∧
          q.fault = some
            ⟨.unexpected line ((ts[miss.index]?).elim "end of input" Token.display)
                ("expected " ++ miss.expected),
              some { line := some line.toNat, stack := miss.rules }⟩ := by
  have hremembers := remembers_run h
  refine ⟨⟨fun hnone ↦ ?_, fun hnever ↦ ?_⟩, fun miss hmiss ↦ ⟨?_, fun frame hframes ↦ ?_⟩⟩
  · rwa [hnone] at hremembers
  · cases hfirst : p.farthest with
    | none => rfl
    | some first =>
      rw [hfirst] at hremembers
      obtain ⟨i, hi, -⟩ := hremembers
      exact absurd hi (hnever i first)
  · rwa [hmiss] at hremembers
  · have htokens := (isRecorded_run (isRecorded_start ts) h).1
    have hfailure : (p.close false).1 = false := by
      rw [close, hframes]
      rfl
    refine ⟨(p.close false).2, _, ?_, rfl, ?_⟩
    · rw [call_close (by simp [hframes])]
      exact congrArg Except.ok (Prod.ext hfailure rfl)
    · rw [fault_close_root hframes hmiss, htokens, Miss.fault]
      simp [lineAt, start]

/-- The order is tried as a name order first, and as a survey order that goes on with a comma. Both
fail at the end of the line. -/
def lostSurvey : List Call :=
  .enter "orders" :: retriedSurvey.take 8 ++ [.accept ⟨.comma, none⟩, .close false]

/-- It is the name order that is blamed. -/
theorem run_farthest_lostSurvey :
    ∃ p miss q, (start surveyTokens).run lostSurvey = .ok p ∧ p.farthest = some miss ∧
      IsFarthest surveyTokens lostSurvey miss ∧ miss.rules = ["name", "orders"] ∧
      p.call (.close false) = .ok (false, q) ∧ q.fault = some
        ⟨.unexpected 1 (Token.display ⟨1, .eol, "\n", .none⟩) "expected QUOTED_TEXT",
          some { line := some 1, stack := ["name", "orders"] }⟩ := by
  have hcomputed : ((start surveyTokens).run lostSurvey).toOption.map (fun p ↦
      (p.frames.length, p.farthest.map fun miss ↦ (miss.index, miss.expected, miss.rules))) =
        some (1, some (2, "QUOTED_TEXT", ["name", "orders"])) := by decide +kernel
  obtain ⟨p, hrun, hvalues⟩ := exists_ok_of_toOption hcomputed
  obtain ⟨hone, hmiss⟩ := Prod.mk.inj hvalues
  obtain ⟨frame, hframes⟩ := List.length_eq_one_iff.mp hone
  obtain ⟨⟨index, expected, rules⟩, hfarthest, hmiss⟩ := Option.map_eq_some_iff.mp hmiss
  cases hmiss
  obtain ⟨hfirst, hroot⟩ := (run_farthest hrun).2 _ hfarthest
  obtain ⟨q, line, hclose, rfl, hfault⟩ := hroot frame hframes
  exact ⟨p, _, q, hrun, hfarthest, hfirst, rfl, hclose, hfault⟩

end OrderFile.Parse
