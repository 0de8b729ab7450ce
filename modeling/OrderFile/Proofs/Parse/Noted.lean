import OrderFile.Proofs.Parse.Bare

/-!
What a parse notes in the trace of the innermost rule. An attempt notes one entry and a rule inside
another one notes one entry with all that was noted in it, whether they come to something or not.
-/

set_option autoImplicit false

namespace OrderFile.Parse

/-- A later parse that has noted some more entries in the innermost rule. The rules around that
rule are as they were. -/
def Noted (entries : List Trace) (p later : Parse) : Prop :=
  ∀ frame outer, p.frames = frame :: outer →
    ∃ children, later.frames =
      { frame with children, trace := frame.trace ++ entries.toArray } :: outer

theorem noted_nil (p : Parse) : Noted [] p p := by
  intro frame outer hframes
  exact ⟨frame.children, by simp [hframes]⟩

/-- What is noted in two steps is noted in a row. -/
theorem Noted.append {first second : List Trace} {p middle later : Parse}
    (hfirst : Noted first p middle) (hsecond : Noted second middle later) :
    Noted (first ++ second) p later := by
  intro frame outer hframes
  obtain ⟨children, hmiddle⟩ := hfirst frame outer hframes
  obtain ⟨children', hlater⟩ := hsecond _ outer hmiddle
  exact ⟨children', by simp [hlater]⟩

/-- Noting entries leaves a rule open if one was. -/
theorem Noted.frames_ne_nil {entries : List Trace} {p later : Parse} (h : Noted entries p later)
    (hopen : p.frames ≠ []) : later.frames ≠ [] := by
  obtain ⟨frame, outer, hframes⟩ := List.exists_cons_of_ne_nil hopen
  obtain ⟨children, hlater⟩ := h frame outer hframes
  rw [hlater]
  exact List.cons_ne_nil _ _

theorem noted_take (expected : String) (t : Token) (p : Parse) :
    Noted [.entry (.attempt expected (some t) true) []] p (p.take expected t) := by
  intro frame outer hframes
  exact ⟨_, by rw [take, hframes, List.modifyHead_cons]; rfl⟩

theorem noted_miss (expected : String) (p : Parse) :
    Noted [.entry (.attempt expected p.next? false) []] p (p.miss expected) := by
  intro frame outer hframes
  exact ⟨frame.children, by rw [miss, hframes, List.modifyHead_cons]; rfl⟩

/-- An attempt notes what it expected, what it found and whether that was taken. -/
theorem noted_attempt (expected : String) (test : Token → Bool) (p : Parse) :
    Noted [.entry (.attempt expected p.next? (p.attempt expected test).1) []] p
      (p.attempt expected test).2 := by
  obtain ⟨t, ht, htaken⟩ | hmissed := attempt_cases expected test p
  · rw [htaken, ht]
    exact noted_take expected t p
  · rw [hmissed]
    exact noted_miss expected p

/-- A rule inside another one comes out as its body does. -/
theorem within_fst {name : String} {body : Parse → Bool × Parse} {p : Parse}
    {entries : List Trace} (hopen : p.frames ≠ [])
    (h : Noted entries (p.enter name) (body (p.enter name)).2) :
    (p.within name body).1 = (body (p.enter name)).1 := by
  obtain ⟨frame, outer, hframes⟩ := List.exists_cons_of_ne_nil hopen
  obtain ⟨children, hlater⟩ := h _ (frame :: outer) (by rw [enter, hframes])
  rw [within_eq, close, hlater]

/-- A rule that succeeds inside another one leaves the tokens that its body leaves. -/
theorem rest_within {name : String} {body : Parse → Bool × Parse} {p : Parse}
    {entries : List Trace} (hopen : p.frames ≠ [])
    (h : Noted entries (p.enter name) (body (p.enter name)).2)
    (hsuccess : (p.within name body).1 = true) :
    (p.within name body).2.rest = (body (p.enter name)).2.rest := by
  have hbody := (within_fst hopen h).symm.trans hsuccess
  obtain ⟨frame, outer, hframes⟩ := List.exists_cons_of_ne_nil hopen
  obtain ⟨children, hlater⟩ := h _ (frame :: outer) (by rw [enter, hframes])
  rw [within_eq, close, hlater, hbody]
  rfl

/-- A rule inside another one notes how it ended and what was noted in it. -/
theorem noted_within {name : String} {body : Parse → Bool × Parse} {p : Parse}
    {entries : List Trace} (h : Noted entries (p.enter name) (body (p.enter name)).2) :
    Noted [.entry (.rule name (body (p.enter name)).1) entries] p (p.within name body).2 := by
  intro frame outer hframes
  obtain ⟨children, hlater⟩ := h _ (frame :: outer) (by rw [enter, hframes])
  rw [within_eq, close, hlater]
  simp [closeInner]

end OrderFile.Parse
