import OrderFile.Proofs.Parse.Noted
import OrderFile.Proofs.Trace.Replay

/-!
What a parse notes is what it did. The entries that a parse notes in the innermost rule, replayed
from where it stood, find the tokens it tried and end where it stands: `logged_attempt` and
`logged_within` for the two kinds of steps.
-/

set_option autoImplicit false

namespace OrderFile.Parse

open Trace (ReplaysAll cursorAfterAll)

/-- A later parse that has noted some more entries in the innermost rule, and stands where a replay
of these entries ends. -/
structure Logged (entries : List Trace) (p later : Parse) : Prop where
  noted : Noted entries p later
  tokens_eq : later.tokens = p.tokens
  cursor_eq : later.cursor = cursorAfterAll p.cursor entries
  replays : ReplaysAll p.tokens.toList p.cursor entries

variable {p middle later : Parse} {entries others : List Trace}

theorem logged_nil (p : Parse) : Logged [] p p where
  noted := noted_nil p
  tokens_eq := rfl
  cursor_eq := by rw [cursorAfterAll]
  replays := by simp [ReplaysAll]

/-- What is logged in two steps is logged in a row. -/
theorem Logged.append (h : Logged entries p middle) (hothers : Logged others middle later) :
    Logged (entries ++ others) p later where
  noted := h.noted.append hothers.noted
  tokens_eq := hothers.tokens_eq.trans h.tokens_eq
  cursor_eq := by rw [hothers.cursor_eq, h.cursor_eq, Trace.cursorAfterAll_append]
  replays := by
    rw [Trace.replaysAll_append_iff, ← h.cursor_eq, ← h.tokens_eq]
    exact ⟨h.tokens_eq ▸ h.replays, hothers.replays⟩

/-- A miss is logged where the parse stands, and leaves it there. -/
theorem logged_miss (expected : String) (p : Parse) :
    Logged [.entry (.attempt expected p.next? false) []] p (p.miss expected) where
  noted := noted_miss expected p
  tokens_eq := rfl
  cursor_eq := by simp [miss, cursorAfterAll, Trace.cursorAfter]
  replays := by simp [ReplaysAll, Trace.Replays, next?]

/-- A token that is taken is logged, and moves the parse over it. -/
theorem logged_take (expected : String) {t : Token} (ht : p.next? = some t) :
    Logged [.entry (.attempt expected (some t) true) []] p (p.take expected t) where
  noted := noted_take expected t p
  tokens_eq := rfl
  cursor_eq := by simp [take, cursorAfterAll, Trace.cursorAfter]
  replays := by simpa [ReplaysAll, Trace.Replays, next?] using ht.symm

/-- An attempt is logged as it came out. -/
theorem logged_attempt (expected : String) (test : Token → Bool) (p : Parse) :
    Logged [.entry (.attempt expected p.next? (p.attempt expected test).1) []] p
      (p.attempt expected test).2 := by
  obtain ⟨t, ht, htaken⟩ | hmissed := attempt_cases expected test p
  · rw [htaken, ht]
    exact logged_take expected ht
  · rw [hmissed]
    exact logged_miss expected p

/-- A rule that fails inside another one gives back what it took. -/
theorem logged_within {name : String} {body : Parse → Bool × Parse} (hopen : p.frames ≠ [])
    (h : Logged entries (p.enter name) (body (p.enter name)).2) :
    Logged [.entry (.rule name (body (p.enter name)).1) entries] p (p.within name body).2 := by
  obtain ⟨frame, outer, hframes⟩ := List.exists_cons_of_ne_nil hopen
  -- The rule around is still open, so what closes is no root.
  obtain ⟨children, hlater⟩ := h.noted _ (frame :: outer) (by rw [enter, hframes])
  have hcursor : (p.within name body).2.cursor =
      if (body (p.enter name)).1 then (body (p.enter name)).2.cursor else p.cursor := by
    rw [within_eq, close, hlater]
    rfl
  have htokens : (p.within name body).2.tokens = (body (p.enter name)).2.tokens := by
    rw [within_eq, close, hlater]
    rfl
  constructor
  · exact noted_within h.noted
  · exact htokens.trans h.tokens_eq
  · rw [hcursor, h.cursor_eq, cursorAfterAll, cursorAfterAll, Trace.cursorAfter]
    rfl
  · exact ⟨h.replays, trivial⟩

/-! ### What can be said of entries -/

/-- A statement about entries and where a replay of them starts that holds of entries in a row if it
holds of each part. -/
structure Composes (Q : List Token → Nat → List Trace → Prop) : Prop where
  nil (ts : List Token) (cursor : Nat) : Q ts cursor []
  append {ts : List Token} {cursor : Nat} {first second : List Trace} (hfirst : Q ts cursor first)
    (hsecond : Q ts (cursorAfterAll cursor first) second) : Q ts cursor (first ++ second)

/-- A later parse that has noted entries in the innermost rule of which something can be said. -/
def Logs (Q : List Token → Nat → List Trace → Prop) (p later : Parse) : Prop :=
  p.frames ≠ [] → ∃ entries, Logged entries p later ∧ Q p.tokens.toList p.cursor entries

section

variable {Q R : List Token → Nat → List Trace → Prop}

theorem Logs.refl (hQ : Composes Q) (p : Parse) : Logs Q p p :=
  fun _ ↦ ⟨[], logged_nil p, hQ.nil _ _⟩

/-- A statement that composes holds of what two steps log if it holds of each. -/
theorem Logs.trans (hQ : Composes Q) (h : Logs Q p middle) (hothers : Logs Q middle later) :
    Logs Q p later := by
  intro hopen
  obtain ⟨entries, hentries, hfirst⟩ := h hopen
  obtain ⟨others, hothers, hsecond⟩ := hothers (hentries.noted.frames_ne_nil hopen)
  rw [hentries.tokens_eq, hentries.cursor_eq] at hsecond
  exact ⟨entries ++ others, hentries.append hothers, hQ.append hfirst hsecond⟩

/-- What holds of the entries in any case holds of those that are logged. -/
theorem Logs.mono (h : Logs Q p later) (hR : ∀ ts cursor entries, Q ts cursor entries →
    R ts cursor entries) : Logs R p later := by
  intro hopen
  obtain ⟨entries, hentries, hQ⟩ := h hopen
  exact ⟨entries, hentries, hR _ _ _ hQ⟩

theorem logs_attempt {expected : String}
    (hQ : ∀ ts cursor found matched, Q ts cursor [.entry (.attempt expected found matched) []])
    (test : Token → Bool) (p : Parse) : Logs Q p (p.attempt expected test).2 :=
  fun _ ↦ ⟨_, logged_attempt expected test p, hQ _ _ _ _⟩

theorem logs_miss {expected : String}
    (hQ : ∀ ts cursor found matched, Q ts cursor [.entry (.attempt expected found matched) []])
    (p : Parse) : Logs Q p (p.miss expected) :=
  fun _ ↦ ⟨_, logged_miss expected p, hQ _ _ _ _⟩

/-- What a rule logs is one entry over all that was logged in it. -/
theorem logs_within {name : String} {body : Parse → Bool × Parse}
    (hR : ∀ ts cursor entries succeeded, Q ts cursor entries →
      R ts cursor [.entry (.rule name succeeded) entries])
    (h : Logs Q (p.enter name) (body (p.enter name)).2) : Logs R p (p.within name body).2 := by
  intro hopen
  obtain ⟨entries, hentries, hQ⟩ := h (List.cons_ne_nil _ _)
  exact ⟨_, logged_within hopen hentries, hR _ _ _ _ hQ⟩

end

end OrderFile.Parse
