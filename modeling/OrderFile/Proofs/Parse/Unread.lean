import OrderFile.Proofs.Parse.Recorded

/-!
What a root rule that succeeds leaves unread. It looks at the next token only: `leavesUnread_iff`
says that any rest of the tokens can be left that is empty or starts with an end token, and
`forall_leavesUnread_iff` that nothing but end tokens is ever left exactly if nothing else stands
behind an end token.
-/

set_option autoImplicit false

namespace OrderFile

/-- Whether only end tokens come after an end token. -/
def Token.StaysEnded (ts : List Token) : Prop :=
  ts.Pairwise fun t later ↦ t.kind = .eof → later.kind = .eof

/-- This is so if every rest that starts with an end token holds nothing else. -/
theorem Token.staysEnded_iff {ts : List Token} :
    StaysEnded ts ↔ ∀ rest, rest <:+ ts → rest.head?.all (·.kind == .eof) = true →
      ∀ t ∈ rest, t.kind = .eof := by
  induction ts with
  | nil =>
    refine ⟨fun _ rest hrest _ t ht ↦ ?_, fun _ ↦ List.Pairwise.nil⟩
    rw [List.suffix_nil.mp hrest] at ht
    exact absurd ht List.not_mem_nil
  | cons first ts ih =>
    rw [StaysEnded, List.pairwise_cons, ← StaysEnded, ih]
    constructor
    · rintro ⟨hfirst, hothers⟩ rest hrest hhead
      obtain rfl | hrest := List.suffix_cons_iff.mp hrest
      · have hend : first.kind = .eof := eq_of_beq hhead
        exact List.forall_mem_cons.mpr ⟨hend, fun t ht ↦ hfirst t ht hend⟩
      · exact hothers rest hrest hhead
    · intro h
      refine ⟨fun t ht hend ↦ ?_, fun rest hrest ↦ h rest (hrest.trans (List.suffix_cons first ts))⟩
      exact h (first :: ts) List.suffix_rfl (beq_iff_eq.mpr hend) t (List.mem_cons_of_mem _ ht)

/-- What comes after the first end token decides. -/
theorem Token.staysEnded_append_iff {front rest : List Token} {e : Token}
    (hfront : ∀ t ∈ front, t.kind ≠ .eof) (he : e.kind = .eof) :
    StaysEnded (front ++ e :: rest) ↔ ∀ t ∈ rest, t.kind = .eof := by
  constructor
  · intro h t ht
    obtain ⟨-, hback, -⟩ := List.pairwise_append.mp h
    exact (List.pairwise_cons.mp hback).1 t ht he
  · intro hrest
    refine List.pairwise_append.mpr ⟨?_, List.pairwise_cons.mpr ⟨fun t ht _ ↦ hrest t ht, ?_⟩, ?_⟩
    · exact List.pairwise_of_forall_mem_list fun t ht _ _ hend ↦ absurd hend (hfront t ht)
    · exact List.pairwise_of_forall_mem_list fun _ _ later hlater _ ↦ hrest later hlater
    · exact fun t ht _ _ hend ↦ absurd hend (hfront t ht)

namespace Parse

/-- The tokens that are left when a root rule succeeds after some calls on a parse. -/
def LeavesUnread (ts unread : List Token) : Prop :=
  ∃ calls p frame success r, (start ts).run calls = .ok p ∧ p.frames = [frame] ∧
    p.call (.close success) = .ok (true, r) ∧ r.rest = unread

variable {ts : List Token} {p r : Parse} {frame : Frame}

/-- A root rule that succeeds leaves what it finds, which does not start with anything to read. -/
theorem rest_of_root {success : Bool} (hframes : p.frames = [frame])
    (hclose : p.call (.close success) = .ok (true, r)) : p.atEnd = true ∧ r.rest = p.rest := by
  cases step_of_call hclose with
  | take _ hc => cases hc
  | inner _ hinner =>
    rw [hframes] at hinner
    cases hinner
  | root _ hend => exact ⟨hend, rfl⟩

/-- A root that is closed at the end succeeds and leaves what is left. -/
theorem close_of_atEnd (hframes : p.frames = [frame]) (hend : p.atEnd = true) :
    ∃ r, p.close true = (true, r) ∧ r.rest = p.rest := by
  rw [close, hframes]
  simp only [closeRoot, hend, if_true]
  exact ⟨_, rfl, rfl⟩

theorem call_advance (hopen : p.frames ≠ []) {t : Token} (ht : p.next? = some t) :
    p.call .advance = .ok (true, p.take "ANY" t) := by
  rw [call, inRule, if_neg (by simpa using hopen)]
  change Except.ok p.advance = _
  rw [advance, attempt, ht]
  rfl

/-- Any number of the tokens left can be taken one after the other. -/
theorem run_advances (hframes : p.frames = [frame]) {n : Nat} (hn : n ≤ p.rest.length) :
    ∃ q last, p.run (List.replicate n .advance) = .ok q ∧ q.frames = [last] ∧
      q.rest = p.rest.drop n := by
  induction n generalizing p frame with
  | zero => exact ⟨p, frame, rfl, hframes, rfl⟩
  | succ n ih =>
    obtain ⟨t, others, hrest⟩ := List.exists_cons_of_length_pos (Nat.lt_of_lt_of_le n.succ_pos hn)
    have hnext : p.next? = some t := by rw [next?_eq, hrest, List.head?_cons]
    have hlater : (p.take "ANY" t).rest = others := by
      rw [← rest_bare, bare_take, rest_took, rest_bare, hrest]
      rfl
    rw [hrest, List.length_cons] at hn
    obtain ⟨q, last, hrun, hlast, hq⟩ := @ih (p.take "ANY" t) _
      (by rw [take, hframes, List.modifyHead_cons]) (by rw [hlater]; omega)
    refine ⟨q, last, ?_, hlast, ?_⟩
    · rw [List.replicate_succ, run, call_advance (by simp [hframes]) hnext]
      exact hrun
    · rw [hq, hlater, hrest, List.drop_succ_cons]

/-- What a root can leave unread is any rest that is empty or starts with an end token. -/
theorem leavesUnread_iff {unread : List Token} :
    LeavesUnread ts unread ↔ unread <:+ ts ∧ unread.head?.all (·.kind == .eof) = true := by
  constructor
  · rintro ⟨calls, p, frame, success, r, hrun, hframes, hclose, rfl⟩
    obtain ⟨hend, hrest⟩ := rest_of_root hframes hclose
    have htokens := (isRecorded_run (isRecorded_start ts) hrun).1
    rw [atEnd_eq] at hend
    rw [hrest]
    refine ⟨?_, hend⟩
    rw [rest, htokens]
    exact List.drop_suffix p.cursor ts
  · rintro ⟨⟨front, rfl⟩, hend⟩
    -- A rule that takes just the tokens before the rest.
    have hstart : ((start (front ++ unread)).enter "root").rest = front ++ unread := by
      simp [enter, start, rest]
    obtain ⟨p, frame, hrun, hframes, hrest⟩ :=
      @run_advances ((start (front ++ unread)).enter "root") _ rfl front.length
        (by rw [hstart]; simp)
    rw [hstart, List.drop_left] at hrest
    obtain ⟨r, hclose, hleft⟩ := close_of_atEnd hframes (by rw [atEnd_eq, hrest]; exact hend)
    refine ⟨.enter "root" :: List.replicate front.length .advance, p, frame, true, r, hrun, hframes,
      ?_, hleft.trans hrest⟩
    rw [call_close (by simp [hframes]), hclose]

/-- Nothing but end tokens is ever left unread exactly if nothing else comes after one. -/
theorem forall_leavesUnread_iff :
    (∀ unread, LeavesUnread ts unread → ∀ t ∈ unread, t.kind = .eof) ↔ Token.StaysEnded ts := by
  simp only [Token.staysEnded_iff, leavesUnread_iff, and_imp]

end Parse

end OrderFile
