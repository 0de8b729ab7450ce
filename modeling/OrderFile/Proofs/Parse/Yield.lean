import OrderFile.Proofs.Parse.Recorded

/-!
What open rules hold. Whatever is called on a parse, the rules that are open lie one inside the
other, and each of them holds exactly the tokens from its start to the start of the next one. So a
root rule that succeeds holds the tokens that were taken since it was entered, however often the
parse went back.
-/

set_option autoImplicit false

namespace OrderFile.Parse

open OrderFile.Tree (tokensOf)

/-- Where open rules start, outermost first, and the index up to which the innermost one reaches. -/
def bounds (frames : List Frame) (index : Nat) : List Nat :=
  frames.reverse.map (·.start) ++ [index]

/-- Where the open rules of a parse start, outermost first, and the cursor. -/
def positions (p : Parse) : List Nat :=
  bounds p.frames p.cursor

variable {ts : List Token}

theorem bounds_cons (frame : Frame) (outer : List Frame) (index : Nat) :
    bounds (frame :: outer) index = bounds outer frame.start ++ [index] := by
  simp [bounds]

/-- There is one place more than there are open rules. -/
theorem length_bounds (frames : List Frame) (index : Nat) :
    (bounds frames index).length = frames.length + 1 := by
  simp [bounds]

/-- A rule that is recorded holds the tokens from its start on. -/
theorem Frame.Recorded.tokens {frame : Frame} {index : Nat} (h : frame.Recorded ts index)
    (hstart : frame.start ≤ ts.length) :
    frame.start ≤ index ∧ tokensOf frame.children.toList = Token.between ts frame.start index := by
  obtain ⟨hle, -, htokens⟩ := Trace.tokens_of_replaysAll hstart _ h.replays
  rw [h.reaches] at hle htokens
  rw [h.keeps] at htokens
  exact ⟨hle, htokens⟩

/-- Rules further in start later, and none after the place of the parse. -/
theorem pairwise_bounds {frames : List Frame} {index : Nat} (h : Recorded ts frames index) :
    (bounds frames index).Pairwise (· ≤ ·) ∧
      ∀ position ∈ bounds frames index, position ≤ index := by
  induction frames generalizing index with
  | nil => simp [bounds]
  | cons frame outer ih =>
    obtain ⟨hframe, houter⟩ := h
    obtain ⟨hsorted, hmax⟩ := ih houter
    have hle := (hframe.tokens (le_length_of_recorded houter)).1
    have hall : ∀ position ∈ bounds outer frame.start, position ≤ index := by
      intro position hposition
      exact Nat.le_trans (hmax position hposition) hle
    rw [bounds_cons, List.pairwise_append]
    refine ⟨⟨hsorted, List.pairwise_singleton .., ?_⟩, ?_⟩
    · simpa using hall
    · simpa [or_imp, forall_and] using hall

/-- Every open rule holds the tokens up to the start of the next one. -/
theorem tokens_of_recorded {frames : List Frame} {index : Nat} (h : Recorded ts frames index)
    {j : Nat} {frame : Frame} (hframe : frames.reverse[j]? = some frame) :
    ∃ stop, (bounds frames index)[j + 1]? = some stop ∧
      tokensOf frame.children.toList = Token.between ts frame.start stop := by
  induction frames generalizing index with
  | nil => cases hframe
  | cons first outer ih =>
    obtain ⟨hfirst, houter⟩ := h
    rw [bounds_cons]
    rw [List.reverse_cons] at hframe
    by_cases hj : j < outer.length
    · rw [List.getElem?_append_left (by rwa [List.length_reverse])] at hframe
      rw [List.getElem?_append_left (by rw [length_bounds]; omega)]
      exact ih houter hframe
    · have hlast : j = outer.length := by
        have hlt := (List.getElem?_eq_some_iff.mp hframe).1
        rw [List.length_append, List.length_reverse, List.length_singleton] at hlt
        omega
      subst hlast
      have heq : first = frame := by simpa using hframe
      subst heq
      refine ⟨index, ?_, (hfirst.tokens (le_length_of_recorded houter)).2⟩
      rw [← length_bounds outer first.start, List.getElem?_concat_length]

/-- A root rule that succeeds leaves a tree of the tokens from its start to the cursor. -/
theorem tokens_of_root {p r : Parse} (h : IsRecorded ts p) {frame : Frame} {success : Bool}
    (hframes : p.frames = [frame]) (hclose : p.call (.close success) = .ok (true, r)) :
    ∃ tree, r.tree = some tree ∧ tree.tokens = Token.between ts frame.start r.cursor := by
  have hrecorded := h.2
  rw [hframes] at hrecorded
  have hstart : frame.start ≤ ts.length := hrecorded.2
  obtain ⟨-, trace, -, hlabel, hreplays, hreaches, htree⟩ := close_recorded h.2 hframes hclose
  have hspan := (Trace.tokens_of_replays hstart trace hreplays).2.2
  obtain ⟨label, traces⟩ := trace
  cases hlabel
  rw [hreaches, Trace.kept?, if_pos rfl] at hspan
  rw [if_pos rfl, Trace.kept?, if_pos rfl] at htree
  exact ⟨_, htree, by simpa using hspan⟩

/-- Whatever calls make sense on a parse: its open rules start one after the other and not behind
the cursor, which is not behind the end; and each of them holds the tokens from its start to the
start of the next one, or to the cursor. If the only open rule is closed then and succeeds, it leaves
a tree of just the tokens from its start to the cursor. If no rule is open, a root rule that is
entered then starts at the cursor; so if it succeeds after some balanced calls, the tree it leaves
holds just the tokens taken since it was entered. -/
theorem run_yields {calls : List Call} {p : Parse} (h : (start ts).run calls = .ok p) :
    p.positions.Pairwise (· ≤ ·) ∧ p.cursor ≤ ts.length ∧
      (∀ (j : Nat) frame, p.frames.reverse[j]? = some frame →
        ∃ stop, p.positions[j + 1]? = some stop ∧
          tokensOf frame.children.toList = Token.between ts frame.start stop) ∧
      (∀ frame success r, p.frames = [frame] → p.call (.close success) = .ok (true, r) →
        ∃ tree, r.tree = some tree ∧ tree.tokens = Token.between ts frame.start r.cursor) ∧
      (p.frames = [] → ∀ rule body success q r, Balanced body →
        (p.enter rule).run body = .ok q → q.call (.close success) = .ok (true, r) →
          ∃ tree, r.tree = some tree ∧ tree.tokens = Token.between ts p.cursor r.cursor) := by
  have hrecorded := isRecorded_run (isRecorded_start ts) h
  refine ⟨(pairwise_bounds hrecorded.2).1, le_length_of_recorded hrecorded.2,
    fun _ _ ↦ tokens_of_recorded hrecorded.2, fun _ _ _ ↦ tokens_of_root hrecorded, ?_⟩
  intro hnone rule body success q r hbody hrun hclose
  have hopened : (p.enter rule).frames = [⟨rule, p.cursor, #[], #[]⟩] := by
    rw [enter, hnone]
  obtain ⟨-, -, children, entries, hframes⟩ := run_balanced hbody hopened hrun
  have hentered : IsRecorded ts (p.enter rule) :=
    ⟨hrecorded.1, .opened ts rule p.cursor, hrecorded.2⟩
  exact tokens_of_root (isRecorded_run hentered hrun) hframes hclose

/-- A survey order that was tried as a name order before: the root rule holds each token once. -/
theorem run_yields_retriedSurvey :
    ∃ p r, (start surveyTokens).run (.enter "orders" :: retriedSurvey) = .ok p ∧
      p.positions = [0, 4] ∧ p.call (.close true) = .ok (true, r) ∧
      ∃ tree, r.tree = some tree ∧ tree.tokens = surveyTokens := by
  have hcomputed : ((start surveyTokens).run (.enter "orders" :: retriedSurvey)).toOption.map
      (fun p ↦ (p.frames.length, p.positions, (p.close true).1, (p.close true).2.cursor)) =
        some (1, [0, 4], true, 4) := by decide +kernel
  cases hrun : (start surveyTokens).run (.enter "orders" :: retriedSurvey) with
  | error misuse =>
    rw [hrun] at hcomputed
    cases hcomputed
  | ok p =>
    rw [hrun] at hcomputed
    obtain ⟨hone, hothers⟩ := Prod.mk.inj (Option.some.inj hcomputed)
    obtain ⟨hpositions, hothers⟩ := Prod.mk.inj hothers
    obtain ⟨hsuccess, hcursor⟩ := Prod.mk.inj hothers
    obtain ⟨frame, hframes⟩ := List.length_eq_one_iff.mp hone
    have hclose : p.call (.close true) = .ok (true, (p.close true).2) := by
      rw [call_close (by simp [hframes])]
      exact congrArg Except.ok (Prod.ext hsuccess rfl)
    have hstart : frame.start = 0 := by
      rw [positions, hframes] at hpositions
      exact (List.cons.inj hpositions).1
    obtain ⟨-, -, -, hroot, -⟩ := run_yields hrun
    obtain ⟨tree, htree, htokens⟩ := hroot frame true _ hframes hclose
    rw [hstart, hcursor] at htokens
    exact ⟨p, _, rfl, hpositions, hclose, tree, htree, htokens⟩

end OrderFile.Parse
