import OrderFile.Proofs.Token.Respaced

/-!
What stays in a prepared stream. A token is kept if it is no line end, comment or space, or if it is
the first line end of a run, where comments and spaces do not part the line ends of a run. The
prepared stream is the kept tokens in their order (`exists_places_prepare`), and that of a file ends
with one line end and the only end token: `ofBytes_prepared`.
-/

set_option autoImplicit false

namespace OrderFile.Token

/-! ### Runs of line ends -/

/-- Whether the line ends at two places are in one run: between them stand only line ends, comments
and spaces. -/
def SameRun (ts : List Token) (i j : Nat) : Prop :=
  ∀ k t, i < k → k < j → ts[k]? = some t → t.kind = .eol ∨ t.kind.isTrivia = true

/-- Whether the token at a place is kept: no comment or space, and if it is a line end, then the
first of its run. -/
def IsKept (ts : List Token) (j : Nat) : Prop :=
  ∃ t, ts[j]? = some t ∧ t.kind.isTrivia = false ∧
    (t.kind = .eol → ∀ i e, i < j → ts[i]? = some e → e.kind = .eol → ¬ SameRun ts i j)

/-- Whether a line end after some tokens would be in one run with a line end before. -/
def RunsOn (ts : List Token) : Prop :=
  ∃ i e, ts[i]? = some e ∧ e.kind = .eol ∧ SameRun ts i ts.length

section

variable {ts : List Token} {s t : Token} {i j : Nat}

theorem getElem?_concat_eq_some_iff :
    (ts ++ [t])[i]? = some s ↔ ts[i]? = some s ∨ i = ts.length ∧ t = s := by
  rcases Nat.lt_trichotomy i ts.length with hi | rfl | hi
  · rw [List.getElem?_append_left hi]
    exact ⟨.inl, fun h ↦ h.resolve_right fun hlast ↦ Nat.ne_of_lt hi hlast.1⟩
  · simp
  · have hlong : (ts ++ [t]).length ≤ i := by simpa using Nat.succ_le_of_lt hi
    rw [List.getElem?_eq_none hlong, List.getElem?_eq_none (Nat.le_of_lt hi)]
    simp only [reduceCtorEq, false_or, false_iff, not_and]
    omega

/-- Whether line ends are in one run does not depend on what comes after them. -/
theorem sameRun_concat_iff (h : j ≤ ts.length) : SameRun (ts ++ [t]) i j ↔ SameRun ts i j := by
  refine forall_congr' fun k ↦ forall_congr' fun s ↦ forall_congr' fun _ ↦
    forall_congr' fun hk ↦ ?_
  rw [List.getElem?_append_left (Nat.lt_of_lt_of_le hk h)]

/-- A run goes on over line ends, comments and spaces. -/
theorem sameRun_succ_iff (h : i < ts.length) :
    SameRun (ts ++ [t]) i (ts.length + 1) ↔
      SameRun ts i ts.length ∧ (t.kind = .eol ∨ t.kind.isTrivia = true) := by
  constructor
  · intro hrun
    refine ⟨fun k s hik hk hs ↦ ?_, hrun ts.length t h (by omega) (by simp)⟩
    exact hrun k s hik (by omega) (getElem?_concat_eq_some_iff.mpr (.inl hs))
  · rintro ⟨hrun, ht⟩ k s hik - hs
    rcases getElem?_concat_eq_some_iff.mp hs with hs | ⟨-, rfl⟩
    · exact hrun k s hik (List.getElem?_eq_some_iff.mp hs).1 hs
    · exact ht

theorem not_runsOn_nil : ¬ RunsOn [] := by
  rintro ⟨i, e, he, -⟩
  cases he

/-- A run goes on after a line end, and comments and spaces do not part it. -/
theorem runsOn_concat_iff :
    RunsOn (ts ++ [t]) ↔ t.kind = .eol ∨ t.kind.isTrivia = true ∧ RunsOn ts := by
  have hlength : (ts ++ [t]).length = ts.length + 1 := List.length_append
  rw [RunsOn, hlength]
  constructor
  · rintro ⟨i, e, he, heol, hrun⟩
    rcases getElem?_concat_eq_some_iff.mp he with he | ⟨-, rfl⟩
    · obtain ⟨hrun, ht⟩ := (sameRun_succ_iff (List.getElem?_eq_some_iff.mp he).1).mp hrun
      exact ht.imp_right fun htrivia ↦ ⟨htrivia, i, e, he, heol, hrun⟩
    · exact .inl heol
  · rintro (heol | ⟨htrivia, i, e, he, heol, hrun⟩)
    · refine ⟨ts.length, t, by simp, heol, fun k s hk hlast _ ↦ ?_⟩
      omega
    · refine ⟨i, e, getElem?_concat_eq_some_iff.mpr (.inl he), heol, ?_⟩
      exact (sameRun_succ_iff (List.getElem?_eq_some_iff.mp he).1).mpr ⟨hrun, .inr htrivia⟩

/-- A run goes on exactly if the last token that is no comment or space is a line end. -/
theorem runsOn_iff (ts : List Token) :
    RunsOn ts ↔ (ts.filter (!·.kind.isTrivia)).getLast?.elim false (·.kind == .eol) = true := by
  induction ts using List.reverseRecOn with
  | nil => exact iff_of_false not_runsOn_nil Bool.false_ne_true
  | append_singleton ts t ih =>
    rw [runsOn_concat_iff, List.filter_append]
    cases htrivia : t.kind.isTrivia with
    | true =>
      have hother : t.kind ≠ .eol := fun heol ↦ by simp [heol, Kind.isTrivia] at htrivia
      rw [List.filter_cons_of_neg (by simp [htrivia]), List.filter_nil, List.append_nil, ih]
      simp [hother]
    | false =>
      rw [List.filter_cons_of_pos (by simp [htrivia]), List.filter_nil, List.getLast?_concat]
      simp

instance (ts : List Token) : Decidable (RunsOn ts) :=
  decidable_of_iff _ (runsOn_iff ts).symm

/-! ### Tokens that are kept -/

/-- Whether a token is kept is decided by what stands before it. -/
theorem isKept_concat_iff :
    IsKept (ts ++ [t]) j ↔
      IsKept ts j ∨ j = ts.length ∧ ¬ (t.kind.isTrivia = true ∨ t.kind = .eol ∧ RunsOn ts) := by
  have hbefore (hj : j ≤ ts.length) :
      (∀ i e, i < j → (ts ++ [t])[i]? = some e → e.kind = .eol → ¬ SameRun (ts ++ [t]) i j) ↔
        ∀ i e, i < j → ts[i]? = some e → e.kind = .eol → ¬ SameRun ts i j := by
    refine forall_congr' fun i ↦ forall_congr' fun e ↦ forall_congr' fun hi ↦ ?_
    rw [List.getElem?_append_left (Nat.lt_of_lt_of_le hi hj), sameRun_concat_iff hj]
  constructor
  · rintro ⟨s, hs, htrivia, hfirst⟩
    rcases getElem?_concat_eq_some_iff.mp hs with hs | ⟨rfl, rfl⟩
    · have hj := Nat.le_of_lt (List.getElem?_eq_some_iff.mp hs).1
      exact .inl ⟨s, hs, htrivia, fun heol ↦ (hbefore hj).mp (hfirst heol)⟩
    · refine .inr ⟨rfl, ?_⟩
      rintro (hgone | ⟨heol, i, e, he, hline, hrun⟩)
      · exact Bool.false_ne_true (htrivia.symm.trans hgone)
      · have hi := (List.getElem?_eq_some_iff.mp he).1
        exact (hbefore (Nat.le_refl _)).mp (hfirst heol) i e hi he hline hrun
  · rintro (⟨s, hs, htrivia, hfirst⟩ | ⟨rfl, hkept⟩)
    · have hj := Nat.le_of_lt (List.getElem?_eq_some_iff.mp hs).1
      exact ⟨s, getElem?_concat_eq_some_iff.mpr (.inl hs), htrivia,
        fun heol ↦ (hbefore hj).mpr (hfirst heol)⟩
    · refine ⟨t, getElem?_concat_eq_some_iff.mpr (.inr ⟨rfl, rfl⟩),
        Bool.eq_false_iff.mpr fun hgone ↦ hkept (.inl hgone), fun heol ↦ ?_⟩
      refine (hbefore (Nat.le_refl _)).mpr fun i e _ he hline hrun ↦ ?_
      exact hkept (.inr ⟨heol, i, e, he, hline, hrun⟩)

/-- The last token is left out if it is a line end and one comes before it. -/
theorem collapseLinesFrom_concat (after : Bool) (ts : List Token) (t : Token) :
    collapseLinesFrom after (ts ++ [t]) =
      collapseLinesFrom after ts ++
        if t.kind = .eol ∧ ts.getLast?.elim after (·.kind == .eol) = true then [] else [t] := by
  induction ts generalizing after with
  | nil =>
    rw [List.nil_append, collapseLinesFrom, collapseLinesFrom]
    rfl
  | cons s ts ih =>
    have hlast : (s :: ts).getLast?.elim after (·.kind == .eol) =
        ts.getLast?.elim (s.kind == .eol) (·.kind == .eol) := by
      rw [List.getLast?_cons]
      cases ts.getLast? <;> rfl
    rw [List.cons_append, hlast]
    by_cases hs : s.kind = .eol
    · rw [collapseLinesFrom_eol hs, collapseLinesFrom_eol hs, ih, List.append_assoc, hs]
      rfl
    · rw [collapseLinesFrom_word hs, collapseLinesFrom_word hs, ih, List.cons_append,
        beq_false_of_ne hs]

/-- One more token is kept or left out. -/
theorem prepare_concat :
    prepare (ts ++ [t]) =
      prepare ts ++ if t.kind.isTrivia = true ∨ t.kind = .eol ∧ RunsOn ts then [] else [t] := by
  rw [prepare_eq, prepare_eq, List.filter_append]
  cases htrivia : t.kind.isTrivia with
  | true =>
    rw [List.filter_cons_of_neg (by simp [htrivia]), List.filter_nil, List.append_nil,
      if_pos (.inl rfl), List.append_nil]
  | false =>
    rw [List.filter_cons_of_pos (by simp [htrivia]), List.filter_nil, collapseLinesFrom_concat]
    simp only [runsOn_iff, Bool.false_eq_true, false_or]

end

/-- The prepared stream is the tokens at the places that are kept. -/
theorem exists_places_prepare (ts : List Token) :
    ∃ places : List Nat, places.Pairwise (· < ·) ∧ (∀ i, i ∈ places ↔ IsKept ts i) ∧
      (prepare ts).map some = places.map (ts[·]?) := by
  induction ts using List.reverseRecOn with
  | nil => exact ⟨[], .nil, by simp [IsKept], rfl⟩
  | append_singleton ts t ih =>
    obtain ⟨places, hsorted, hmem, hprepare⟩ := ih
    have hlt : ∀ i ∈ places, i < ts.length := by
      intro i hi
      obtain ⟨s, hs, -⟩ := (hmem i).mp hi
      exact (List.getElem?_eq_some_iff.mp hs).1
    have hbefore : places.map ((ts ++ [t])[·]?) = places.map (ts[·]?) :=
      List.map_congr_left fun i hi ↦ List.getElem?_append_left (hlt i hi)
    by_cases hgone : t.kind.isTrivia = true ∨ t.kind = .eol ∧ RunsOn ts
    · refine ⟨places, hsorted, fun i ↦ ?_, ?_⟩
      · rw [hmem, isKept_concat_iff]
        exact ⟨.inl, fun h ↦ h.resolve_right fun hlast ↦ hlast.2 hgone⟩
      · rw [prepare_concat, if_pos hgone, List.append_nil, hprepare, hbefore]
    · refine ⟨places ++ [ts.length], ?_, fun i ↦ ?_, ?_⟩
      · refine List.pairwise_append.mpr ⟨hsorted, List.pairwise_singleton .., fun i hi j hj ↦ ?_⟩
        rw [List.mem_singleton.mp hj]
        exact hlt i hi
      · rw [List.mem_append, List.mem_singleton, hmem, isKept_concat_iff]
        exact or_congr_right ⟨fun h ↦ ⟨h, hgone⟩, fun h ↦ h.1⟩
      · rw [prepare_concat, if_neg hgone, List.map_append, List.map_append, hprepare, hbefore,
          List.map_singleton, List.map_singleton, List.getElem?_concat_length]

/-! ### Files -/

/-- The last two tokens of a stream that has no line end before it. -/
theorem Ended.exists_eq {closed : Bool} {ts : List Token} (h : Ended closed ts) :
    ∃ front f, ts = front ++ [f] ∧ f.kind = .eof ∧ (∀ t ∈ front, t.kind ≠ .eof) ∧
      front.getLast?.elim closed (·.kind == .eol) = true := by
  induction h with
  | @eof f hf => exact ⟨[], f, rfl, hf, List.forall_mem_nil _, rfl⟩
  | @cons closed t ts ht _ ih =>
    obtain ⟨front, f, rfl, hf, hfront, hlast⟩ := ih
    refine ⟨t :: front, f, rfl, hf, List.forall_mem_cons.mpr ⟨ht, hfront⟩, ?_⟩
    rw [List.getLast?_cons]
    cases hend : front.getLast? <;> rw [hend] at hlast <;> exact hlast

/-- The prepared stream of a text ends with a line end and the only end token. -/
theorem prepare_scan_ends (text : List Char) :
    ∃ front e f, prepare (scan text) = front ++ [e, f] ∧ e.kind = .eol ∧ f.kind = .eof ∧
      ∀ t ∈ front, t.kind ≠ .eof := by
  obtain ⟨front, f, hts, hf, hfront, hlast⟩ := (prepare_scan_ended text).exists_eq
  cases front using List.reverseRecOn with
  | nil => cases hlast
  | append_singleton front e =>
    rw [List.getLast?_concat, Option.elim_some, beq_iff_eq] at hlast
    refine ⟨front, e, f, ?_, hlast, hf, fun t ht ↦ hfront t (List.mem_append_left _ ht)⟩
    rw [hts, List.append_assoc]
    rfl

/-- The prepared stream of a file has no comments and spaces, no line end right after another, and
one end token, which stands at its end after a line end. It is the tokens of the file at the places
that are kept, in their order: all but the comments, the spaces and the line ends that are not the
first of their run. -/
theorem ofBytes_prepared (bytes : List UInt8) :
    (∀ t ∈ prepare (ofBytes bytes), t.kind ≠ .comment ∧ t.kind ≠ .spaces) ∧
      (prepare (ofBytes bytes)).IsChain (fun s t ↦ ¬ (s.kind = .eol ∧ t.kind = .eol)) ∧
      (∃ front e f, prepare (ofBytes bytes) = front ++ [e, f] ∧ e.kind = .eol ∧ f.kind = .eof ∧
        ∀ t ∈ front, t.kind ≠ .eof) ∧
      ∃ places : List Nat, places.Pairwise (· < ·) ∧
        (∀ i, i ∈ places ↔ IsKept (ofBytes bytes) i) ∧
        (prepare (ofBytes bytes)).map some = places.map ((ofBytes bytes)[·]?) := by
  refine ⟨fun t ht ↦ ?_, ?_, prepare_scan_ends _, exists_places_prepare _⟩
  · have htrivia := not_isTrivia_of_mem_prepare ht
    constructor <;> intro hkind <;> simp [hkind, Kind.isTrivia] at htrivia
  · rw [prepare_eq]
    exact (collapsed_collapseLinesFrom false _).1.imp fun _ _ h hboth ↦ h hboth.1 hboth.2

end OrderFile.Token
