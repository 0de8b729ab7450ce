import OrderFile.Proofs.Grammar.Reread

/-!
Parses of files whose tokens are told in other words. Step by step such a file is parsed as the file
itself, up to the change (`follow_map`, `lines_map`), and so it fails where the file itself does
(`place_parseTokens_map`).
-/

set_option autoImplicit false

namespace OrderFile.Grammar

open Parse (mapResult)
open Token (Rewords)

namespace Pattern

/-- What goes as a reading goes leaves as many rules open as there were. -/
theorem length_frames_of_agrees {p : Parse} {result : Bool × Parse}
    {outcome : Option (List Tree × List Token)} (h : Agrees p result outcome) :
    result.2.frames.length = p.frames.length := by
  have hbare : result.2.bare.frames.length = p.bare.frames.length := by
    cases outcome with
    | none =>
      obtain ⟨-, cursor, children, hbare⟩ := h
      rw [hbare]
      exact List.length_modifyHead
    | some read =>
      rw [h.2]
      exact List.length_modifyHead
  simpa [Parse.bare] using hbare

section

variable {f : Token → Token} (hf : Rewords f)

include hf

theorem isNext_map {pattern : Pattern} (h : pattern.isPlain = true) (p : Parse) :
    pattern.isNext (p.map f) = pattern.isNext p :=
  Parse.any_next?_map (starts_map hf h)

/-- A repetition goes the same way if what it repeats does. -/
theorem repeatUntil_map {stop : String} {body : Parse → Bool × Parse}
    (hbody : ∀ p : Parse, p.frames ≠ [] → body (p.map f) = mapResult f (body p))
    (hopen : ∀ p : Parse, p.frames ≠ [] → (body p).2.frames ≠ []) (n : Nat) {p : Parse}
    (hp : p.frames ≠ []) :
    repeatUntil stop body n (p.map f) = (repeatUntil stop body n p).map f := by
  induction n generalizing p with
  | zero => rfl
  | succ n ih =>
    rw [repeatUntil, repeatUntil, Parse.any_next?_map (fun t ↦ hf.spells t stop), hbody p hp]
    split
    · rfl
    · have hlater := hopen p hp
      generalize body p = result at hlater
      obtain ⟨success, later⟩ := result
      cases success with
      | false => rfl
      | true => exact ih hlater

theorem follow_oneWord_map (words : List String) (p : Parse) :
    follow (oneWord words) (p.map f) = mapResult f (follow (oneWord words) p) := by
  have hword (w : String) : (p.map f).acceptWord w = mapResult f (p.acceptWord w) :=
    Parse.accept_map hf rfl
  have hnext : (fun w ↦ (p.map f).next?.any (·.spells w)) = fun w ↦ p.next?.any (·.spells w) :=
    funext fun w ↦ Parse.any_next?_map fun t ↦ hf.spells t w
  unfold follow
  rw [hnext]
  cases words.find? fun w ↦ p.next?.any (·.spells w) with
  | some w => exact hword w
  | none =>
    cases words with
    | nil => rfl
    | cons w others => exact hword w

/-- Bounds on an integer are met by the same tokens. -/
theorem follow_integerIn_map (low high : Int64) (p : Parse) :
    follow (integerIn low high) (p.map f) = mapResult f (follow (integerIn low high) p) := by
  have hvalue : (p.map f).next?.bind Token.integer? = p.next?.bind Token.integer? := by
    rw [Parse.next?_map]
    cases p.next? with
    | none => rfl
    | some t => exact hf.integer? t
  simp only [follow, hvalue, Parse.acceptKind_map hf]
  rfl

/-- A parse follows a pattern with the changed tokens as it does with the tokens themselves. -/
theorem follow_map {pattern : Pattern} (hrepeats : pattern.repeatsRules = true)
    (hplain : pattern.isPlain = true) {p : Parse} (hopen : p.frames ≠ []) :
    pattern.follow (p.map f) = mapResult f (pattern.follow p) := by
  have hframes {pattern : Pattern} (hrepeats : pattern.repeatsRules = true) {p : Parse}
      (hopen : p.frames ≠ []) : (pattern.follow p).2.frames.length = p.frames.length :=
    length_frames_of_agrees (follow_agrees_and hrepeats hopen).1
  have hstays {pattern : Pattern} (hrepeats : pattern.repeatsRules = true) {p : Parse}
      (hopen : p.frames ≠ []) : (pattern.follow p).2.frames ≠ [] := by
    rw [← List.length_pos_iff, hframes hrepeats hopen]
    exact List.length_pos_iff.mpr hopen
  induction pattern generalizing p with
  | empty => rfl
  | token shape => exact Parse.accept_map hf hplain
  | anyOf kinds => exact Parse.acceptAnyOf_map hf kinds
  | oneWord words => exact follow_oneWord_map hf words p
  | integerIn low high => exact follow_integerIn_map hf low high p
  | seq first second ihfirst ihsecond =>
    obtain ⟨hfirst, hsecond⟩ := (Bool.and_eq_true _ _).mp hrepeats
    obtain ⟨hfirst', hsecond'⟩ := (Bool.and_eq_true _ _).mp hplain
    have hlater := hstays hfirst hopen
    rw [follow, follow, ihfirst hfirst hfirst' hopen]
    generalize first.follow p = result at hlater
    obtain ⟨success, later⟩ := result
    cases success with
    | false => rfl
    | true => exact ihsecond hsecond hsecond' hlater
  | optional body ih =>
    rw [follow, follow, @isNext_map _ hf body hplain]
    split
    · exact ih hrepeats hplain hopen
    · rfl
  | choice first second ihfirst ihsecond =>
    obtain ⟨hfirst, hsecond⟩ := (Bool.and_eq_true _ _).mp hrepeats
    obtain ⟨hfirst', hsecond'⟩ := (Bool.and_eq_true _ _).mp hplain
    rw [follow, follow, isNext_map hf hfirst']
    split
    · exact ihfirst hfirst hfirst' hopen
    · exact ihsecond hsecond hsecond' hopen
  | repeated body stop ih =>
    have hbody := ((Bool.and_eq_true _ _).mp hrepeats).2
    rw [follow, follow, Parse.remaining_map,
      repeatUntil_map hf (fun _ ↦ ih hbody hplain) (fun _ ↦ hstays hbody) _ hopen]
    rfl
  | rule name body ih =>
    have hinner : (p.enter name).frames ≠ [] := List.cons_ne_nil _ _
    refine Parse.within_map (ih hrepeats hplain hinner) ?_
    rw [@hframes body hrepeats _ hinner]
    exact Nat.succ_le_succ (List.length_pos_iff.mpr hopen)

end

end Pattern

/-! ### Lines -/

open Pattern

/-- What changes nothing when it fails leaves as many rules open as there were. -/
theorem frames_ne_nil_of_agrees {p : Parse} {result : Bool × Parse}
    {outcome : Option (List Tree × List Token)} (hopen : p.frames ≠ [])
    (h : Agrees p result outcome) : result.2.frames ≠ [] := by
  rw [← List.length_pos_iff, length_frames_of_agrees h]
  exact List.length_pos_iff.mpr hopen

section

variable {f : Token → Token} (hf : Rewords f) {p : Parse}

include hf

/-- An order is parsed the same way. -/
theorem order_map (hopen : p.frames ≠ []) : order (p.map f) = mapResult f (order p) := by
  have hkeyword : ((p.map f).enter "order").next?.bind Keyword.ofToken? =
      (p.enter "order").next?.bind Keyword.ofToken? := by
    rw [Parse.enter_map, Parse.next?_map]
    cases (p.enter "order").next? with
    | none => rfl
    | some t => exact hf.ofToken? t
  have hinner : (p.enter "order").frames ≠ [] := List.cons_ne_nil _ _
  refine Parse.within_map ?_ ?_
  · rw [← Parse.enter_map, hkeyword]
    cases (p.enter "order").next?.bind Keyword.ofToken? with
    | none => exact congrArg (Prod.mk false) (Parse.enter_map _)
    | some k =>
      dsimp only
      rw [Parse.enter_map]
      exact follow_map hf (command_repeatsRules k) (command_isPlain k) hinner
  · have hopened : 2 ≤ (p.enter "order").frames.length :=
      Nat.succ_le_succ (List.length_pos_iff.mpr hopen)
    cases (p.enter "order").next?.bind Keyword.ofToken? with
    | none => exact hopened
    | some k =>
      dsimp only
      rw [length_frames_of_agrees (follow_agrees_and (command_repeatsRules k) hinner).1]
      exact hopened

theorem skipLine_map (n : Nat) : skipLine n (p.map f) = mapResult f (skipLine n p) := by
  induction n generalizing p with
  | zero => rfl
  | succ n ih =>
    rw [skipLine, skipLine, Parse.sees_map hf, Parse.advance, Parse.advance,
      Parse.attempt_map (f := f) "ANY" fun _ ↦ rfl]
    split
    · rfl
    · generalize p.attempt "ANY" (fun _ ↦ true) = result
      obtain ⟨success, later⟩ := result
      cases success with
      | false => rfl
      | true => exact ih

theorem unknown_map (hopen : p.frames ≠ []) : unknown (p.map f) = mapResult f (unknown p) := by
  have hskip := skipLine_agrees ((p.enter "unknown").remaining + 1) (p.enter "unknown")
    (by rw [Parse.remaining_eq]; omega)
  refine Parse.within_map ?_ ?_
  · rw [Parse.remaining_map, skipLine_map hf]
    generalize skipLine _ (p.enter "unknown") = result
    obtain ⟨success, later⟩ := result
    cases success with
    | false => rfl
    | true => exact Parse.acceptKind_map hf .eol
  · have hlength := length_frames_of_agrees hskip
    have hopened : 2 ≤ (p.enter "unknown").frames.length :=
      Nat.succ_le_succ (List.length_pos_iff.mpr hopen)
    generalize skipLine _ (p.enter "unknown") = result at hlength
    obtain ⟨success, later⟩ := result
    dsimp only at hlength
    cases success with
    | false => exact hlength ▸ hopened
    | true =>
      dsimp only
      rw [length_frames_of_agrees (acceptKind_agreesWhole .eol later).agrees, hlength]
      exact hopened

theorem line_map (stop : Bool) (hopen : p.frames ≠ []) :
    line stop (p.map f) = mapResult f (line stop p) := by
  have horder := frames_ne_nil_of_agrees hopen (order_agreesWhole hopen).agrees
  rw [line, line, order_map hf hopen]
  generalize order p = first at horder
  obtain ⟨success, middle⟩ := first
  cases success with
  | true => rfl
  | false =>
    have heol := frames_ne_nil_of_agrees horder (acceptKind_agreesWhole .eol middle).agrees
    dsimp only [mapResult]
    rw [Parse.acceptKind_map hf]
    generalize middle.acceptKind .eol = second at heol
    obtain ⟨success, later⟩ := second
    cases success with
    | true => rfl
    | false =>
      cases stop with
      | true => rfl
      | false => exact unknown_map hf heol

theorem lines_map (stop : Bool) (n : Nat) (hopen : p.frames ≠ []) :
    lines stop n (p.map f) = mapResult f (lines stop n p) := by
  induction n generalizing p with
  | zero => rfl
  | succ n ih =>
    have hline := frames_ne_nil_of_agrees hopen (line_agreesWhole stop hopen).agrees
    rw [lines, lines, Parse.sees_map hf, line_map hf stop hopen]
    split
    · rfl
    · generalize line stop p = result at hline
      obtain ⟨success, later⟩ := result
      cases success with
      | false => rfl
      | true => exact ih hline

/-! ### Files -/

/-- What a parse of a file with the changed tokens comes to is what closing its root rule does. -/
theorem exists_orders_map (stop : Bool) (ts : List Token) :
    ∃ success frame, ∃ later : Parse, later.frames = [frame] ∧
      orders stop (Parse.start ts) = later.close success ∧
        orders stop (Parse.start (ts.map f)) = (later.map f).close success := by
  have hbody := fileBody_agrees stop ts
  have hlines := lines_map hf (p := (Parse.start ts).enter "orders") stop
    (((Parse.start ts).enter "orders").remaining + 1) (List.cons_ne_nil _ _)
  obtain ⟨frame, hframe⟩ := List.length_eq_one_iff.mp (length_frames_of_agrees hbody)
  rw [orders, orders, Parse.within_eq, Parse.within_eq, Parse.start_map, Parse.enter_map,
    Parse.remaining_map, hlines]
  generalize lines stop _ ((Parse.start ts).enter "orders") = result at hframe
  obtain ⟨success, later⟩ := result
  cases success with
  | false => exact ⟨false, frame, later, hframe, rfl, rfl⟩
  | true =>
    dsimp only [mapResult] at hframe ⊢
    rw [Parse.acceptKind_map hf]
    exact ⟨_, frame, _, hframe, rfl, rfl⟩

end

end OrderFile.Grammar

namespace OrderFile

open Token (Rewords)

/-- A token stream with changed tokens that stay on their lines fails where the stream fails. -/
theorem place_parseTokens_map {f : Token → Token} (hf : Rewords f)
    (hline : ∀ t, (f t).line = t.line) {tokens others : List Token}
    (h : Token.prepare others = (Token.prepare tokens).map f) (options : Options) :
    (parseTokens others options).fault.map Fault.place =
      (parseTokens tokens options).fault.map Fault.place := by
  obtain ⟨success, frame, later, hframes, hts, hmapped⟩ :=
    Grammar.exists_orders_map hf options.stopOnFirstError (Token.prepare tokens)
  rw [parseTokens, parseTokens, h, hts, hmapped]
  exact Parse.place_close_root_map hf success hline hframes

end OrderFile
