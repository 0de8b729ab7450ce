import OrderFile.Proofs.Order.Shifted
import OrderFile.Proofs.Reading.Cleaned

/-!
One file after another. What is read of a file that ends its last line is the same whatever comes
after it, and what comes after it is read as if it stood alone, further down. The one order that
reaches over the end of its line is a setup order, so a file is read differently once more follows
only if reading went on past the first line of a setup order that is broken off.
-/

set_option autoImplicit false

namespace OrderFile

open OrderFile.Tree (leaf node tokensOf)

/-- Whether a command is a line that is no order but starts with the keyword of setup orders. -/
def Command.startsSetup : Command → Bool
  | unknown text => sameWord Keyword.setup.word (String.ofList (text.toList.takeWhile (· != ' ')))
  | _ => false

namespace Grammar

open Pattern

/-! ### Lines whatever follows -/

/-- The tokens of a line are skipped up to its end. -/
theorem skipFront?_of_line {line : List Token} {e : Token} (rest : List Token)
    (hline : ∀ t ∈ line, t.kind ≠ .eol ∧ t.kind ≠ .eof) (he : e.kind = .eol) :
    skipFront? (line ++ e :: rest) = some (line.map leaf, e :: rest) := by
  induction line with
  | nil => exact if_pos (by simp [he])
  | cons t line ih =>
    obtain ⟨ht, hothers⟩ := List.forall_mem_cons.mp hline
    rw [List.cons_append, skipFront?, if_neg (by simpa using ht), ih hothers]
    rfl

/-- Every order but a setup order is one line. -/
theorem line_of_fits {k : Keyword} (hk : k ≠ .setup) {trees : List Tree}
    (h : (command k).Fits trees) :
    ∃ line e, tokensOf trees = line ++ [e] ∧ (∀ t ∈ line, t.kind ≠ .eol) ∧ e.kind = .eol := by
  obtain ⟨_, hbody, rfl⟩ := h
  obtain ⟨w, back, rfl, hw, hoperands⟩ := fits_word_cons_iff.mp hbody
  obtain ⟨hlast, hinLine⟩ := operands_dropLast hk
  rw [hlast, fits_sequence_append_iff] at hoperands
  obtain ⟨front, end?, hfront, hend, rfl⟩ := hoperands
  obtain ⟨e, _, rfl, he, rfl⟩ := fits_kind_cons_iff.mp hend
  refine ⟨w :: tokensOf front, e, ?_, ?_, he⟩
  · simp
  · have hword : w.kind ≠ .eol := by simp [Token.kind_of_spells hw]
    exact List.forall_mem_cons.mpr ⟨hword, ne_eol_of_fits hinLine hfront⟩

/-- Token lists that start with the same line. -/
theorem line_inj {line other : List Token} {e f : Token} {rest others : List Token}
    (hline : ∀ t ∈ line, t.kind ≠ .eol) (he : e.kind = .eol)
    (hother : ∀ t ∈ other, t.kind ≠ .eol) (hf : f.kind = .eol)
    (h : line ++ e :: rest = other ++ f :: others) : line = other ∧ e = f := by
  induction line generalizing other with
  | nil =>
    cases other with
    | nil => exact ⟨rfl, (List.cons.inj h).1⟩
    | cons t other =>
      obtain rfl := (List.cons.inj h).1
      exact absurd he (hother e List.mem_cons_self)
  | cons t line ih =>
    cases other with
    | nil =>
      obtain rfl := (List.cons.inj h).1
      exact absurd hf (hline t List.mem_cons_self)
    | cons s other =>
      obtain ⟨rfl, hrest⟩ := List.cons.inj h
      obtain ⟨rfl, rfl⟩ := ih (List.forall_mem_cons.mp hline).2 (List.forall_mem_cons.mp hother).2
        hrest
      exact ⟨rfl, rfl⟩

/-- A line that is no order is none whatever follows, unless it starts like a setup order. -/
theorem orderFront?_of_line {line rest : List Token} {e : Token}
    (hline : ∀ t ∈ line, t.kind ≠ .eol) (he : e.kind = .eol)
    (hsetup : line.head?.bind Keyword.ofToken? ≠ some .setup)
    (h : orderFront? (line ++ e :: rest) = none) (others : List Token) :
    orderFront? (line ++ e :: others) = none := by
  by_contra hsome
  obtain ⟨⟨trees, after⟩, hfront⟩ := Option.ne_none_iff_exists'.mp hsome
  obtain ⟨k, children, hk, hcommand, rfl⟩ := orderFront?_eq_some hfront
  have hfits := fits_of_front? hcommand
  have hother : k ≠ .setup := by
    rintro rfl
    apply hsetup
    cases line with
    | nil =>
      have hnone : Keyword.ofToken? e = none := if_neg (by simp [he])
      simp [hnone] at hk
    | cons t line => exact hk
  obtain ⟨front, f, hchildren, hfrontLine, hf⟩ := line_of_fits hother hfits
  have hwhole := front?_append hcommand
  rw [hchildren, List.append_assoc, List.singleton_append] at hwhole
  obtain ⟨rfl, rfl⟩ := line_inj hline he hfrontLine hf hwhole
  have hread := orderFront?_of_fits hfits rest
  rw [hchildren, List.append_assoc, List.singleton_append, h] at hread
  cases hread

/-- Whether a tree is a line that is no order but starts with the keyword of setup orders. -/
def startsSetup (tree : Tree) : Prop :=
  tree.isRule "unknown" = true ∧ tree.tokens.head?.bind Keyword.ofToken? = some .setup

/-- Any line can be read as one that is no order. -/
theorem unknownFront?_of_line {line : List Token} {e : Token} (rest : List Token)
    (hline : ∀ t ∈ line, t.kind ≠ .eol ∧ t.kind ≠ .eof) (he : e.kind = .eol) :
    unknownFront? (line ++ e :: rest) =
      some ([node "unknown" (line.map leaf ++ [leaf e])], rest) := by
  have heol : eolFront? (e :: rest) = some ([leaf e], rest) := if_pos (beq_iff_eq.mpr he)
  rw [unknownFront?, andThen_of_eq_some (skipFront?_of_line rest hline he) heol]
  rfl

/-- What is read as a line is read as this line whatever follows. -/
theorem lineFront?_again {stop : Bool} {ts rest : List Token} {trees : List Tree}
    (h : lineFront? stop ts = some (trees, rest)) (hsetup : ∀ tree ∈ trees, ¬ startsSetup tree)
    (others : List Token) : lineFront? stop (tokensOf trees ++ others) = some (trees, others) := by
  rw [lineFront?, Option.or_eq_some_iff, Option.or_eq_some_iff] at h
  rcases h with horder | ⟨hnone, heol | ⟨hnoEol, hunknown⟩⟩
  · obtain ⟨k, children, -, hcommand, rfl⟩ := orderFront?_eq_some horder
    have hfits := fits_linePattern_iff.mpr (.inl ⟨k, children, fits_of_front? hcommand, rfl⟩)
    rw [Tree.tokensOf_cons, Tree.tokensOf_nil, List.append_nil]
    exact lineFront?_of_fits hfits others
  · obtain ⟨e, he, rfl, -⟩ := eolFront?_eq_some heol
    rw [Tree.tokensOf_cons, Tree.tokensOf_nil, List.append_nil]
    exact lineFront?_of_fits (fits_linePattern_iff.mpr (.inr ⟨e, he, rfl⟩)) others
  · obtain ⟨hrecovers, hunknown⟩ := Option.ite_none_left_eq_some.mp hunknown
    obtain ⟨skipped, e, hskip, he, rfl⟩ := unknownFront?_eq_some hunknown
    have hts := skipFront?_append hskip
    obtain ⟨line, rfl, hline⟩ := skipFront?_eq_some hskip
    have htokens : tokensOf [node "unknown" (line.map leaf ++ [leaf e])] = line ++ [e] := by
      simp [tokensOf_map_leaf]
    rw [tokensOf_map_leaf] at hts
    rw [hts] at hnone hnoEol
    have hstart : line.head?.bind Keyword.ofToken? ≠ some .setup := by
      intro hkeyword
      refine hsetup _ List.mem_cons_self ⟨rfl, ?_⟩
      rw [← List.append_nil (Tree.tokens _), ← Tree.tokensOf_nil, ← Tree.tokensOf_cons, htokens]
      cases line with
      | nil => cases hkeyword
      | cons t line => exact hkeyword
    have hnoOrder := orderFront?_of_line (fun t ht ↦ (hline t ht).1) he hstart hnone others
    have hnoEnd : eolFront? (line ++ e :: others) = none := by
      cases line with
      | nil => simp [eolFront?, frontToken?, he] at hnoEol
      | cons t line => exact if_neg (by simpa using (hline t List.mem_cons_self).1)
    rw [htokens, List.append_assoc, List.singleton_append, lineFront?, hnoOrder, hnoEnd,
      if_neg hrecovers, unknownFront?_of_line others hline he]
    rfl

/-- What is read as lines is read as these lines whatever follows. -/
theorem linesFront?_again {stop : Bool} {ts rest : List Token} {trees : List Tree}
    (h : linesFront? stop ts = some (trees, rest)) (hsetup : ∀ tree ∈ trees, ¬ startsSetup tree)
    (others : List Token) :
    linesFront? stop (tokensOf trees ++ others) =
      andThen (some (trees, others)) (linesFront? stop) := by
  by_cases heof : ts.head?.any (·.kind == .eof) = true
  · rw [linesFront?_of_eof heof] at h
    obtain ⟨rfl, -⟩ := Prod.mk.inj (Option.some.inj h)
    simp [andThen]
  · rw [linesFront?_of_not_eof heof] at h
    obtain ⟨first, middle, more, hline, hmore, rfl⟩ := andThen_eq_some h
    have hshorter := lineFront?_length_lt hline
    obtain ⟨hfirst, hlater⟩ := List.forall_mem_append.mp hsetup
    have hagain := lineFront?_again hline hfirst (tokensOf more ++ others)
    have hstart : ¬ (tokensOf first ++ (tokensOf more ++ others)).head?.any (·.kind == .eof) =
        true := by
      rw [lineFront?_append hline] at heof
      cases htokens : tokensOf first with
      | nil => exact absurd htokens (lineFront?_ne_nil hline)
      | cons t ts =>
        rw [htokens] at heof
        exact heof
    rw [Tree.tokensOf_append, List.append_assoc, linesFront?_of_not_eof hstart, hagain]
    simp only [andThen, Option.bind_some, linesFront?_again hmore hlater, Option.map_map]
    refine congrArg (Option.map · _) (funext fun _ ↦ ?_)
    simp
termination_by ts.length

end Grammar

/-! ### Readings as lines -/

/-- A word that spells a keyword has no space in it. -/
theorem Keyword.not_mem_of_sameWord {k : Keyword} {word : String}
    (h : sameWord k.word word = true) : ' ' ∉ word.toList := by
  intro hspace
  have hmem : ' ' ∈ (lowercase word).toList := by
    rw [lowercase, String.toList_ofList]
    exact List.mem_map_of_mem (f := Char.toLower) hspace
  rw [← sameWord_iff.mp h] at hmem
  cases k <;> revert hmem <;> decide

/-- What the first word of a line spells is what the text of the line starts with. -/
theorem takeWhile_intercalate {word : String} (h : ' ' ∉ word.toList) (words : List String) :
    String.ofList ((String.intercalate " " (word :: words)).toList.takeWhile (· != ' ')) = word := by
  have hword : ∀ c ∈ word.toList, (c != ' ') = true := by
    intro c hc
    refine bne_iff_ne.mpr ?_
    rintro rfl
    exact h hc
  have hrest : ∀ rest : List Char, rest.head?.all (· == ' ') = true →
      (word.toList ++ rest).takeWhile (· != ' ') = word.toList := by
    intro rest hrest
    rw [List.takeWhile_append_of_pos hword]
    cases rest with
    | nil => simp
    | cons c rest => simp_all
  cases words with
  | nil => rw [String.intercalate_singleton, ← List.append_nil word.toList, hrest [] rfl,
      String.ofList_toList]
  | cons other words =>
    rw [String.intercalate_cons_cons, String.toList_append, String.toList_append,
      List.append_assoc, hrest _ rfl, String.ofList_toList]

/-- A part whose order does not start with the word for setup starts no setup order. -/
theorem Grammar.startsSetup_of_part {part : Tree} {order : Order}
    (h : Order.Part part (some order)) (hsetup : order.command.startsSetup = false) :
    ¬ startsSetup part := by
  rintro ⟨hunknown, hkeyword⟩
  cases h with
  | command => cases hunknown
  | @unknown t e ts hts he =>
    have hsame := Keyword.sameWord_of_ofToken? (t := t) hkeyword
    rw [Command.startsSetup, List.map_cons,
      takeWhile_intercalate (Keyword.not_mem_of_sameWord hsame), hsame] at hsetup
    cases hsetup

namespace Order

/-- A text is read exactly if its lines are, and its orders are those that the lines come to. -/
theorem exists_reading_iff {text : List Char} {options : Options} {orders : List Order} :
    (∃ reading, readText text options = .ok reading ∧ reading.orders = orders) ↔
      ∃ parts orders? f, Grammar.linesFront? options.stopOnFirstError
          (Token.prepare (Token.scan text)) = some (parts, [f]) ∧ f.kind = .eof ∧
        List.Forall₂ Part parts orders? ∧ orders?.reduceOption = orders := by
  constructor
  · rintro ⟨reading, hread, rfl⟩
    obtain ⟨htree, hall, -⟩ := readTokens_eq_ok_iff.mp hread
    obtain ⟨parts, f, rest, hlines, hf, heq⟩ := Grammar.linesFront?_of_fileTree? htree
    obtain ⟨orders?, hparts⟩ := Grammar.parts_of_linesFront? hlines
    have hended := Token.prepare_scan_ended text
    rw [Grammar.linesFront?_append hlines] at hended
    obtain rfl := hended.eq_nil_of_eof hf
    rw [heq, allOfTree_of_parts hparts hf] at hall
    exact ⟨parts, orders?, f, hlines, hf, hparts, (Prod.mk.inj hall).1⟩
  · rintro ⟨parts, orders?, f, hlines, hf, hparts, rfl⟩
    have htree := Grammar.fileTree?_of_linesFront? hlines hf
    exact ⟨⟨_, _, _, _⟩, readTokens_eq_ok_iff.mpr ⟨htree, allOfTree_of_parts hparts hf, rfl⟩, rfl⟩

/-- The same for the text after the end of a line. -/
theorem exists_reading_iff_prepareNext {text : List Char} {options : Options}
    {orders : List Order} :
    (∃ reading, readText text options = .ok reading ∧ reading.orders = orders) ↔
      ∃ parts orders? f, Grammar.linesFront? options.stopOnFirstError (Token.prepareNext text) =
          some (parts, [f]) ∧ f.kind = .eof ∧
        List.Forall₂ Part parts orders? ∧ orders?.reduceOption = orders := by
  rw [exists_reading_iff]
  rcases Token.prepare_eq_prepareNext text with hsame | ⟨e, he, hcons⟩
  · rw [hsame]
  · have hblank : Grammar.linesFront? options.stopOnFirstError (Token.prepare (Token.scan text)) =
        Grammar.Pattern.andThen (some ([leaf e], Token.prepareNext text))
          (Grammar.linesFront? options.stopOnFirstError) := by
      rw [hcons, Grammar.linesFront?_of_not_eof (by simp [he])]
      refine congrArg (Grammar.Pattern.andThen · _) ?_
      exact Grammar.lineFront?_of_fits (Grammar.fits_linePattern_iff.mpr (.inr ⟨e, he, rfl⟩)) _
    rw [hblank]
    constructor
    · rintro ⟨parts, orders?, f, hlines, hf, hparts, horders⟩
      obtain ⟨first, middle, others, hfirst, hothers, rfl⟩ := Grammar.Pattern.andThen_eq_some hlines
      obtain ⟨rfl, rfl⟩ := Prod.mk.inj (Option.some.inj hfirst)
      cases hparts with
      | cons hpart hparts =>
        cases hpart with
        | blank => exact ⟨others, _, f, hothers, hf, hparts, horders⟩
    · rintro ⟨parts, orders?, f, hlines, hf, hparts, horders⟩
      exact ⟨leaf e :: parts, none :: orders?, f, Grammar.Pattern.andThen_of_eq_some rfl hlines, hf,
        .cons (.blank he) hparts, horders⟩

theorem not_startsSetup_of_parts {parts : List Tree} {orders? : List (Option Order)}
    (h : List.Forall₂ Part parts orders?)
    (hsetup : ∀ order ∈ orders?.reduceOption, order.command.startsSetup = false) :
    ∀ part ∈ parts, ¬ Grammar.startsSetup part := by
  induction h with
  | nil => simp
  | @cons part order? parts orders? hpart _ ih =>
    cases order? with
    | none =>
      rw [List.reduceOption_cons_of_none] at hsetup
      refine List.forall_mem_cons.mpr ⟨?_, ih hsetup⟩
      rintro ⟨hunknown, -⟩
      cases hpart
      cases hunknown
    | some order =>
      rw [List.reduceOption_cons_of_some] at hsetup
      obtain ⟨hown, hothers⟩ := List.forall_mem_cons.mp hsetup
      exact List.forall_mem_cons.mpr ⟨Grammar.startsSetup_of_part hpart hown, ih hothers⟩

end Order

/-- The lines of a text with another one after it are its own lines and those of the other one. -/
theorem exists_linesFront?_append {front : List Char} {options : Options} {first : Reading}
    (hfirst : readText (front ++ ['\n']) options = .ok first)
    (hsetup : ∀ order ∈ first.orders, order.command.startsSetup = false) :
    ∃ parts orders?, List.Forall₂ Order.Part parts orders? ∧ orders?.reduceOption = first.orders ∧
      ∀ back, Grammar.linesFront? options.stopOnFirstError
          (Token.prepare (Token.scan (front ++ '\n' :: back))) =
        Grammar.Pattern.andThen
          (some (parts, (Token.prepareNext back).map
            (Token.shift (UInt32.ofNat (front.count '\n' + 1)))))
          (Grammar.linesFront? options.stopOnFirstError) := by
  obtain ⟨ts, hts⟩ := Token.prepare_scan_append front
  obtain ⟨parts, orders?, f, hlines, hf, hparts, horders⟩ :=
    Order.exists_reading_iff.mp ⟨first, hfirst, rfl⟩
  have hnone : Token.prepareNext [] = [Token.eof 1] := by
    simp [Token.prepareNext, Token.scan, Token.scanFrom, Token.collapseLinesFrom, Token.eof,
      Token.impliedEol, Token.Kind.isTrivia]
  have hsame := Grammar.linesFront?_append hlines
  rw [hts, hnone] at hsame
  obtain ⟨rfl, -⟩ := List.append_inj' hsame rfl
  have hkept := Order.not_startsSetup_of_parts hparts (by rwa [horders])
  refine ⟨parts, orders?, hparts, horders, fun back ↦ ?_⟩
  rw [hts]
  exact Grammar.linesFront?_again hlines hkept _

/-- A text after the lines of another one is read exactly if it is read alone, and its orders are
the same but further down. -/
theorem readText_line_append {front : List Char} {options : Options} {first : Reading}
    (hfirst : readText (front ++ ['\n']) options = .ok first)
    (hsetup : ∀ order ∈ first.orders, order.command.startsSetup = false) (back : List Char) :
    (∀ second, readText back options = .ok second →
        ∃ reading, readText (front ++ '\n' :: back) options = .ok reading ∧
          reading.orders = first.orders ++
            second.orders.map (Order.shift (UInt32.ofNat (front.count '\n' + 1)))) ∧
      ∀ reading, readText (front ++ '\n' :: back) options = .ok reading →
        ∃ second, readText back options = .ok second := by
  obtain ⟨parts, orders?, hparts, horders, hlines⟩ := exists_linesFront?_append hfirst hsetup
  constructor
  · intro second hsecond
    obtain ⟨others, others?, f, hothers, hf, hmore, hsame⟩ :=
      Order.exists_reading_iff_prepareNext.mp ⟨second, hsecond, rfl⟩
    have hwhole := hlines back
    generalize UInt32.ofNat (front.count '\n' + 1) = n at hwhole ⊢
    have hshifted := @Grammar.linesFront?_shift n options.stopOnFirstError (Token.prepareNext back)
    rw [hothers] at hshifted
    have hpartsShift := Order.parts_shift (n := n) hmore
    refine Order.exists_reading_iff.mpr ⟨_, _, f.shift n, ?_, hf,
      List.rel_append hparts hpartsShift, ?_⟩
    · rw [hwhole]
      exact Grammar.Pattern.andThen_of_eq_some rfl hshifted
    · rw [List.reduceOption_append, List.reduceOption_map, horders, hsame]
  · intro reading hreading
    obtain ⟨trees, whole?, f, hwhole, hf, -, -⟩ :=
      Order.exists_reading_iff.mp ⟨reading, hreading, rfl⟩
    rw [hlines] at hwhole
    obtain ⟨_, middle, more, hpair, hmore, -⟩ := Grammar.Pattern.andThen_eq_some hwhole
    obtain ⟨-, rfl⟩ := Prod.mk.inj (Option.some.inj hpair)
    rw [Grammar.linesFront?_shift, Option.map_eq_some_iff] at hmore
    obtain ⟨⟨others, rest⟩, hothers, hrest⟩ := hmore
    obtain ⟨g, rfl, rfl⟩ := List.map_eq_singleton_iff.mp (Prod.mk.inj hrest).2
    obtain ⟨others?, hparts'⟩ := Grammar.parts_of_linesFront? hothers
    obtain ⟨second, hsecond, -⟩ := Order.exists_reading_iff_prepareNext.mpr
      ⟨others, others?, g, hothers, hf, hparts', rfl⟩
    exact ⟨second, hsecond⟩

/-- A text of no lines has no orders. -/
theorem exists_readText_nil (options : Options) :
    ∃ reading, readText [] options = .ok reading ∧ reading.orders = [] := by
  have hblank := Order.spelled_blank (e := Token.impliedEol 1) rfl false
  have htokens : Token.prepare (Token.scan []) =
      Token.collapseLinesFrom false [Token.impliedEol 1] ++ [Token.eof 1] := by
    simp [Token.prepare, Token.withoutSpaces, Token.withoutComments, Token.collapseLines,
      Token.collapseLinesFrom, Token.scan, Token.scanFrom, Token.impliedEol, Token.eof]
  obtain ⟨reading, hread, horders, -⟩ :=
    Order.readTokens_of_spelled hblank (f := Token.eof 1) rfl (by simp) htokens options
  exact ⟨reading, hread, horders⟩

theorem Order.shift_zero (order : Order) : order.shift 0 = order := by
  have hcomplaint : Complaint.shift 0 = id := by
    funext c
    rw [Complaint.shift, UInt32.add_zero]
    rfl
  rw [shift, hcomplaint, List.map_id, UInt32.add_zero]

/-- The same for a text that may have no lines. -/
theorem readText_append {a : List Char} (ha : a = [] ∨ a.getLast? = some '\n') {options : Options}
    {first : Reading} (hfirst : readText a options = .ok first)
    (hsetup : ∀ order ∈ first.orders, order.command.startsSetup = false) (b : List Char) :
    (∀ second, readText b options = .ok second →
        ∃ reading, readText (a ++ b) options = .ok reading ∧ reading.orders = first.orders ++
          second.orders.map (Order.shift (UInt32.ofNat (a.count '\n')))) ∧
      ∀ reading, readText (a ++ b) options = .ok reading →
        ∃ second, readText b options = .ok second := by
  rcases ha with rfl | hlast
  · obtain ⟨reading, hread, horders⟩ := exists_readText_nil options
    obtain rfl : reading = first := Except.ok.inj (hread.symm.trans hfirst)
    have hzero : Order.shift (UInt32.ofNat (List.count '\n' [])) = id := funext Order.shift_zero
    refine ⟨fun second hsecond ↦ ⟨second, hsecond, ?_⟩, fun reading hreading ↦ ⟨reading, hreading⟩⟩
    rw [horders, hzero, List.map_id, List.nil_append]
  · obtain ⟨front, rfl⟩ := List.getLast?_eq_some_iff.mp hlast
    have hcount : (front ++ ['\n']).count '\n' = front.count '\n' + 1 := by simp
    rw [List.append_assoc, List.singleton_append, hcount]
    exact readText_line_append hfirst hsetup b

/-! ### Lines that are moved down -/

/-- A command is complained about on its own line. -/
theorem Command.line_of_mem_complaints {line : UInt32} {command : Command} {c : Complaint}
    (h : c ∈ command.complaints line) : c.line = line := by
  have hbounds {bounds : List Bound} (hmem : c ∈ Bound.complaints line bounds) :
      c.line = line := by
    obtain ⟨b, -, -, rfl⟩ := Bound.exists_of_mem_complaints hmem
    rfl
  rcases List.mem_append.mp h with hmem | hmem
  · exact hbounds hmem
  · cases command with
    | pay id profession rate =>
      rw [rateComplaints] at hmem
      split at hmem
      · exact hbounds hmem
      · cases hmem
    | _ => cases hmem

namespace Order

/-- An order is on the line of one of its tokens. -/
theorem exists_line_of_part {part : Tree} {order : Order} (h : Part part (some order)) :
    ∃ t ∈ part.tokens, t.line = order.line := by
  cases h with
  | @command k w => exact ⟨w, by simp, rfl⟩
  | @unknown t => exact ⟨t, by simp [Grammar.tokensOf_map_leaf], rfl⟩

/-- Every order stands on the line of one of its tokens. -/
theorem exists_line_of_parts {parts : List Tree} {orders? : List (Option Order)} {order : Order}
    (h : List.Forall₂ Part parts orders?) (horder : some order ∈ orders?) :
    ∃ t ∈ tokensOf parts, t.line = order.line := by
  induction h with
  | nil => cases horder
  | cons hpart _ ih =>
    rw [Tree.tokensOf_cons]
    rcases List.mem_cons.mp horder with rfl | hother
    · obtain ⟨t, ht, hline⟩ := exists_line_of_part hpart
      exact ⟨t, List.mem_append_left _ ht, hline⟩
    · obtain ⟨t, ht, hline⟩ := ih hother
      exact ⟨t, List.mem_append_right _ ht, hline⟩

/-- An order is on one of the lines of its text, and so is all that is wrong with it. -/
theorem line_of_reading {text : List Char} {options : Options} {reading : Reading}
    (h : readText text options = .ok reading) {order : Order} (horder : order ∈ reading.orders) :
    (∃ k ≤ text.count '\n', order.line = 1 + UInt32.ofNat k) ∧
      ∀ c ∈ order.errors, c.line = order.line := by
  obtain ⟨parts, orders?, f, hlines, -, hparts, hsame⟩ := exists_reading_iff.mp ⟨reading, h, rfl⟩
  rw [← hsame, List.reduceOption_mem_iff] at horder
  constructor
  · obtain ⟨t, ht, hline⟩ := exists_line_of_parts hparts horder
    have hmem : t ∈ Token.prepare (Token.scan text) := by
      rw [Grammar.linesFront?_append hlines]
      exact List.mem_append_left _ ht
    rw [← hline]
    exact Token.line_of_mem_scanFrom (Token.mem_of_mem_prepare hmem)
  · intro c hc
    rw [errors_of_parts hparts horder] at hc
    exact Command.line_of_mem_complaints hc

/-- Where line numbers do not run out, the lines of orders that are moved down are further down. -/
theorem toNat_line_shift {text : List Char} {options : Options} {reading : Reading} {n : Nat}
    (h : readText text options = .ok reading) (hn : n + text.count '\n' < 2 ^ 32 - 1)
    {order : Order} (horder : order ∈ reading.orders) :
    (order.shift (UInt32.ofNat n)).line.toNat = order.line.toNat + n ∧
      (order.shift (UInt32.ofNat n)).errors.map (·.line.toNat) =
        order.errors.map (·.line.toNat + n) := by
  obtain ⟨⟨k, hk, hline⟩, herrors⟩ := line_of_reading h horder
  have hsum : (order.line + UInt32.ofNat n).toNat = order.line.toNat + n := by
    rw [hline]
    simp [UInt32.toNat_add]
    omega
  refine ⟨hsum, ?_⟩
  rw [shift, List.map_map]
  refine List.map_congr_left fun c hc ↦ ?_
  have hsame := herrors c hc
  rw [← hsame] at hsum
  exact hsum

end Order

/-! ### Files after files -/

/-- Reading that stops at the first unknown line keeps none, so none that starts a setup order. -/
theorem not_startsSetup_of_stopping {text : List Char} {emitTrace : Bool} {reading : Reading}
    (h : readText text ⟨true, emitTrace⟩ = .ok reading) :
    ∀ order ∈ reading.orders, order.command.startsSetup = false := by
  obtain ⟨htree, -⟩ := readTokens_eq_ok_iff.mp h
  intro order horder
  have hknown := ((Order.fileTree?_true_iff_of_reading h).mp htree).2 order horder
  obtain ⟨line, errors, command⟩ := order
  cases command with
  | unknown => cases hknown
  | _ => rfl

/-- Reading that keeps unknown lines rejects no text. -/
theorem exists_recovered (text : List Char) (emitTrace : Bool) :
    ∃ reading, readText text ⟨false, emitTrace⟩ = .ok reading := by
  obtain ⟨tree, htree⟩ := Grammar.fileTree?_of_ended (Token.prepare_scan_ended text)
  obtain ⟨reading, hreading⟩ := @exists_readTokens_of_fileTree? _ ⟨false, emitTrace⟩ _ htree
  exact ⟨reading, hreading⟩

/-- Bytes are read as the text that they are. -/
theorem readBytes_eq (bytes : List UInt8) (options : Options) :
    readBytes bytes options = readText (Utf8.decode bytes) options := rfl

/-- If a file ends its last line, a file after it is read as if it stood alone. Reading that stops at
the first line that is no order accepts both together exactly if it accepts both. The other reading
finds the orders of the first file and those of the second, unless a line of the first file starts
like a setup order and is none. -/
theorem readBytes_append {a : List UInt8} (ha : a = [] ∨ a.getLast? = some 0x0A) (b : List UInt8)
    (emitTrace : Bool) :
    (∀ first, readBytes a ⟨true, emitTrace⟩ = .ok first →
        ((∃ reading, readBytes (a ++ b) ⟨true, emitTrace⟩ = .ok reading) ↔
            ∃ second, readBytes b ⟨true, emitTrace⟩ = .ok second) ∧
          ∀ second reading, readBytes b ⟨true, emitTrace⟩ = .ok second →
            readBytes (a ++ b) ⟨true, emitTrace⟩ = .ok reading →
            reading.orders = first.orders ++
              second.orders.map (Order.shift (UInt32.ofNat (a.count 0x0A)))) ∧
      (∃ first second reading, readBytes a ⟨false, emitTrace⟩ = .ok first ∧
        readBytes b ⟨false, emitTrace⟩ = .ok second ∧
        readBytes (a ++ b) ⟨false, emitTrace⟩ = .ok reading ∧
        ((∀ order ∈ first.orders, order.command.startsSetup = false) →
          reading.orders = first.orders ++
            second.orders.map (Order.shift (UInt32.ofNat (a.count 0x0A))))) ∧
      ((a ++ b).count 0x0A < 2 ^ 32 - 1 → ∀ options second, readBytes b options = .ok second →
        ∀ order ∈ second.orders,
          (order.shift (UInt32.ofNat (a.count 0x0A))).line.toNat =
              order.line.toNat + a.count 0x0A ∧
            (order.shift (UInt32.ofNat (a.count 0x0A))).errors.map (·.line.toNat) =
              order.errors.map (·.line.toNat + a.count 0x0A)) := by
  obtain ⟨hlast, hdecode⟩ := Utf8.decode_append ha
  simp only [readBytes_eq, hdecode, List.count_append, ← Utf8.count_newline_decode]
  -- Bytes are decoded line by line, so the three parts are statements on texts.
  refine ⟨?_, ?_, ?_⟩
  · intro first hfirst
    have hsetup := not_startsSetup_of_stopping hfirst
    obtain ⟨hboth, hsecond⟩ := readText_append hlast hfirst hsetup (Utf8.decode b)
    refine ⟨⟨?_, ?_⟩, ?_⟩
    · rintro ⟨reading, hreading⟩
      exact hsecond reading hreading
    · rintro ⟨second, h⟩
      obtain ⟨reading, hreading, -⟩ := hboth second h
      exact ⟨reading, hreading⟩
    · intro second reading h hreading
      obtain ⟨other, hother, horders⟩ := hboth second h
      obtain rfl := Except.ok.inj (hother.symm.trans hreading)
      exact horders
  · obtain ⟨first, hfirst⟩ := exists_recovered (Utf8.decode a) emitTrace
    obtain ⟨second, hsecond⟩ := exists_recovered (Utf8.decode b) emitTrace
    obtain ⟨reading, hreading⟩ :=
      exists_recovered (Utf8.decode a ++ Utf8.decode b) emitTrace
    refine ⟨first, second, reading, hfirst, hsecond, hreading, fun hsetup ↦ ?_⟩
    obtain ⟨other, hother, horders⟩ :=
      (readText_append hlast hfirst hsetup (Utf8.decode b)).1 second hsecond
    obtain rfl := Except.ok.inj (hother.symm.trans hreading)
    exact horders
  · intro hcount options second hsecond order horder
    exact Order.toNat_line_shift hsecond hcount horder

/-- Two orders, the second one a setup order with an item. -/
def fleetFile : List UInt8 :=
  "survey -1\n\nsetup 2 (3,4,5) ship transfer\n6 fuel\nend\n".toList.map (UInt8.ofNat ·.toNat)

/-- A line that is no order. -/
def strayFile : List UInt8 :=
  "oops\n".toList.map (UInt8.ofNat ·.toNat)

/-- An order after an empty line, on a line without an end. -/
def probeFile : List UInt8 :=
  "\nprobe -7 11".toList.map (UInt8.ofNat ·.toNat)

theorem readBytes_append_fleetFile :
    (∃ first second reading, readBytes fleetFile ⟨true, false⟩ = .ok first ∧
        readBytes probeFile ⟨true, false⟩ = .ok second ∧
        readBytes (fleetFile ++ probeFile) ⟨true, false⟩ = .ok reading ∧
        reading.orders = first.orders ++ second.orders.map (Order.shift 5)) ∧
      ∃ first second reading, readBytes strayFile ⟨false, false⟩ = .ok first ∧
        readBytes probeFile ⟨false, false⟩ = .ok second ∧
        readBytes (strayFile ++ probeFile) ⟨false, false⟩ = .ok reading ∧
        reading.orders = first.orders ++ second.orders.map (Order.shift 1) := by
  constructor
  · have hfirst : (readBytes fleetFile ⟨true, false⟩).isOk = true := by decide +kernel
    have hsecond : (readBytes probeFile ⟨true, false⟩).isOk = true := by decide +kernel
    obtain ⟨hstopping, -⟩ := @readBytes_append fleetFile (.inr (by decide)) probeFile false
    cases hread : readBytes fleetFile ⟨true, false⟩ with
    | error rejection => rw [hread] at hfirst; cases hfirst
    | ok first =>
      cases hread' : readBytes probeFile ⟨true, false⟩ with
      | error rejection => rw [hread'] at hsecond; cases hsecond
      | ok second =>
        obtain ⟨hboth, horders⟩ := hstopping first hread
        obtain ⟨reading, hreading⟩ := hboth.mpr ⟨second, hread'⟩
        exact ⟨first, second, reading, rfl, rfl, hreading, horders second reading hread' hreading⟩
  · have hkept : (readBytes strayFile ⟨false, false⟩).toOption.map
        (·.orders.all (!·.command.startsSetup)) = some true := by decide +kernel
    obtain ⟨-, ⟨first, second, reading, hread, hread', hreading, horders⟩, -⟩ :=
      @readBytes_append strayFile (.inr (by decide)) probeFile false
    refine ⟨first, second, reading, hread, hread', hreading, horders ?_⟩
    rw [hread] at hkept
    simpa using Option.some.inj hkept

end OrderFile
