import OrderFile.Proofs.Order.Printed
import OrderFile.Proofs.Reading.Joined
import OrderFile.Proofs.Reading.Values
import OrderFile.Proofs.Text.Encoded

/-!
Orders that are printed and read again. An order that was read is printed on a line that is read as
the same order, and since files may be put one after another, so is a whole list of orders:
`readBytes_printed`.
-/

set_option autoImplicit false

namespace OrderFile

open OrderFile.Tree (leaf node tokensOf)

/-- The same order on another line. -/
def Order.moved (line : UInt32) (order : Order) : Order :=
  ⟨line, order.errors.map fun c ↦ { c with line }, order.command⟩

/-- Orders one per line, without their line numbers. -/
def Order.printed (orders : List Order) : String :=
  String.join (orders.map fun order ↦ order.command.display ++ "\n")

/-! ### Complaints on another line -/

theorem Order.shift_moved (n line : UInt32) (order : Order) :
    (order.moved line).shift n = order.moved (line + n) := by
  rw [shift, moved, moved, List.map_map]
  rfl

/-- What is wrong with a command does not depend on its line. -/
theorem Order.moved_eq {order : Order} (h : order.errors = order.command.complaints order.line)
    (line : UInt32) : order.moved line = ⟨line, order.command.complaints line, order.command⟩ := by
  have hshift (m : UInt32) : order.command.complaints m =
      (order.command.complaints 0).map (Complaint.shift m) := by
    rw [← Command.complaints_shift, UInt32.zero_add]
  rw [moved, h, hshift order.line, hshift line, List.map_map]
  congr 1
  refine List.map_congr_left fun c hc ↦ ?_
  have hzero := Command.line_of_mem_complaints hc
  simp only [Function.comp_apply, Complaint.shift, hzero, UInt32.zero_add]

/-! ### Orders that were read -/

/-- Whether an order comes out of some file. -/
def Order.WasRead (order : Order) : Prop :=
  ∃ bytes options reading, readBytes bytes options = .ok reading ∧ order ∈ reading.orders

/-- An order that is known comes from a command that is written out in tokens of the text. -/
theorem exists_written_of_mem {parts : List Tree} {orders? : List (Option Order)} {order : Order}
    (h : List.Forall₂ Order.Part parts orders?) (hs : ∀ t ∈ tokensOf parts, t.Suited)
    (horder : some order ∈ orders?) (hknown : order.command.keyword?.isSome = true) :
    ∃ children, order.command.Written children ∧ ∀ t ∈ tokensOf children, t.Suited := by
  induction h with
  | nil => cases horder
  | cons hpart _ ih =>
    rw [Tree.tokensOf_cons] at hs
    obtain ⟨hown, hothers⟩ := List.forall_mem_append.mp hs
    rcases List.mem_cons.mp horder with rfl | hother
    · cases hpart with
      | command hk hwritten _ => exact ⟨_, hwritten, by simpa using hown⟩
      | unknown => cases hknown
    · exact ih hothers hother

/-- An order that was read from any file comes from a command that is written out. -/
theorem Order.WasRead.exists_written {order : Order} (h : order.WasRead)
    (hknown : order.command.keyword?.isSome = true) :
    order.errors = order.command.complaints order.line ∧
      ∃ children, order.command.Written children ∧ ∀ t ∈ tokensOf children, t.Suited := by
  obtain ⟨bytes, options, reading, hread, horder⟩ := h
  obtain ⟨parts, orders?, f, -, hparts, hsuited, horders⟩ := exists_suited_parts hread
  rw [horders, List.reduceOption_mem_iff] at horder
  exact ⟨errors_of_parts hparts horder, exists_written_of_mem hparts hsuited horder hknown⟩

/-- A command that can be printed is known, and starts no setup order. -/
theorem Command.known_of_isReprintable {command : Command} (h : command.isReprintable = true) :
    command.isUnknown = false ∧ command.startsSetup = false ∧
      ∃ k, command.keyword? = some k := by
  cases command with
  | unknown => cases h
  | _ => exact ⟨rfl, rfl, _, rfl⟩

/-! ### Printed lines -/

/-- The prepared tokens of a text of one line. -/
theorem Token.prepare_scan_line {line : List Char} (hline : '\n' ∉ line) :
    prepare (scan (line ++ ['\n'])) = words 1 line ++ [⟨1, .eol, "\n", .none⟩] ++ [eof 2] := by
  have hkept : (scan (line ++ ['\n'])).filter (!·.kind.isTrivia) =
      words 1 line ++ ⟨1, .eol, "\n", .none⟩ :: [eof 2] := by
    rw [scan, filter_scanFrom_line hline, scanFrom, words]
    rfl
  have hwords : ∀ t ∈ words 1 line, t.kind ≠ .eol := by
    intro t ht
    exact (lineTokens_spec hline t (List.mem_filter.mp ht).1).2.1
  rw [prepare_eq, hkept, collapseLinesFrom_line hwords rfl, List.append_assoc]
  rfl

/-- An order that was read is printed on one line, which is read as the same order. -/
theorem Order.exists_readText_line {order : Order} (h : order.WasRead)
    (hprints : order.command.isReprintable = true) (options : Options) :
    IsAscii order.command.display ∧
      ∃ reading, readText (order.command.display.toList ++ ['\n']) options = .ok reading ∧
        reading.orders = [order.moved 1] := by
  obtain ⟨hknown, -, k, hk⟩ := Command.known_of_isReprintable hprints
  obtain ⟨herrors, children, hwritten, hsuited⟩ := h.exists_written (by simp [hk])
  obtain ⟨hascii, part, hpart, htokens⟩ :=
    @Command.exists_part_of_printed 1 _ _ _ hwritten hsuited hk hprints ⟨1, .eol, "\n", .none⟩ rfl
  have hspelled : Spelled part.tokens [order.moved 1] := by
    refine ⟨[part], [some (order.moved 1)], .cons ?_ .nil, by simp, rfl⟩
    rw [moved_eq herrors]
    exact hpart
  have hscan := Token.prepare_scan_line hascii.not_mem_newline
  rw [← htokens] at hscan
  obtain ⟨reading, hread, horders, -⟩ :=
    readTokens_of_spelled hspelled rfl (List.forall_mem_singleton.mpr hknown) hscan options
  exact ⟨hascii, reading, hread, horders⟩

/-! ### Printed files -/

/-- Orders are printed one to a line. -/
theorem Order.toList_printed_cons (order : Order) (orders : List Order) :
    (printed (order :: orders)).toList =
      order.command.display.toList ++ ['\n'] ++ (printed orders).toList := by
  rw [printed, List.map_cons, String.join_cons, String.toList_append, String.toList_append]
  rfl

/-- Orders on lines of their own, and one more order before them. -/
theorem Order.mapIdx_moved_cons (order : Order) (orders : List Order) :
    (order :: orders).mapIdx (fun i order ↦ order.moved (UInt32.ofNat (i + 1))) =
      order.moved 1 ::
        (orders.mapIdx fun i order ↦ order.moved (UInt32.ofNat (i + 1))).map (shift 1) := by
  have hline (i : Nat) : UInt32.ofNat (i + 1) + 1 = UInt32.ofNat (i + 1 + 1) :=
    (UInt32.ofNat_add (i + 1) 1).symm
  rw [List.mapIdx_cons]
  refine congrArg (List.cons _) (List.ext_getElem (by simp) fun i _ _ ↦ ?_)
  rw [List.getElem_map, List.getElem_mapIdx, List.getElem_mapIdx, shift_moved, hline]

/-- Orders that were read are printed on lines that are read as the same orders. -/
theorem exists_readText_printed {orders : List Order}
    (h : ∀ order ∈ orders, order.WasRead ∧ order.command.isReprintable = true)
    (options : Options) :
    ∃ reading, readText (Order.printed orders).toList options = .ok reading ∧
      reading.orders = orders.mapIdx fun i order ↦ order.moved (UInt32.ofNat (i + 1)) := by
  induction orders with
  | nil => exact exists_readText_nil options
  | cons order orders ih =>
    obtain ⟨⟨hread, hprints⟩, hothers⟩ := List.forall_mem_cons.mp h
    obtain ⟨hascii, first, hfirst, horder⟩ := Order.exists_readText_line hread hprints options
    obtain ⟨second, hsecond, horders⟩ := ih hothers
    have hsetup : ∀ order ∈ first.orders, order.command.startsSetup = false := by
      rw [horder]
      exact List.forall_mem_singleton.mpr (Command.known_of_isReprintable hprints).2.1
    have hcount : order.command.display.toList.count '\n' = 0 :=
      List.count_eq_zero.mpr hascii.not_mem_newline
    obtain ⟨reading, hreading, hall⟩ :=
      (readText_line_append hfirst hsetup (Order.printed orders).toList).1 second hsecond
    refine ⟨reading, ?_, ?_⟩
    · rw [Order.toList_printed_cons, List.append_assoc]
      exact hreading
    · rw [hall, horder, horders, hcount, Order.mapIdx_moved_cons]
      rfl

/-- Orders that were read from any files are printed on lines of their own, and what is printed is
read to its end as the same orders in the same order. The first is on line 1, the next on line 2
and so on, and nothing else about them or about what is wrong with them changes. -/
theorem readBytes_printed {orders : List Order}
    (h : ∀ order ∈ orders, order.WasRead ∧ order.command.isReprintable = true)
    (emitTrace : Bool) :
    ∃ reading, readBytes (Order.printed orders).toUTF8.data.toList ⟨true, emitTrace⟩ =
        .ok reading ∧
      reading.orders = orders.mapIdx fun i order ↦ order.moved (UInt32.ofNat (i + 1)) := by
  rw [readBytes_eq, Utf8.decode_toUTF8]
  exact exists_readText_printed h ⟨true, emitTrace⟩

/-- Orders with an alias, quotes in a text, an orbit and a number that is out of range, on lines
that are not the first ones. -/
def aliasFile : List UInt8 :=
  ("; orders\n\nRETOOL 1 FG-02 su-3\nname 4 \"a \\\"b\\\"\"\n" ++
    "move 5 ( 6,-7 , 8, 9 )\nsurvey -9223372036854775808").toList.map (UInt8.ofNat ·.toNat)

theorem readBytes_printed_aliasFile :
    ∃ first second, readBytes aliasFile ⟨true, false⟩ = .ok first ∧
      first.orders.map (·.command.display) =
        ["retool 1 fg-2 structural-unit-3", "name 4 \"a \\\"b\\\"\"", "move 5 (6,-7,8,9)",
          "survey -9223372036854775808"] ∧
      readBytes (Order.printed first.orders).toUTF8.data.toList ⟨true, false⟩ = .ok second ∧
      second.orders = first.orders.mapIdx fun i order ↦ order.moved (UInt32.ofNat (i + 1)) := by
  have hcomputed : (readBytes aliasFile ⟨true, false⟩).toOption.map (fun first ↦
      (first.orders.map (·.command.display), first.orders.all (·.command.isReprintable))) =
      some (["retool 1 fg-2 structural-unit-3", "name 4 \"a \\\"b\\\"\"", "move 5 (6,-7,8,9)",
        "survey -9223372036854775808"], true) := by decide +kernel
  cases hread : readBytes aliasFile ⟨true, false⟩ with
  | error rejection =>
    rw [hread] at hcomputed
    cases hcomputed
  | ok first =>
    rw [hread] at hcomputed
    obtain ⟨hdisplay, hprints⟩ := Prod.mk.inj (Option.some.inj hcomputed)
    have hall : ∀ order ∈ first.orders, order.WasRead ∧ order.command.isReprintable = true :=
      fun order horder ↦
        ⟨⟨aliasFile, _, first, hread, horder⟩, List.all_eq_true.mp hprints order horder⟩
    obtain ⟨second, hsecond, horders⟩ := readBytes_printed hall false
    exact ⟨first, second, rfl, hdisplay, hsecond, horders⟩

end OrderFile
