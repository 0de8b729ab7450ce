import OrderFile.Proofs.Grammar.Orbit
import OrderFile.Proofs.Reading.Rejected

/-!
Which rule a rejection names. It names the rule of the keyword that the rejected line starts with,
for the token that this rule has missed, unless the order fails at the number of an orbit that is
out of range: then it names no rule but the root and says that the line should have been empty
(`readText_blames`).
-/

set_option autoImplicit false

namespace OrderFile

open OrderFile.Tree (node tokensOf)

namespace Grammar

/-- All that comes before the number of an orbit is in one line. -/
theorem ne_eol_of_beforeOrbit {k : Keyword} {kinds : List Token.Kind} {front : List Token}
    (hkinds : beforePlace? k = some kinds) (hfront : front.map (·.kind) = kinds ++ beforeOrbit) :
    ∀ t ∈ front, t.kind ≠ .eol := by
  intro t ht heol
  have hmem : Token.Kind.eol ∈ kinds ++ beforeOrbit := by
    rw [← hfront, ← heol]
    exact List.mem_map_of_mem ht
  cases k <;> cases hkinds <;> exact absurd hmem (by decide)

/-- Whether an order comes to an orbit out of range is settled in its first line. -/
theorem orbitOutOfRange_append {k : Keyword} {front back : List Token} {e : Token}
    (he : e.kind = .eol) :
    OrbitOutOfRange k (front ++ [e] ++ back) ↔ OrbitOutOfRange k (front ++ [e]) := by
  constructor
  · rintro ⟨kinds, before, orbit, rest, hkinds, hts, hbefore, horbit, hrange⟩
    have hplace : before ++ [orbit] <+: front ++ [e] ++ back :=
      ⟨rest, by rw [hts, List.append_assoc, List.singleton_append]⟩
    rcases List.prefix_or_prefix_of_prefix hplace (List.prefix_append (front ++ [e]) back) with
      hwithin | hbeyond
    · obtain ⟨others, hline⟩ := hwithin
      rw [List.append_assoc, List.singleton_append] at hline
      exact ⟨kinds, before, orbit, others, hkinds, hline.symm, hbefore, horbit, hrange⟩
    · -- The line would end before the orbit.
      have hmem : e ∈ before ++ [orbit] :=
        hbeyond.subset (List.mem_append_right front (List.mem_singleton_self e))
      rcases List.mem_append.mp hmem with hfront | hlast
      · exact absurd he (ne_eol_of_beforeOrbit hkinds hbefore e hfront)
      · rw [List.mem_singleton.mp hlast, horbit] at he
        cases he
  · rintro ⟨kinds, before, orbit, rest, hkinds, hts, h⟩
    refine ⟨kinds, before, orbit, rest ++ back, hkinds, ?_, h⟩
    rw [hts, List.append_assoc, List.cons_append]

end Grammar

/-! ### Rejections -/

/-- When a text is rejected, the rules that were open at the fault are told. If the rejected line
starts with a keyword, the rule of that keyword is among them exactly if the order does not come to
an orbit that is out of range, and then the fault is in it. For such an orbit, no token of the order
is told of at all, only the keyword, where an empty line would have been accepted. -/
theorem readText_blames {text : List Char} {emitTrace : Bool} {rejection : Rejection}
    (h : readText text ⟨true, emitTrace⟩ = .error rejection) :
    ∃ reading before line after context,
      readText text ⟨false, emitTrace⟩ = .ok reading ∧
      reading.tree = node "orders" (before ++ line :: after) ∧
      (∀ part ∈ before, part.isRule "unknown" = false) ∧ line.isRule "unknown" = true ∧
      rejection.fault.context = some context ∧
      ∀ t k, line.tokens.head? = some t → Keyword.ofToken? t = some k →
        (k.word ∈ context.stack ↔ ¬ Grammar.OrbitOutOfRange k line.tokens) ∧
        (¬ Grammar.OrbitOutOfRange k line.tokens →
          [k.word, "order", "orders"] <:+ context.stack) ∧
        (Grammar.OrbitOutOfRange k line.tokens →
          rejection.fault = ⟨.unexpected t.line t.display "expected EOL",
            some { line := some t.line.toNat, stack := ["orders"] }⟩) := by
  obtain ⟨reading, before, line, after, here, miss, hreading, htree, hbefore, hline, hts, hprefix,
    hblame, hfault, -⟩ := exists_blame h
  refine ⟨reading, before, line, after, _, hreading, htree, hbefore, hline, by rw [hfault]; rfl, ?_⟩
  intro t k ht hk
  obtain ⟨-, order, -, -, hpart, -⟩ := Order.around_unknown hreading htree hline
  obtain ⟨first, front, e, htokens, -, he, -⟩ := Order.tokens_of_unknown hpart hline
  obtain ⟨back, rfl⟩ := hprefix
  have hhead : (line.tokens ++ back).head? = some t := by
    rw [List.head?_append, ht]
    rfl
  have hkeyword : (line.tokens ++ back).head?.bind Keyword.ofToken? = some k := by
    rw [hhead, Option.bind_some, hk]
  have horbit := Grammar.quiet_header_iff hkeyword
  rw [htokens, Grammar.orbitOutOfRange_append he, ← htokens] at horbit
  cases hblame with
  -- Nothing was missed in the order, so the line end that could have been at its keyword is told
  -- of.
  | lineEnd hquiet =>
    have hout := horbit.mp (hquiet k hkeyword)
    have hother : k.word ∉ ["orders"] := by
      cases k <;> decide
    refine ⟨iff_of_false hother (not_not.mpr hout), fun h ↦ absurd hout h, fun _ ↦ ?_⟩
    have hfound : (tokensOf before ++ (line.tokens ++ back))[(tokensOf before).length]? =
        some t := by
      rw [List.getElem?_append_right (Nat.le_refl _), Nat.sub_self, ← List.head?_eq_getElem?, hhead]
    rw [hfault, hts, Parse.Miss.fault, Parse.lineAt, Parse.start, List.getElem?_toArray, hfound]
    rfl
  | inOrder hsame hquiet hrules =>
    obtain rfl := Option.some.inj (hkeyword.symm.trans hsame)
    have hin := mt horbit.mpr hquiet
    exact ⟨iff_of_true (hrules.subset List.mem_cons_self) hin, fun _ ↦ hrules,
      fun h ↦ absurd h hin⟩

/-- A move order to the eleventh orbit. -/
def eleventhOrbit : List Char :=
  "move 6 (1,2,3,11)\n".toList

/-- Its tokens. -/
def eleventhOrbitTokens : List Token :=
  [⟨1, .text, "move", .text "move"⟩, ⟨1, .integer, "6", .integer 6⟩, ⟨1, .parenOpen, "(", .none⟩,
    ⟨1, .integer, "1", .integer 1⟩, ⟨1, .comma, ",", .none⟩, ⟨1, .integer, "2", .integer 2⟩,
    ⟨1, .comma, ",", .none⟩, ⟨1, .integer, "3", .integer 3⟩, ⟨1, .comma, ",", .none⟩,
    ⟨1, .integer, "11", .integer 11⟩, ⟨1, .parenClose, ")", .none⟩, ⟨1, .eol, "\n", .none⟩]

theorem eleventhOrbit_outOfRange : Grammar.OrbitOutOfRange .move eleventhOrbitTokens := by
  refine ⟨[.text, .integer], eleventhOrbitTokens.take 9, ⟨1, .integer, "11", .integer 11⟩,
    eleventhOrbitTokens.drop 10, rfl, rfl, rfl, rfl, fun n hn ↦ ?_⟩
  obtain rfl : 11 = n := Option.some.inj hn
  decide

/-- The rule of move orders is not told of, and the fault lies with its keyword. -/
theorem readText_blames_eleventhOrbit :
    ∃ rejection context, readText eleventhOrbit ⟨true, false⟩ = .error rejection ∧
      rejection.fault.context = some context ∧ "move" ∉ context.stack ∧
      rejection.fault.message =
        "syntax error at line 1: expected EOL (found \x7b1 \"move\"\x7d)" := by
  have hrejected : (readText eleventhOrbit ⟨true, false⟩).toOption.isNone = true := by
    decide +kernel
  have hcomputed : (readText eleventhOrbit ⟨false, false⟩).toOption.map
      (·.tree.children.map fun part ↦ (part.isRule "unknown", part.tokens)) =
        some [(true, eleventhOrbitTokens), (false, [.eof 2])] := by
    decide +kernel
  cases hread : readText eleventhOrbit ⟨true, false⟩ with
  | ok reading =>
    rw [hread] at hrejected
    cases hrejected
  | error rejection =>
    obtain ⟨reading, before, line, after, context, hreading, htree, hbefore, hline, hcontext,
      hblame⟩ := readText_blames hread
    rw [hreading] at hcomputed
    have hchildren : reading.tree.children.map (fun part ↦ (part.isRule "unknown", part.tokens)) =
        [(true, eleventhOrbitTokens), (false, [.eof 2])] := Option.some.inj hcomputed
    rw [htree] at hchildren
    cases before with
    | cons part before =>
      have hpart : part.isRule "unknown" = true :=
        congrArg Prod.fst (List.cons.inj hchildren).1
      rw [hbefore part List.mem_cons_self] at hpart
      cases hpart
    | nil =>
      have htokens : line.tokens = eleventhOrbitTokens :=
        congrArg Prod.snd (List.cons.inj hchildren).1
      rw [htokens] at hblame
      obtain ⟨hmember, -, hout⟩ := hblame _ .move rfl (by decide)
      refine ⟨rejection, context, rfl, hcontext, ?_, ?_⟩
      · exact fun h ↦ hmember.mp h eleventhOrbit_outOfRange
      · rw [hout eleventhOrbit_outOfRange]
        decide

end OrderFile
