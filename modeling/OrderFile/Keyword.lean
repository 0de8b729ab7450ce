import OrderFile.Token

/-!
The words that start orders. The first word of an order decides which rule it follows.
-/

set_option autoImplicit false

namespace OrderFile

inductive Keyword where
  | assemble
  | bombard
  | buy
  | disassemble
  | invade
  | move
  | name
  | news
  | pay
  | probe
  | raid
  | ration
  | retool
  | sell
  | setup
  | support
  | survey
  | transfer
  deriving DecidableEq, Inhabited

namespace Keyword

/-- Every keyword, in alphabetical order. -/
def all : List Keyword :=
  [assemble, bombard, buy, disassemble, invade, move, name, news, pay, probe, raid, ration, retool,
    sell, setup, support, survey, transfer]

/-- The spelling of a keyword, which is also the name of its rule. -/
def word : Keyword → String
  | assemble => "assemble"
  | bombard => "bombard"
  | buy => "buy"
  | disassemble => "disassemble"
  | invade => "invade"
  | move => "move"
  | name => "name"
  | news => "news"
  | pay => "pay"
  | probe => "probe"
  | raid => "raid"
  | ration => "ration"
  | retool => "retool"
  | sell => "sell"
  | setup => "setup"
  | support => "support"
  | survey => "survey"
  | transfer => "transfer"

theorem mem_all (k : Keyword) : k ∈ all := by
  cases k <;> decide

/-- The keyword a word spells in any case. -/
def ofWord? (word : String) : Option Keyword :=
  all.find? fun k ↦ sameWord k.word word

/-- The keyword a plain word spells. -/
def ofToken? (t : Token) : Option Keyword :=
  if t.kind = .text then ofWord? t.lexeme else none

/-- A keyword is found by its word. -/
theorem ofWord?_word (k : Keyword) : ofWord? k.word = some k := by
  cases k <;> decide +kernel

/-- A token is a keyword only by its word, in any case. -/
theorem sameWord_of_ofToken? {t : Token} {k : Keyword} (h : ofToken? t = some k) :
    sameWord k.word t.lexeme = true := by
  rw [ofToken?, Option.ite_none_right_eq_some, ofWord?] at h
  have hfound := List.find?_some h.2
  exact hfound

theorem spells_of_ofToken? {t : Token} {k : Keyword} (h : ofToken? t = some k) :
    t.spells k.word = true := by
  have hsame := sameWord_of_ofToken? h
  rw [sameWord_comm] at hsame
  rw [ofToken?, Option.ite_none_right_eq_some] at h
  exact (Bool.and_eq_true _ _).mpr ⟨beq_iff_eq.mpr h.1, hsame⟩

/-- A token that spells the word of a keyword is this keyword. -/
theorem ofToken?_of_spells {t : Token} {k : Keyword} (h : t.spells k.word = true) :
    ofToken? t = some k := by
  have hsame : lowercase t.lexeme = lowercase k.word :=
    sameWord_iff.mp ((Bool.and_eq_true _ _).mp h).2
  have hword : ofWord? t.lexeme = ofWord? k.word := by
    simp only [ofWord?, sameWord, hsame]
  rw [ofToken?, if_pos (Token.kind_of_spells h), hword, ofWord?_word]

end Keyword

end OrderFile
