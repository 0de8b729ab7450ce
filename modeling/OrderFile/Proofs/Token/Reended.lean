import OrderFile.Proofs.Token.Returns

/-!
Quoted texts with what comes at their end left open. In a stream of a text newlines stand in line
ends only, so a newline can stand at the end of a quoted text for whatever is to come there:
`map_reend_extendOpen`. In the text of a line it is the last character: `intercalate_reend`.
-/

set_option autoImplicit false

namespace OrderFile

/-! ### Ends of texts -/

section

variable {ending text front back : List Char}

/-- The text with another end in the place of a newline at its end. -/
def reend (ending : List Char) : List Char → List Char
  | [] => []
  | [c] => if c = '\n' then ending else [c]
  | c :: d :: text => c :: reend ending (d :: text)

/-- Only the end of a text is changed. -/
theorem reend_append (h : '\n' ∉ front) (back : List Char) :
    reend ending (front ++ back) = front ++ reend ending back := by
  induction front with
  | nil => rfl
  | cons c front ih =>
    have hrest := ih (List.not_mem_of_not_mem_cons h)
    rw [List.cons_append, List.cons_append, ← hrest]
    cases front ++ back with
    | nil => exact if_neg (List.ne_of_not_mem_cons h).symm
    | cons d rest => rfl

theorem reend_of_not_mem (h : '\n' ∉ text) : reend ending text = text := by
  have happend := @reend_append ending _ h []
  rwa [List.append_nil, reend, List.append_nil] at happend

/-- A text has no newline at its end, or what is put there comes after the rest. -/
theorem reend_cases (text : List Char) :
    (∀ ending, reend ending text = text) ∨ ∃ front, ∀ ending, reend ending text = front ++ ending := by
  induction text with
  | nil => exact .inl fun _ ↦ rfl
  | cons c text ih =>
    cases text with
    | nil =>
      by_cases hc : c = '\n'
      · exact .inr ⟨[], fun _ ↦ if_pos hc⟩
      · exact .inl fun _ ↦ if_neg hc
    | cons d text =>
      rcases ih with hsame | ⟨front, hfront⟩
      · exact .inl fun ending ↦ congrArg (c :: ·) (hsame ending)
      · exact .inr ⟨c :: front, fun ending ↦ congrArg (c :: ·) (hfront ending)⟩

end

/-- The word with another end in the place of a newline at its end. -/
def reended (ending word : String) : String :=
  String.ofList (reend ending.toList word.toList)

theorem reended_append {front : String} (h : '\n' ∉ front.toList) (ending back : String) :
    reended ending (front ++ back) = front ++ reended ending back := by
  rw [reended, String.toList_append, reend_append h, String.ofList_append, String.ofList_toList]
  rfl

theorem reended_of_not_mem {word : String} (h : '\n' ∉ word.toList) (ending : String) :
    reended ending word = word := by
  rw [reended, reend_of_not_mem h, String.ofList_toList]

/-- The newline that stood for the end of a word makes way for the end. -/
theorem reended_newline {word : String} (h : '\n' ∉ word.toList) (ending : String) :
    reended ending (word ++ "\n") = word ++ ending := by
  rw [reended_append h]
  exact congrArg (word ++ ·) String.ofList_toList

/-- Two ends put in the place of a newline, the first one empty. -/
theorem reended_return (word : String) :
    reended "\r" word = reended "" word ∨ reended "\r" word = reended "" word ++ "\r" := by
  rcases reend_cases word.toList with hsame | ⟨front, hfront⟩
  · exact .inl (by rw [reended, reended, hsame, hsame])
  · refine .inr ?_
    rw [reended, reended, hfront, hfront, String.ofList_append, String.ofList_append]
    simp

namespace Token

variable {t : Token} {ts : List Token}

/-- A quoted text with another end in the place of a newline at its end, and any other token. -/
def reend (ending : String) (t : Token) : Token :=
  if t.kind = .quotedText then t.mapText (reended ending) else t

theorem reend_of_kind (h : t.kind = .quotedText) (ending : String) :
    t.reend ending = t.mapText (reended ending) :=
  if_pos h

theorem reend_of_ne (h : t.kind ≠ .quotedText) (ending : String) : t.reend ending = t :=
  if_neg h

/-! ### Streams of a text -/

/-- A token that holds no newline unless it ends a line. -/
structure OneLine (t : Token) : Prop where
  lexeme : t.kind ≠ .eol → '\n' ∉ t.lexeme.toList
  text : t.kind = .quotedText → ∀ s, t.payload = .text s → '\n' ∉ s.toList

/-- A quoted text ends with its line. -/
theorem not_mem_inner (text : List Char) : '\n' ∉ (quotedParts text).inner := by
  fun_induction quotedParts text with
  | case1 => exact List.not_mem_nil
  | case2 text ih => simpa [QuotedParts.cons] using ih
  | case3 => exact List.not_mem_nil
  | case4 => exact List.not_mem_nil
  | case5 c text _ _ hline ih =>
    simp only [QuotedParts.cons, List.mem_cons, not_or]
    exact ⟨fun h ↦ hline h.symm, ih⟩

/-- Taking the escapes out of a text adds no characters. -/
theorem mem_of_mem_unescapeQuotes {c : Char} {text : List Char} (h : c ∈ unescapeQuotes text) :
    c ∈ text := by
  fun_induction unescapeQuotes text with
  | case1 => exact h
  | case2 text ih =>
    rcases List.mem_cons.mp h with rfl | hrest
    · simp
    · simp [ih hrest]
  | case3 d text _ ih =>
    rcases List.mem_cons.mp h with rfl | hrest
    · exact List.mem_cons_self
    · exact List.mem_cons_of_mem _ (ih hrest)

/-- What a quoted text carries stands on one line. -/
theorem not_mem_text_cut {c : Char} {text : List Char} (h : (cut c text).kind = .quotedText)
    {s : String} (hs : (cut c text).payload = .text s) : '\n' ∉ s.toList := by
  rcases cut_cases c with ⟨kind, hother, -, hcut⟩ | ⟨kind, inClass, htrivia, -, hcut⟩ |
    ⟨-, hcut⟩ | ⟨-, hcut⟩
  · rw [hcut] at h
    exact absurd h hother
  · rw [hcut] at hs
    cases hs
  · rw [hcut] at hs
    obtain rfl := Payload.text.inj hs
    rw [String.toList_ofList]
    exact fun hmem ↦ not_mem_inner text (mem_of_mem_unescapeQuotes hmem)
  · have hmem := kind_mem_of_numberOrWord hcut text
    rw [h] at hmem
    exact absurd hmem (by decide)

/-- No token of a text but a line end holds a newline. -/
theorem oneLine_of_mem_scanFrom {n : UInt32} {closed : Bool} {text : List Char}
    (h : t ∈ scanFrom n closed text) : t.OneLine where
  lexeme := not_mem_lexeme_of_mem_scanFrom h
  text := by
    fun_induction scanFrom n closed text with
    | case1 n =>
      obtain rfl := List.mem_singleton.mp h
      exact fun hkind ↦ by cases hkind
    | case2 n closed =>
      rcases List.mem_cons.mp h with rfl | hlast
      · exact fun hkind ↦ by cases hkind
      · obtain rfl := List.mem_singleton.mp hlast
        exact fun hkind ↦ by cases hkind
    | case3 n closed c text k ih =>
      rcases List.mem_cons.mp h with rfl | hrest
      · exact fun hkind s hs ↦ not_mem_text_cut hkind hs
      · exact ih hrest

/-- A quoted text of a stream holds no newline, so nothing in it is changed. -/
theorem mapText_reended (h : t.OneLine) (hkind : t.kind = .quotedText) (ending : String) :
    t.mapText (reended ending) = t := by
  have hlexeme := reended_of_not_mem (h.lexeme (by simp [hkind])) ending
  have hpayload : t.payload.mapText (reended ending) = t.payload := by
    cases hs : t.payload with
    | text s => exact congrArg Payload.text (reended_of_not_mem (h.text hkind s hs) ending)
    | _ => rfl
  rw [mapText, hlexeme, hpayload]

/-- A newline put at the end of a quoted text makes way for any other end. -/
theorem mapText_reended_newline (h : t.OneLine) (hkind : t.kind = .quotedText) (ending : String) :
    (t.mapText (· ++ "\n")).mapText (reended ending) = t.mapText (· ++ ending) := by
  have hlexeme := reended_newline (h.lexeme (by simp [hkind])) ending
  have hpayload : (t.payload.mapText (· ++ "\n")).mapText (reended ending) =
      t.payload.mapText (· ++ ending) := by
    cases hs : t.payload with
    | text s => exact congrArg Payload.text (reended_newline (h.text hkind s hs) ending)
    | _ => rfl
  rw [mapText, mapText, mapText, hlexeme, hpayload]

/-- Every end of open quotes comes from a newline in its place. -/
theorem map_reend_extendOpen (h : ∀ t ∈ ts, t.OneLine) (ending : String) :
    (extendOpen "\n" ts).map (reend ending) = extendOpen ending ts := by
  induction ts with
  | nil => rfl
  | cons t ts ih =>
    obtain ⟨ht, hothers⟩ := List.forall_mem_cons.mp h
    rw [extendOpen, extendOpen, List.map_cons, ih hothers]
    refine congrArg (· :: _) ?_
    split
    · next hopen =>
      have hkind := kind_of_isUnclosed ((Bool.and_eq_true _ _).mp hopen).1
      exact (if_pos hkind).trans (mapText_reended_newline ht hkind ending)
    · by_cases hkind : t.kind = .quotedText
      · rw [reend_of_kind hkind, mapText_reended ht hkind]
      · exact reend_of_ne hkind ending

theorem extendOpen_empty (ts : List Token) : extendOpen "" ts = ts := by
  have hsame (t : Token) : t.mapText (· ++ "") = t := by
    obtain ⟨line, kind, lexeme, payload⟩ := t
    cases payload <;> simp [mapText, Payload.mapText]
  induction ts with
  | nil => rfl
  | cons t ts ih => rw [extendOpen, hsame, ite_self, ih]

/-- A prepared stream with more text in open quotes is prepared. -/
theorem prepare_extendOpen (more : String) (ts : List Token) :
    prepare (extendOpen more (prepare ts)) = extendOpen more (prepare ts) := by
  have hkinds (ts : List Token) : (extendOpen more ts).map (·.kind) = ts.map (·.kind) := by
    induction ts with
    | nil => rfl
    | cons t ts ih =>
      rw [extendOpen, List.map_cons, ih]
      split <;> rfl
  have hkept : (extendOpen more (prepare ts)).filter (!·.kind.isTrivia) =
      extendOpen more (prepare ts) := by
    refine List.filter_eq_self.mpr fun t ht ↦ ?_
    have hkind : t.kind ∈ (prepare ts).map (·.kind) := hkinds (prepare ts) ▸ List.mem_map_of_mem ht
    obtain ⟨s, hs, heq⟩ := List.mem_map.mp hkind
    rw [← heq, not_isTrivia_of_mem_prepare hs]
    rfl
  have hcollapsed := (collapsed_collapseLinesFrom false (ts.filter (!·.kind.isTrivia))).1
  rw [prepare_eq, hkept, collapseLinesFrom_extendOpen, prepare_eq,
    collapseLinesFrom_of_collapsed hcollapsed fun h ↦ absurd h Bool.false_ne_true]

/-- Only a line end comes after a token with a newline. -/
theorem chain_extendOpen (h : ∀ t ∈ ts, t.OneLine) :
    (extendOpen "\n" ts).IsChain fun s t ↦
      s.kind ≠ .eol → '\n' ∈ s.lexeme.toList → t.kind = .eol := by
  induction ts with
  | nil => exact .nil
  | cons t ts ih =>
    obtain ⟨ht, hothers⟩ := List.forall_mem_cons.mp h
    rw [extendOpen]
    refine List.isChain_cons.mpr ⟨?_, ih hothers⟩
    split
    · next hopen =>
      intro e he _ _
      cases ts with
      | nil => cases he
      | cons s ts =>
        have hnewline : s.isNewline = true := ((Bool.and_eq_true _ _).mp hopen).2
        rw [extendOpen_newline hnewline] at he
        obtain rfl := Option.some.inj he
        exact kind_of_isNewline hnewline
    · exact fun e _ hkind hmem ↦ absurd hmem (ht.lexeme hkind)

/-- Only quoted texts are extended. -/
theorem mem_extendOpen {more : String} (h : t ∈ extendOpen more ts) :
    t ∈ ts ∨ t.kind = .quotedText := by
  induction ts with
  | nil => cases h
  | cons s ts ih =>
    rw [extendOpen] at h
    rcases List.mem_cons.mp h with rfl | hrest
    · split
      · next hopen =>
        have hkind := kind_of_isUnclosed ((Bool.and_eq_true _ _).mp hopen).1
        exact .inr hkind
      · exact .inl List.mem_cons_self
    · exact (ih hrest).imp_left (List.mem_cons_of_mem s)

/-- The text of a token is changed like what it carries. -/
theorem lexeme_reend (h : t.kind ≠ .quotedText → '\n' ∉ t.lexeme.toList) (ending : String) :
    (t.reend ending).lexeme = reended ending t.lexeme := by
  by_cases hkind : t.kind = .quotedText
  · rw [reend_of_kind hkind]
    rfl
  · rw [reend_of_ne hkind, reended_of_not_mem (h hkind)]

/-- The text of a line ends with what its last token ends with. -/
theorem intercalate_reend (hchain : ts.IsChain fun s t ↦
      s.kind ≠ .eol → '\n' ∈ s.lexeme.toList → t.kind = .eol)
    (heol : ∀ t ∈ ts, t.kind ≠ .eol)
    (hplain : ∀ t ∈ ts, t.kind ≠ .quotedText → '\n' ∉ t.lexeme.toList) (ending : String) :
    String.intercalate " " ((ts.map (reend ending)).map (·.lexeme)) =
      reended ending (String.intercalate " " (ts.map (·.lexeme))) := by
  induction ts with
  | nil => rfl
  | cons t ts ih =>
    obtain ⟨ht, hothers⟩ := List.forall_mem_cons.mp heol
    obtain ⟨hfirst, hrest⟩ := List.forall_mem_cons.mp hplain
    obtain ⟨hnext, htail⟩ := List.isChain_cons.mp hchain
    have hlater := ih htail hothers hrest
    cases ts with
    | nil => simp [lexeme_reend hfirst]
    | cons s ts =>
      have hline : '\n' ∉ t.lexeme.toList := fun hmem ↦
        hothers s List.mem_cons_self (hnext s rfl ht hmem)
      have hspace : '\n' ∉ (t.lexeme ++ " ").toList := by simpa using hline
      have hwords (t s : Token) (ts : List Token) :
          String.intercalate " " ((t :: s :: ts).map (·.lexeme)) =
            t.lexeme ++ " " ++ String.intercalate " " ((s :: ts).map (·.lexeme)) :=
        String.intercalate_cons_cons
      have hfront : (t.reend ending).lexeme = t.lexeme := by
        rw [lexeme_reend hfirst, reended_of_not_mem hline]
      calc String.intercalate " " (((t :: s :: ts).map (reend ending)).map (·.lexeme))
        _ = (t.reend ending).lexeme ++ " " ++
            String.intercalate " " (((s :: ts).map (reend ending)).map (·.lexeme)) := hwords _ _ _
        _ = t.lexeme ++ " " ++
            reended ending (String.intercalate " " ((s :: ts).map (·.lexeme))) := by
          rw [hfront, hlater]
        _ = reended ending (String.intercalate " " ((t :: s :: ts).map (·.lexeme))) := by
          rw [hwords, reended_append hspace]

end Token

end OrderFile
