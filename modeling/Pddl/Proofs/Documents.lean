import Pddl.Proofs.Completeness
import Pddl.Proofs.Writing

/-!
# What readers of documents accept

Readers of sections change more than the words before them: they declare flags and, in domains,
types and symbols.  So they take their words (`Takes`) from states whose flags may differ (`AtTop`).
This file has the parts that domains and problems share: the header, the requirements, the sections
one after the other, and the end.
-/

namespace Pddl

/-! ### What can be written -/

/-- The flag is a keyword in small letters. -/
structure IsFoldedFlag (flag : String) : Prop where
  lexeme : (Word.keyword flag).IsLexeme
  folded : fold flag = flag

/-- How deep expressions may be nested for documents to be read back. -/
def writtenNesting : Nat := 150

/-- The expression has lexemes only and is not nested too deep to be read back. -/
structure Expr.IsWritable (numeral : Number → String) (e : Expr) : Prop where
  spelled : e.WellSpelled numeral
  nesting : e.nesting ≤ writtenNesting

namespace Reader

variable {α : Type} {c : Context} {frame : Frame} {s : State} {t : Token} {w : Word}
  {ws : List Word} {K : List Word → Prop}

/-- A reader that only consumes words takes them. -/
lemma Takes.of_yields {reader : ReadM α} {Q : α → Prop} (hfailure : frame.failure = none)
    (h : Yields c frame reader ws K Q) : Takes c (Stands frame) (Stands frame) reader ws K Q :=
  fun rest s hK hs => h rest s (fun _ => hfailure) hK hs

/-- Under the lenient settings and with room for what can be written, nothing stands against an
expression that is not nested too deep, but for arithmetic in a domain without the flag for it. -/
lemma lenient_permits {governs : Bool} {declared : List String} {depth capacity : Nat}
    {position : Position} {e : Expr} (hnesting : e.nesting ≤ writtenNesting)
    (hroom : writtenNesting < capacity)
    (harith : governs = true → (∃ part ∈ e.walk, part.IsArithmetic) →
      ":numeric-fluents" ∈ declared) :
    (Context.document .lenient governs capacity).Permits declared depth position e where
  features := fun _ _ _ hstrict => by cases hstrict
  arithmetic := harith
  depth := fun _ hlimit => by cases hlimit
  capacity := by
    rintro _ ⟨⟩
    have hheight : e.height ≤ e.nesting + 1 := Expr.levels_le_succ e
    omega

/-! ### Keywords and flags -/

/-- The token of a keyword is one, with the folded text as its key. -/
lemma keyword_of_word {text : String} (h : t.word = Word.keyword text) :
    isKeyword t = true ∧ t.key = fold text := by
  have hkind : t.kind = (Word.keyword text).kind := congrArg Word.kind h
  have htext : t.text = text := congrArg Word.text h
  refine ⟨?_, by rw [Token.key, htext]⟩
  unfold isKeyword
  rw [hkind]
  unfold Word.keyword
  cases Requirement.isKnown text <;> rfl

/-- A keyword is consumed. -/
lemma keyword_yields {text : String} :
    Yields c frame (keyword text) [Word.keyword text] K (fun t => t.word = Word.keyword text) := by
  refine current_yields (fun _ _ => rfl) fun t ht => ?_
  obtain ⟨hkeyword, hkey⟩ := keyword_of_word ht
  rw [if_pos (by simp [isKeywordText, hkeyword, hkey])]
  exact advance_yields

/-- A notice needs no words. -/
lemma note_yields {notice : Notice} : Yields c frame (note notice) [] K (fun _ => True) := by
  intro rest s _ _ hs
  refine ⟨(), _, rfl, True.intro, ?_⟩
  exact ⟨hs.valid, hs.words, hs.depth, hs.declared, hs.failure⟩

/-- Where breaches are only noted, a report needs no words. -/
lemma report_yields {breach : Breach} (hlenient : c.settings.strictRequirements = false) :
    Yields c frame (report t breach) [] K (fun _ => True) := by
  intro rest s hclean hK hs
  obtain ⟨u, s', hnote, hs'⟩ : ∃ u s', note (.warning t.line breach) c s = .ok u s' ∧ _ :=
    note_yields rest s hclean hK hs
  refine ⟨u, s', ?_, hs'⟩
  simp only [report, bind_eq_ok, read_eq_ok]
  refine ⟨c, s, ⟨rfl, rfl⟩, ?_⟩
  rw [if_neg (by simp [hlenient])]
  exact hnote

/-- A flag is read as it is written if it is written in small letters. -/
lemma requirementFlag_yields {flag : String} (hlenient : c.settings.strictRequirements = false)
    (hfold : fold flag = flag) :
    Yields c frame requirementFlag [Word.keyword flag] K (fun found => found = flag) := by
  refine Yields.cons advance_yields fun t ht => ?_
  have hkey : t.key = flag := (keyword_of_word ht).2.trans hfold
  split_ifs
  · exact Yields.skip (report_yields hlenient) fun _ _ => pure_yields hkey
  · exact pure_yields hkey

/-- Different texts that are added to a set one after the other are all added. -/
lemma union_of_nodup : ∀ (texts set : List String), (set ++ texts).Nodup →
    Text.union set texts = set ++ texts := by
  intro texts
  induction texts with
  | nil =>
    intro set _
    rw [List.append_nil]
    rfl
  | cons text rest ih =>
    intro set hnodup
    have hnew : text ∉ set := by
      intro hmem
      exact (List.nodup_append.mp hnodup).2.2 text hmem text List.mem_cons_self rfl
    have hrest : (set ++ [text] ++ rest).Nodup := by simpa using hnodup
    have hunion : Text.union set (text :: rest) = Text.union (set ++ [text]) rest := by
      simp [Text.union, Text.insertNew, hnew]
    rw [hunion, ih _ hrest, List.append_assoc]
    rfl

/-- A section of requirements is read from its keyword on; its flags are declared with all that they
imply. -/
lemma requirements_takes {flags : List String} {depth : Nat} {declared : List String}
    (hlenient : c.settings.strictRequirements = false) (hfold : ∀ flag ∈ flags, fold flag = flag)
    (hnodup : flags.Nodup) :
    Takes c (Stands ⟨depth, declared, none⟩)
      (Stands ⟨depth, Text.union declared (Requirement.expand flags), none⟩) requirements
      (Word.keyword ":requirements" :: (flags.map Word.keyword ++ [Word.closing])) Anything
      (fun found => found = flags) := by
  have hflags : Yields c ⟨depth, declared, none⟩ (readWhile isKeyword requirementFlag)
      (flags.map Word.keyword) (Next Word.closing) (fun found => found = flags) := by
    rw [List.map_eq_flatMap]
    refine readWhile_yields ?_ ?_ fun flag hflag =>
      requirementFlag_yields hlenient (hfold flag hflag)
    · intro t ht
      have hkind : t.kind = .closeParen := congrArg Word.kind ht
      simp [isKeyword, hkind]
    · exact fun flag _ => ⟨Word.keyword flag, [], rfl, fun t ht => (keyword_of_word ht).1⟩
  refine Takes.cons (Takes.of_yields rfl keyword_yields) fun _ _ => ?_
  refine Takes.bind (Takes.of_yields rfl hflags) (fun _ _ => rfl) ?_
  rintro flags rfl
  refine Takes.cons (Takes.of_yields rfl (expect_yields rfl)) fun _ _ => ?_
  intro rest s _ hs
  have hlisted : Text.union [] flags = flags := union_of_nodup flags [] hnodup
  rw [hlisted]
  refine ⟨flags, _, rfl, rfl, ?_⟩
  exact ⟨hs.valid, hs.words, hs.depth, congrArg (Text.union · _) hs.declared, hs.failure⟩

/-! ### Before and after the sections -/

/-- The header of a document is read. -/
lemma header_yields {kind expected name : String} :
    Yields c frame (header kind expected)
      ([Word.opening, Word.name "define"] ++ Word.group [Word.name kind, Word.name name]) K
      (fun found => found = name) := by
  refine Yields.cons (expect_yields rfl) fun _ _ => ?_
  refine Yields.cons (expectText_yields rfl rfl) fun _ _ => ?_
  refine Yields.cons (expect_yields rfl) fun _ _ => ?_
  refine Yields.cons (expectText_yields rfl rfl) fun _ _ => ?_
  refine Yields.cons name_yields ?_
  rintro _ rfl
  exact Yields.cons (expect_yields rfl) fun _ _ => pure_yields rfl

/-- A document may end where the input ends. -/
lemma endOfDocument_yields :
    Yields c frame endOfDocument [] (fun rest => rest = []) (fun _ => True) := by
  rintro rest s _ rfl hs
  refine ⟨(), s, ?_, True.intro, hs⟩
  unfold endOfDocument
  rw [bind_of_ok current_run, if_pos hs.atEnd]
  rfl

/-- Reading a text without an error starts before its words, with any flags declared. -/
lemma stands_of_ofText {text : String} {cursor : Cursor} (hcursor : Cursor.ofText text = .ok cursor)
    (hwords : (scan text).words = ws) (hfailure : (scan text).failure = none)
    (flags : List String) : Stands ⟨0, flags, none⟩ ws (State.ofCursor cursor flags) := by
  obtain ⟨hvalid, hupcoming, hsame⟩ := Cursor.of_ofText hcursor
  refine ⟨hvalid, ?_, rfl, rfl, hsame.trans hfailure⟩
  rw [← hwords]
  exact congrArg (List.map Token.word) hupcoming

/-- Reading a text whose words are given starts before these words, with any flags declared. -/
lemma exists_stands {text : String} (hne : ws ≠ []) (hwords : (scan text).words = ws)
    (hfailure : (scan text).failure = none) :
    ∃ cursor, Cursor.ofText text = .ok cursor ∧
      ∀ flags, Stands ⟨0, flags, none⟩ ws (State.ofCursor cursor flags) := by
  obtain ⟨cursor, hcursor⟩ : ∃ cursor, Cursor.ofText text = .ok cursor :=
    Cursor.exists_ofText (by rwa [hwords])
  exact ⟨cursor, hcursor, stands_of_ofText hcursor hwords hfailure⟩

/-! ### Sections one after the other -/

/-- The reader of a document stands before the given words, which are all that is left: no
expression is open, the text has no error, and any flags may be declared. -/
def AtTop (words : List Word) (s : State) : Prop :=
  ∃ declared, Stands ⟨0, declared, none⟩ words s

/-- A reader that only consumes words, whatever flags are declared, takes them. -/
lemma Takes.of_yields_atTop {reader : ReadM α} {Q : α → Prop}
    (h : ∀ declared, Yields c ⟨0, declared, none⟩ reader ws K Q) :
    Takes c AtTop AtTop reader ws K Q := by
  rintro rest s hK ⟨declared, hs⟩
  obtain ⟨a, s', hrun, hQ, hs'⟩ := h declared rest s (fun _ => rfl) hK hs
  exact ⟨a, s', hrun, hQ, declared, hs'⟩

/-- A text is read by a reader that takes all of its words. -/
lemma run_of_takes {reader : ReadM α} {a : α} {text : String} (hne : ws ≠ [])
    (h : Takes c AtTop AtTop reader ws (fun rest => rest = []) (fun found => found = a))
    (hwords : (scan text).words = ws) (hfailure : (scan text).failure = none) :
    (run reader c text).result = .ok a := by
  obtain ⟨cursor, hcursor, hstands⟩ := exists_stands hne hwords hfailure
  have hs : AtTop (ws ++ []) (State.ofCursor cursor []) := by
    rw [List.append_nil]
    exact ⟨[], hstands []⟩
  obtain ⟨_, s', hrun, rfl, -⟩ := h [] _ rfl hs
  exact run_eq_ok.mpr ⟨cursor, s', hcursor, hrun⟩

/-- A reader of documents faces the words that are left. -/
lemma faces_atTop : Faces AtTop where
  current := fun ⟨_, hs⟩ => hs.current
  length := fun ⟨_, hs⟩ => hs.length

/-- A repetition takes its items up to a word that fails the test. -/
lemma readWhile_atTop {test : Token → Bool} {item : ReadM α} {spell : α → List Word}
    {as : List α} (hstop : ∀ t : Token, t.word = w → test t = false)
    (hstarts : ∀ a ∈ as, Starts test (spell a))
    (hitem : ∀ a ∈ as, Takes c AtTop AtTop item (spell a) Anything (fun b => b = a)) :
    Takes c AtTop AtTop (readWhile test item) (as.flatMap spell) (Next w) (fun bs => bs = as) := by
  simp only [← forall₂_eq_right]
  refine readWhile_takes faces_atTop ?_ (fun _ _ _ => True.intro) hstarts hitem
  rintro rest s hrest ⟨declared, hs⟩
  exact halts_next hstop _ rest s hrest hs

end Reader

end Pddl
