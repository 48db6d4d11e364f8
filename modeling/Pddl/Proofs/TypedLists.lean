import Pddl.Proofs.Documents

/-!
# Typed lists are read group by group

A typed list goes up to the first closing parenthesis outside of an `either` type, or up to the end
of the input (`Word.beforeClose`).  It is read exactly if these words are groups of names with a
type behind each of them, and names without a type after the last group; every name then has the
type of its own group, in the order of the text (`Reader.typedList_ok_iff_grouped`).  So typed names
are read back from the texts that they are printed as.
-/

namespace Pddl

/-! ### The words of a list -/

namespace Word

/-- Do the words start an `either` type? -/
def opensEither : List Word → Bool
  | opening :: head :: _ =>
    opening.kind = .openParen && head.kind = .name && fold head.text = "either"
  | _ => false

/-- The words before the first closing parenthesis outside of an `either` type, where `inside` says
whether they start inside of one. -/
def beforeClose : Bool → List Word → List Word
  | _, [] => []
  | inside, word :: rest =>
    if word.kind = .closeParen then
      if inside then word :: beforeClose false rest else []
    else
      word :: beforeClose (inside || opensEither (word :: rest)) rest

variable {ws us : List Word} {word : Word}

/-- Only an opening parenthesis starts an `either` type. -/
lemma opensEither_of_ne (h : word.kind ≠ .openParen) : opensEither (word :: us) = false := by
  cases us with
  | nil => rfl
  | cons head rest => simp [opensEither, h]

/-- A word that is no parenthesis stands before whatever ends a list. -/
lemma beforeClose_cons (h : word.kind ≠ .openParen ∧ word.kind ≠ .closeParen) :
    beforeClose false (word :: us) = word :: beforeClose false us := by
  rw [beforeClose, if_neg h.2, opensEither_of_ne h.1, Bool.or_false]

/-- Words without parentheses stand before whatever ends a list. -/
lemma beforeClose_plain (h : ∀ word ∈ ws, word.kind ≠ .openParen ∧ word.kind ≠ .closeParen) :
    beforeClose false (ws ++ us) = ws ++ beforeClose false us := by
  induction ws with
  | nil => rfl
  | cons word rest ih =>
    obtain ⟨hword, hrest⟩ := List.forall_mem_cons.mp h
    rw [List.cons_append, beforeClose_cons hword, ih hrest]
    rfl

/-- An `either` type goes on up to its closing parenthesis. -/
lemma beforeClose_inside (h : ∀ word ∈ ws, word.kind ≠ .closeParen) :
    beforeClose true (ws ++ us) = ws ++ beforeClose true us := by
  induction ws with
  | nil => rfl
  | cons word rest ih =>
    obtain ⟨hclose, hrest⟩ := List.forall_mem_cons.mp h
    rw [List.cons_append, beforeClose, if_neg hclose, Bool.true_or, ih hrest]
    rfl

/-- A list ends before a closing parenthesis or with the last word. -/
lemma exists_append_beforeClose : ∀ (inside : Bool) (words : List Word),
    ∃ rest, words = beforeClose inside words ++ rest ∧
      (rest = [] ∨ Reader.headKind rest = .closeParen) := by
  intro inside words
  induction words generalizing inside with
  | nil => exact ⟨[], rfl, Or.inl rfl⟩
  | cons word words ih =>
    rw [beforeClose]
    split_ifs with hclose hinside
    · obtain ⟨rest, hrest, hend⟩ := ih false
      exact ⟨rest, congrArg (word :: ·) hrest, hend⟩
    · exact ⟨word :: words, rfl, Or.inr hclose⟩
    · obtain ⟨rest, hrest, hend⟩ := ih (inside || opensEither (word :: words))
      exact ⟨rest, congrArg (word :: ·) hrest, hend⟩

end Word

/-- The words of a type stand before whatever ends a list. -/
lemma TypeSpec.IsSpelledBy.beforeClose_append {allowEither : Bool} {type : TypeSpec}
    {ws us : List Word} (h : type.IsSpelledBy allowEither ws) :
    Word.beforeClose false (ws ++ us) = ws ++ Word.beforeClose false us := by
  cases h with
  | named name => exact Word.beforeClose_plain (by simp [Word.name])
  | @either head first others _ hhead =>
    have hnames : ∀ word ∈ (head :: first :: others).map Word.name, word.kind ≠ .closeParen := by
      intro word hword
      obtain ⟨name, -, rfl⟩ := List.mem_map.mp hword
      simp [Word.name]
    have hopens : Word.opensEither (Word.opening ::
        ((head :: first :: others).map Word.name ++ Word.closing :: us)) = true := by
      simp [Word.opensEither, Word.opening, Word.name, hhead]
    change Word.beforeClose false (Word.group ((head :: first :: others).map Word.name) ++ us) = _
    rw [Word.group, List.cons_append, List.append_assoc, List.singleton_append, Word.beforeClose,
      if_neg (by decide), hopens, Bool.or_true, Word.beforeClose_inside hnames, Word.beforeClose,
      if_pos (by rfl), if_pos rfl]
    simp [Word.group]

/-- The words of a typed list stand before whatever ends it. -/
lemma IsTypedList.beforeClose_append {kind : Token.Kind} {allowEither : Bool}
    {listed : List TypedName} {words : List Word} (hkind : kind = .name ∨ kind = .var)
    (h : IsTypedList kind allowEither listed words) (us : List Word) :
    Word.beforeClose false (words ++ us) = words ++ Word.beforeClose false us := by
  have hnames : ∀ (names : List String) (us : List Word),
      Word.beforeClose false (names.map (⟨kind, ·⟩) ++ us) =
        names.map (⟨kind, ·⟩) ++ Word.beforeClose false us := by
    intro names us
    refine Word.beforeClose_plain fun word hword => ?_
    obtain ⟨name, -, rfl⟩ := List.mem_map.mp hword
    rcases hkind with rfl | rfl <;> simp
  induction h with
  | untyped names => exact hnames names us
  | @group names type spelling listed words _ htype _ ih =>
    have hminus : Word.minus.kind ≠ .openParen ∧ Word.minus.kind ≠ .closeParen := by decide
    rw [List.append_assoc, List.cons_append, List.append_assoc, hnames,
      Word.beforeClose_cons hminus, htype.beforeClose_append, ih]
    simp

/-! ### Printed lists -/

/-- A well-spelled type is printed as its words. -/
lemma TypeSpec.WellSpelled.spaced_text {type : TypeSpec} (h : type.WellSpelled) :
    Word.Spaced type.text.toList type.spelling := by
  cases type with
  | named name => exact .single (Word.name name) (h.names name List.mem_cons_self)
  | either options =>
    obtain ⟨first, others, rfl⟩ := List.exists_cons_of_ne_nil h.ne_nil
    have hnames : ∀ name ∈ "either" :: first :: others, (Word.name name).IsLexeme :=
      List.forall_mem_cons.mpr ⟨.name (by decide), h.names⟩
    have hgroup := (Word.Spaced.blanks Word.name (fun _ _ => rfl) hnames).group
    have htext : (TypeSpec.either (first :: others)).text.toList =
        '(' :: ((String.intercalate " " ("either" :: first :: others)).toList ++ [')']) := by
      simp [TypeSpec.text]
    rw [htext]
    exact hgroup

/-- A well-spelled typed name is printed as its words. -/
lemma TypedName.WellSpelledAs.spaced_text {kind : Token.Kind} {typed : TypedName}
    (h : typed.WellSpelledAs kind) : Word.Spaced typed.text.toList (typed.spellingAs kind) := by
  have hblank : IsFiller [' '] := .blank (by decide) .nil
  have hminus : Word.Spaced ['-'] [Word.minus] := .single Word.minus .minus
  have htext : typed.text.toList =
      typed.name.toList ++ ([' '] ++ (['-'] ++ ([' '] ++ typed.type.text.toList))) := by
    simp [TypedName.text]
  rw [htext]
  have hname := Word.Spaced.single _ h.name
  exact hname.separated hblank (List.cons_ne_nil _ _)
    (hminus.separated hblank (List.cons_ne_nil _ _) h.type.spaced_text)

namespace Reader

variable {c : Context} {s s' : State} {kind : Token.Kind} {allowEither : Bool}
  {listed : List TypedName}

/-! ### Reading -/

/-- Where a closing parenthesis stands no words are left for a list, nor where the input ends. -/
lemma beforeClose_of_ends (hv : s.cursor.Valid)
    (h : s.cursor.current.kind = .closeParen ∨ s.cursor.current.kind = .endOfInput) :
    Word.beforeClose false s.cursor.words = [] := by
  rcases h with hclose | hend
  · have hne : s.cursor.current.kind ≠ .endOfInput := by simp [hclose]
    rw [Cursor.words, Cursor.upcoming_of_ne_end hne, List.map_cons, Word.beforeClose]
    exact if_pos hclose
  · rw [Cursor.words, hv.upcoming_of_end hend]
    rfl

/-- A typed list that is read has the words up to where it ends. -/
lemma isTypedList_of_ok (hkind : kind = .name ∨ kind = .var) (hv : s.cursor.Valid)
    (h : typedList kind allowEither c s = .ok listed s') :
    IsTypedList kind allowEither listed (Word.beforeClose false s.cursor.words) ∧
      s.cursor.words = Word.beforeClose false s.cursor.words ++ s'.cursor.words ∧
      (s'.cursor.current.kind = .closeParen ∨ s'.cursor.current.kind = .endOfInput) ∧
      (s'.cursor.words = [] → s.cursor.failure = none) := by
  obtain ⟨ts, hc, hlist, hend⟩ := typedList_spelled hv h
  have hpart : Word.beforeClose false s.cursor.words = ts.map Token.word := by
    rw [hc.words, hlist.beforeClose_append hkind, beforeClose_of_ends hc.valid hend,
      List.append_nil]
  rw [hpart]
  exact ⟨hlist, hc.words, hend, hc.failure_of_words_eq_nil⟩

/-- A typed list is read under lenient settings if the words up to where it ends are one, and no
error of the scan comes right after them. -/
lemma exists_ok_of_isTypedList (hkind : kind = .name ∨ kind = .var)
    (hlenient : c.settings.strictRequirements = false) (hv : s.cursor.Valid)
    (h : IsTypedList kind allowEither listed (Word.beforeClose false s.cursor.words))
    (hclean : Word.beforeClose false s.cursor.words = s.cursor.words → s.cursor.failure = none) :
    ∃ s', typedList kind allowEither c s = .ok listed s' := by
  obtain ⟨rest, hrest, hend⟩ := Word.exists_append_beforeClose false s.cursor.words
  have hs : Stands ⟨s.depth, s.requirements, s.cursor.failure⟩
      (Word.beforeClose false s.cursor.words ++ rest) s := ⟨hv, hrest, rfl, rfl, rfl⟩
  have hyields : Yields c ⟨s.depth, s.requirements, s.cursor.failure⟩ (typedList kind allowEither)
      (Word.beforeClose false s.cursor.words) EndsList (fun found => found = listed) :=
    typedList_yields_spelled hkind h fun _ _ hstrict => by simp [hlenient] at hstrict
  have hends : EndsList rest := by
    rcases hend with rfl | hclose
    · exact Or.inr rfl
    · exact Or.inl hclose
  have hstop : rest = [] → s.cursor.failure = none := by
    rintro rfl
    rw [List.append_nil] at hrest
    exact hclean hrest.symm
  obtain ⟨_, s', hrun, rfl, -⟩ := hyields rest s hstop hends hs
  exact ⟨s', hrun⟩

/-- Typed names that are printed with blanks between them are read back under lenient settings. -/
lemma run_printed (hkind : kind = .name ∨ kind = .var)
    (hlenient : c.settings.strictRequirements = false)
    (h : ∀ typed ∈ listed, typed.WellSpelledAs kind ∧
      (allowEither = false → ∃ name, typed.type = .named name)) :
    (run (typedList kind allowEither) c
      (String.intercalate " " (listed.map TypedName.text))).result = .ok listed := by
  have hblank : IsFiller " ".toList := .blank (by decide) .nil
  have hspaced := Word.Spaced.intercalate hblank (by decide) fun typed htyped =>
    (h typed htyped).1.spaced_text
  obtain ⟨hscan, hfailure⟩ := hspaced.scan
  obtain ⟨cursor, hcursor⟩ := Cursor.exists_ofText_of_failure hfailure
  have hs := stands_of_ofText hcursor hscan hfailure []
  have hlist : IsTypedList kind allowEither listed (listed.flatMap (TypedName.spellingAs kind)) :=
    isTypedList_spellingAs fun typed htyped => ⟨(h typed htyped).1.type, (h typed htyped).2⟩
  -- Nothing follows the words, so they are all that stands before the end of the list.
  have hpart := hlist.beforeClose_append hkind []
  rw [List.append_nil, Word.beforeClose, List.append_nil, ← hs.words] at hpart
  rw [← hs.words, ← hpart] at hlist
  obtain ⟨s', hrun⟩ := exists_ok_of_isTypedList hkind hlenient hs.valid hlist fun _ => hs.failure
  exact run_eq_ok.mpr ⟨cursor, s', hcursor, hrun⟩

/-- Under lenient settings and anywhere in a text, a list of typed names is read exactly if the
words up to the first closing parenthesis outside of an `either` type are groups that list these
typed names.  Without such a parenthesis they go up to the end of the input, which must not be an
error of the scan.  The reader stops right after these words.  In particular, typed names that are
printed with blanks between them are read back. -/
theorem typedList_ok_iff_grouped (kind : Token.Kind) (allowEither : Bool) (c : Context)
    (hkind : kind = .name ∨ kind = .var) (hlenient : c.settings.strictRequirements = false) :
    (∀ (text : String) (s : State), s.cursor.Reached text →
      (∀ listed, (∃ s', typedList kind allowEither c s = .ok listed s') ↔
        IsTypedList kind allowEither listed (Word.beforeClose false s.cursor.words) ∧
          (Word.beforeClose false s.cursor.words = s.cursor.words → s.cursor.failure = none)) ∧
      ∀ listed s', typedList kind allowEither c s = .ok listed s' →
        s.cursor.words = Word.beforeClose false s.cursor.words ++ s'.cursor.words ∧
          (s'.cursor.current.kind = .closeParen ∨ s'.cursor.current.kind = .endOfInput)) ∧
    ∀ listed : List TypedName,
      (∀ typed ∈ listed, typed.WellSpelledAs kind ∧
        (allowEither = false → ∃ name, typed.type = .named name)) →
      (run (typedList kind allowEither) c
        (String.intercalate " " (listed.map TypedName.text))).result = .ok listed := by
  refine ⟨fun text s hs => ⟨fun listed => ⟨?_, ?_⟩, ?_⟩, ?_⟩
  · rintro ⟨s', hrun⟩
    obtain ⟨hlist, hwords, -, hfailure⟩ := isTypedList_of_ok hkind hs.valid hrun
    refine ⟨hlist, fun hall => hfailure ?_⟩
    rw [hall] at hwords
    exact List.self_eq_append_right.mp hwords
  · rintro ⟨hlist, hclean⟩
    exact exists_ok_of_isTypedList hkind hlenient hs.valid hlist hclean
  · intro listed s' hrun
    obtain ⟨-, hwords, hend, -⟩ := isTypedList_of_ok hkind hs.valid hrun
    exact ⟨hwords, hend⟩
  · exact fun listed hlisted => run_printed hkind hlenient hlisted

/-- Two variables with alternative types, one with a single type and one without a type. -/
def groupedNames : List TypedName :=
  [⟨"?x", .either ["block", "Table"]⟩, ⟨"?y", .either ["block", "Table"]⟩, ⟨"?z", .named "car"⟩,
    .untyped "?w"]

/-- A text that lists the variables in groups, up to its second closing parenthesis. -/
def groupedText : String :=
  "?x ?y - (EITHER block Table)\n?z - car ?w) - ?v"

/-- The words of the text up to there list the variables. -/
lemma isTypedList_groupedText :
    IsTypedList .var true groupedNames (Word.beforeClose false (scan groupedText).words) := by
  have hwords : Word.beforeClose false (scan groupedText).words =
      ["?x", "?y"].map (⟨.var, ·⟩) ++ Word.minus ::
        (Word.group (Word.name "EITHER" :: ["block", "Table"].map Word.name) ++
          (["?z"].map (⟨.var, ·⟩) ++ Word.minus :: ([Word.name "car"] ++
            ["?w"].map (⟨.var, ·⟩)))) := by
    decide +kernel
  have hpair : ["?x", "?y"] ≠ [] := List.cons_ne_nil _ _
  have hone : ["?z"] ≠ [] := List.cons_ne_nil _ _
  rw [hwords]
  exact .group hpair (.either rfl (by decide)) (.group hone (.named "car") (.untyped ["?w"]))

/-- The variables and their types have lexemes. -/
lemma wellSpelledAs_groupedNames : ∀ typed ∈ groupedNames, typed.WellSpelledAs .var := by
  have hblock : (Word.name "block").IsLexeme := .name (by decide)
  have htable : (Word.name "Table").IsLexeme := .name (by decide)
  have heither : (TypeSpec.either ["block", "Table"]).WellSpelled :=
    ⟨by simp [TypeSpec.options, hblock, htable], List.cons_ne_nil _ _⟩
  have hnamed : ∀ name ∈ ["car", rootType], (TypeSpec.named name).WellSpelled := by
    intro name hname
    have hlexeme : (Word.name name).IsLexeme := by
      simp only [List.mem_cons, List.not_mem_nil, or_false] at hname
      rcases hname with rfl | rfl <;> exact .name (by decide)
    exact ⟨by simpa [TypeSpec.options] using hlexeme, List.cons_ne_nil _ _⟩
  simp only [groupedNames, TypedName.untyped, List.forall_mem_cons, List.not_mem_nil,
    false_implies, implies_true, and_true]
  exact ⟨⟨.var (by decide), heither⟩, ⟨.var (by decide), heither⟩,
    ⟨.var (by decide), hnamed _ (by simp)⟩, ⟨.var (by decide), hnamed _ (by simp)⟩⟩

/-- The variables are read from the text, and from what they are printed as. -/
theorem typedList_ok_iff_grouped_either :
    (Token.Kind.var = .name ∨ Token.Kind.var = .var) ∧
    (Context.unlimited .lenient true).settings.strictRequirements = false ∧
    (∃ cursor s', cursor.Reached groupedText ∧
      typedList .var true (.unlimited .lenient true) (State.ofCursor cursor []) =
        .ok groupedNames s' ∧
      (s'.cursor.current.kind = .closeParen ∨ s'.cursor.current.kind = .endOfInput)) ∧
    (run (typedList .var true) (.unlimited .lenient true)
      (String.intercalate " " (groupedNames.map TypedName.text))).result = .ok groupedNames := by
  obtain ⟨hexact, hprinted⟩ :=
    typedList_ok_iff_grouped .var true (.unlimited .lenient true) (Or.inr rfl) rfl
  have hfailure : (scan groupedText).failure = none := by decide +kernel
  obtain ⟨cursor, hcursor⟩ := Cursor.exists_ofText_of_failure hfailure
  obtain ⟨-, hupcoming, hsame⟩ := Cursor.of_ofText hcursor
  have hwords : cursor.words = (scan groupedText).words :=
    congrArg (List.map Token.word) hupcoming
  obtain ⟨hiff, hstop⟩ := hexact groupedText (.ofCursor cursor []) (.start hcursor)
  obtain ⟨s', hrun⟩ := (hiff groupedNames).mpr
    ⟨hwords ▸ isTypedList_groupedText, fun _ => hsame.trans hfailure⟩
  refine ⟨Or.inr rfl, rfl, ⟨cursor, s', .start hcursor, hrun, (hstop groupedNames s' hrun).2⟩, ?_⟩
  exact hprinted groupedNames fun typed htyped => ⟨wellSpelledAs_groupedNames typed htyped, by simp⟩

end Reader

end Pddl
