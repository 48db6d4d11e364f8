import Pddl.Proofs.Partition

/-!
# Separated lexemes

Lexemes that are written with any blanks, newlines and comments between them are scanned into
themselves: whatever separates them stops the lexeme before it (`IsFiller.stops`) and is skipped
(`Scan.exists_run_filler`).  Nothing has to stand between lexemes that do not run into each other
(`Word.Spaced`).  The other way round, every token of a scan is the longest lexeme at its
place, so that the scan leaves nothing to choose (`scan_separated`).
-/

namespace Pddl

/-! ### Separators -/

/-- What separates lexemes goes on with none. -/
lemma Token.continues_of_isSeparator {c : Char} (h : isSeparator c = true) :
    continues c = false := by
  simp only [isSeparator, isBlank, Bool.or_eq_true, decide_eq_true_eq] at h
  rcases h with (rfl | ((rfl | rfl) | rfl) | rfl) | rfl <;> decide

/-- A filler starts with what separates lexemes. -/
lemma IsFiller.isSeparator_head? {filler : List Char} (h : IsFiller filler) :
    ∀ c ∈ filler.head?, Token.isSeparator c = true := by
  cases h with
  | nil => nofun
  | blank hc =>
    rintro _ ⟨⟩
    exact (blank_of_isSeparator hc).1
  | comment =>
    rintro _ ⟨⟩
    decide

/-- A filler stops the lexeme before it; so does the end of the text. -/
lemma IsFiller.stops {filler next : List Char} (h : IsFiller filler)
    (hnext : filler = [] → next = []) : Token.Stops (filler ++ next) := by
  cases filler with
  | nil =>
    rw [hnext rfl]
    exact Token.stops_nil
  | cons c rest =>
    rintro _ ⟨⟩
    exact Token.continues_of_isSeparator (h.isSeparator_head? c rfl)

namespace Scan

/-- A filler at the start of a text is skipped. -/
lemma exists_run_filler {filler : List Char} (h : IsFiller filler) (next : List Char) :
    ∀ place, ∃ after, run place (filler ++ next) = run after next := by
  induction h with
  | nil => exact fun place => ⟨place, rfl⟩
  | @blank c rest hc _ ih =>
    intro place
    by_cases hnewline : c = '\n'
    · rw [List.cons_append, hnewline, run_newline]
      exact ih _
    · rw [List.cons_append, run_blank (hc.resolve_left hnewline)]
      exact ih _
  | @comment body rest hbody _ ih =>
    intro place
    have hline : ∀ c ∈ body, decide (c ≠ '\n') = true := fun c hc =>
      decide_eq_true fun heq : c = '\n' => hbody (heq ▸ hc)
    have hend : ∀ c ∈ ('\n' :: rest ++ next).head?, decide (c ≠ '\n') = false := by
      rintro _ ⟨⟩
      rfl
    have hrun := Token.takeWhile_append_of_head hline hend
    rw [List.cons_append, List.append_assoc, run_comment, hrun.1, hrun.2]
    exact ih _

end Scan

/-! ### Texts with any spacing -/

/-- Texts that stop every lexeme before them do so one after the other. -/
lemma Token.Stops.append {chars next : List Char} (h : Stops chars) (hnext : Stops next) :
    Stops (chars ++ next) := by
  cases chars with
  | nil => exact hnext
  | cons c rest => exact h

/-- The text of the tokens of a kind, if all of them have the same text. -/
def Token.Kind.symbol? : Token.Kind → Option String
  | .minus => some "-"
  | .colon => some ":"
  | .openParen => some "("
  | .closeParen => some ")"
  | .openBracket => some "["
  | .closeBracket => some "]"
  | _ => none

namespace Word

/-- A lexeme whose kind has one text only has this text. -/
lemma IsLexeme.eq_symbol {word : Word} {text : String} (h : word.IsLexeme)
    (hsymbol : word.kind.symbol? = some text) : word = ⟨word.kind, text⟩ := by
  obtain ⟨kind, found⟩ := word
  have hlexeme : Token.IsLexeme kind found.toList := h
  have hsymbol : kind.symbol? = some text := hsymbol
  have hchars : found = String.ofList found.toList := String.ofList_toList.symm
  rw [hchars]
  generalize found.toList = chars at hlexeme
  cases hlexeme with
  | minus | colon | openParen | closeParen | openBracket | closeBracket =>
    rw [← Option.some.inj hsymbol]
  | _ => cases hsymbol

/-- A token whose kind has one text only has this text. -/
lemma IsLexeme.token_eq_symbol {token : Token} {kind : Token.Kind} {text : String}
    (h : token.word.IsLexeme) (hkind : token.kind = kind) (hsymbol : kind.symbol? = some text) :
    token.word = ⟨kind, text⟩ := by
  subst hkind
  exact h.eq_symbol hsymbol

/-- The word is a parenthesis or a bracket, which no character goes on with. -/
def IsBracket (word : Word) : Prop :=
  word.kind = .openParen ∨ word.kind = .closeParen ∨ word.kind = .openBracket ∨
    word.kind = .closeBracket

/-- The characters are the words with fillers before, between and behind them.  Words may touch
where the first one is a bracket or the second one does not go on with it. -/
inductive Spaced : List Char → List Word → Prop
  | nil : Spaced [] []
  | filler {filler rest : List Char} {words : List Word} : IsFiller filler → Spaced rest words →
      Spaced (filler ++ rest) words
  | word {word : Word} {rest : List Char} {words : List Word} : word.IsLexeme →
      word.IsBracket ∨ Token.Stops rest → Spaced rest words →
      Spaced (word.text.toList ++ rest) (word :: words)

variable {chars rest : List Char} {words more : List Word}

/-- A spaced word of its own. -/
lemma Spaced.single (word : Word) (h : word.IsLexeme) : Spaced word.text.toList [word] := by
  rw [← List.append_nil word.text.toList]
  exact .word h (Or.inr Token.stops_nil) .nil

/-- Spaced words go on with spaced words that do not run into them. -/
lemma Spaced.append (h : Spaced chars words) (hstops : Token.Stops rest)
    (hrest : Spaced rest more) : Spaced (chars ++ rest) (words ++ more) := by
  induction h with
  | nil => exact hrest
  | filler hfiller _ ih =>
    rw [List.append_assoc]
    exact .filler hfiller ih
  | word hword hmeet _ ih =>
    rw [List.append_assoc]
    exact .word hword (hmeet.imp_right fun h => h.append hstops) ih

/-- Spaced words with a filler that is not empty between them. -/
lemma Spaced.separated {filler : List Char} (h : Spaced chars words) (hfiller : IsFiller filler)
    (hne : filler ≠ []) (hrest : Spaced rest more) :
    Spaced (chars ++ (filler ++ rest)) (words ++ more) :=
  h.append (hfiller.stops fun hempty => absurd hempty hne) (.filler hfiller hrest)

/-- Texts of spaced words that are joined by a separator. -/
lemma Spaced.intercalate {α : Type} {separator : String} {text : α → String}
    {spell : α → List Word} {items : List α} (hfiller : IsFiller separator.toList)
    (hne : separator.toList ≠ []) (h : ∀ item ∈ items, Spaced (text item).toList (spell item)) :
    Spaced (String.intercalate separator (items.map text)).toList (items.flatMap spell) := by
  induction items with
  | nil => exact .nil
  | cons item items ih =>
    have hitem := h item List.mem_cons_self
    have hitems := ih fun other hother => h other (List.mem_cons_of_mem _ hother)
    rw [List.flatMap_cons]
    cases items with
    | nil =>
      rw [List.flatMap_nil, List.append_nil]
      simpa using hitem
    | cons next items =>
      rw [List.map_cons, List.map_cons, String.intercalate_cons_cons, String.toList_append,
        String.toList_append, List.append_assoc]
      exact hitem.separated hfiller hne hitems

end Word

namespace Scan

/-- A bracket at the start of a text is its first token, whatever follows it. -/
lemma run_bracket {word : Word} (h : word.IsLexeme) (hbracket : word.IsBracket) (place : Place)
    (next : List Char) :
    run place (word.text.toList ++ next) =
      (run (place.right 1) next).cons
        ⟨word.kind, word.text, place.line, place.column, place.offset⟩ := by
  obtain ⟨kind, text⟩ := word
  have hlexeme : Token.IsLexeme kind text.toList := h
  have hchars : text = String.ofList text.toList := String.ofList_toList.symm
  rw [hchars, String.toList_ofList]
  generalize text.toList = chars at hlexeme
  rcases hbracket with hkind | hkind | hkind | hkind
  all_goals
    obtain rfl : kind = _ := hkind
    cases hlexeme
    rw [List.singleton_append, run_of_lexeme?_eq_some rfl]
    rfl

/-- Spaced words are scanned into themselves. -/
lemma words_run_spaced {chars : List Char} {words : List Word} (h : Word.Spaced chars words) :
    ∀ place, (run place chars).words = words ∧ (run place chars).failure = none := by
  induction h with
  | nil =>
    intro place
    rw [run]
    exact ⟨rfl, rfl⟩
  | @filler filler rest words hfiller _ ih =>
    intro place
    obtain ⟨after, hafter⟩ := exists_run_filler hfiller rest place
    rw [hafter]
    exact ih after
  | @word word rest words hword hmeet _ ih =>
    intro place
    have hrun : ∃ after first, first.word = word ∧
        run place (word.text.toList ++ rest) = (run after rest).cons first := by
      rcases hmeet with hbracket | hstops
      · exact ⟨_, _, rfl, run_bracket hword hbracket place rest⟩
      · refine ⟨_, _, ?_, run_lexeme hword hstops place⟩
        rw [String.ofList_toList]
        rfl
    obtain ⟨after, first, hfirst, hrun⟩ := hrun
    obtain ⟨hwords, hfailure⟩ := ih after
    rw [hrun]
    refine ⟨?_, hfailure⟩
    rw [← hwords, ← hfirst]
    rfl

end Scan

/-- A text of spaced words is scanned into them. -/
lemma Word.Spaced.scan {text : String} {words : List Word} (h : Spaced text.toList words) :
    (Pddl.scan text).words = words ∧ (Pddl.scan text).failure = none :=
  Scan.words_run_spaced h Place.start

/-! ### Texts of separated lexemes -/

namespace Word

/-- Words with what is written behind each of them. -/
def spread (items : List (Word × List Char)) : List Char :=
  items.flatMap fun item => item.1.text.toList ++ item.2

/-- The words are lexemes, and between two of them there are blanks, newlines or comments up to the
next newline, as there may be behind the last one. -/
structure Separated (items : List (Word × List Char)) : Prop where
  isLexeme : ∀ item ∈ items, item.1.IsLexeme
  filler : ∀ item ∈ items, IsFiller item.2
  between : ∀ item ∈ items.dropLast, item.2 ≠ []

/-- The words after the first one are separated. -/
lemma Separated.tail {item : Word × List Char} {rest : List (Word × List Char)}
    (h : Separated (item :: rest)) : Separated rest where
  isLexeme := fun other hother => h.isLexeme other (List.mem_cons_of_mem _ hother)
  filler := fun other hother => h.filler other (List.mem_cons_of_mem _ hother)
  between := by
    intro other hother
    cases rest with
    | nil => cases hother
    | cons next rest => exact h.between other (List.mem_cons_of_mem _ hother)

/-- Only the last word may have nothing behind it. -/
lemma Separated.rest_eq_nil {item : Word × List Char} {rest : List (Word × List Char)}
    (h : Separated (item :: rest)) (hempty : item.2 = []) : rest = [] := by
  cases rest with
  | nil => rfl
  | cons next rest => exact absurd hempty (h.between item List.mem_cons_self)

end Word

/-- Separated words are spaced. -/
lemma Word.Separated.spaced {items : List (Word × List Char)} (h : Separated items) :
    Spaced (spread items) (items.map Prod.fst) := by
  induction items with
  | nil => exact .nil
  | cons item rest ih =>
    have hfiller := h.filler item List.mem_cons_self
    have hstops : Token.Stops (item.2 ++ spread rest) :=
      hfiller.stops fun hempty => by rw [h.rest_eq_nil hempty, spread, List.flatMap_nil]
    have hspread : spread (item :: rest) = item.1.text.toList ++ (item.2 ++ spread rest) := by
      rw [spread, List.flatMap_cons, List.append_assoc]
      rfl
    rw [hspread]
    exact .word (h.isLexeme item List.mem_cons_self) (Or.inr hstops) (.filler hfiller (ih h.tail))

/-- Separated words are scanned into themselves. -/
lemma Scan.words_run_separated {items : List (Word × List Char)} (h : Word.Separated items) :
    ∀ place, (run place (Word.spread items)).words = items.map Prod.fst ∧
      (run place (Word.spread items)).failure = none :=
  words_run_spaced h.spaced

/-! ### Flags -/

/-- A lexeme that is a colon with a name is a flag if it is a known one, and a keyword otherwise. -/
lemma Token.IsLexeme.kind_of_colon {kind : Kind} {name : List Char}
    (h : IsLexeme kind (':' :: name)) (hname : isNameText name = true) :
    kind = if Requirement.isKnown (String.ofList (':' :: name)) then .flag else .keyword := by
  split_ifs with hknown
  · exact h.kind_unique (.flag hname hknown)
  · exact h.kind_unique (.keyword hname (Bool.eq_false_iff.mpr hknown))

/-- Separated lexemes are scanned into themselves, each with its kind.  In every text each token is
the longest lexeme at its offset; a colon with a name is a flag if it is a known one up to case, and
a keyword otherwise. -/
theorem scan_separated :
    (∀ lead items, IsFiller lead → Word.Separated items →
      (scan (String.ofList (lead ++ Word.spread items))).words = items.map Prod.fst ∧
        (scan (String.ofList (lead ++ Word.spread items))).failure = none) ∧
    ∀ text, ∀ token ∈ (scan text).tokens,
      Token.IsLongest token.kind token.text.toList (text.toList.drop token.offset) ∧
      ∀ name, token.text.toList = ':' :: name → Token.isNameText name = true →
        token.kind = if Requirement.isKnown token.text then .flag else .keyword := by
  constructor
  · intro lead items hlead hitems
    obtain ⟨after, hafter⟩ := Scan.exists_run_filler hlead (Word.spread items) Place.start
    rw [scan, String.toList_ofList, hafter]
    exact Scan.words_run_separated hitems after
  · intro text token htoken
    have hsplits : Scan.Splits [] text.toList (scan text) := Scan.splits_run rfl
    obtain ⟨head, tail, heq, hplace, hlongest⟩ := hsplits.exists_of_mem htoken
    have hoffset : token.offset = head.length := hplace.offset
    rw [List.nil_append] at heq
    refine ⟨by rwa [heq, hoffset, List.drop_left], fun name htext hname => ?_⟩
    have hlexeme := hlongest.isLexeme
    rw [htext] at hlexeme
    have hofList : token.text = String.ofList (':' :: name) := by
      rw [← htext, String.ofList_toList]
    rw [hofList]
    exact hlexeme.kind_of_colon hname

/-- Words of which the scan could take a part or too much, each before another separator. -/
def mixedItems : List (Word × List Char) :=
  [(⟨.minus, "-"⟩, [' ']), (⟨.number, "-1.5"⟩, ['\t', '\r']),
    (⟨.flag, ":STRIPS"⟩, [';', ')', '\n']), (⟨.keyword, ":strip"⟩, ['\n']),
    (⟨.operator, "<"⟩, ['\x0c']), (⟨.operator, "="⟩, [])]

/-- The words are lexemes and have separators between them. -/
lemma mixedItems_separated : Word.Separated mixedItems where
  isLexeme := by
    simp only [mixedItems, List.forall_mem_cons]
    refine ⟨.minus, ?_, .flag (by decide) (by decide), .keyword (by decide) (by decide),
      .operator (by decide), .operator (by decide), nofun⟩
    exact .negative (show Token.isDigits ['1'] = true by decide)
      (show Token.isFraction ['.', '5'] = true by decide)
  filler := by
    simp only [mixedItems, List.forall_mem_cons]
    have hnewline : IsFiller ['\n'] := .blank (by decide) .nil
    exact ⟨.blank (by decide) .nil, .blank (by decide) (.blank (by decide) .nil),
      .comment (show '\n' ∉ [')'] by decide) hnewline, hnewline, .blank (by decide) .nil, .nil,
      nofun⟩
  between := by decide

/-- The mixed words behind an empty line are scanned into themselves, and so their third token is
the longest lexeme at its offset and a flag. -/
theorem scan_separated_mixed :
    (IsFiller ['\n'] ∧ Word.Separated mixedItems) ∧
      (scan (String.ofList ('\n' :: Word.spread mixedItems))).words = mixedItems.map Prod.fst ∧
      ∃ token ∈ (scan (String.ofList ('\n' :: Word.spread mixedItems))).tokens,
        token.text = ":STRIPS" ∧ Token.isNameText "STRIPS".toList = true ∧ token.kind = .flag ∧
        Token.IsLongest token.kind token.text.toList
          (('\n' :: Word.spread mixedItems).drop token.offset) := by
  have hlead : IsFiller ['\n'] := .blank (by decide) .nil
  have hwords := (scan_separated.1 ['\n'] mixedItems hlead mixedItems_separated).1
  refine ⟨⟨hlead, mixedItems_separated⟩, hwords, ?_⟩
  have hflag : (⟨.flag, ":STRIPS"⟩ : Word) ∈ mixedItems.map Prod.fst := by decide
  rw [← hwords] at hflag
  obtain ⟨token, htoken, hword⟩ := List.mem_map.mp hflag
  have htext : token.text = ":STRIPS" := congrArg Word.text hword
  obtain ⟨hlongest, hkind⟩ := scan_separated.2 _ token htoken
  rw [String.toList_ofList] at hlongest
  have hcolon := hkind "STRIPS".toList (by rw [htext]; decide) (by decide)
  rw [htext] at hcolon
  exact ⟨token, htoken, htext, by decide, hcolon.trans (by decide), hlongest⟩

end Pddl
