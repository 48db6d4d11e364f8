import Mathlib.Data.List.Chain
import Mathlib.Data.List.DropRight
import Mathlib.Order.Bounds.Defs
import Pddl.Proofs.LongestLexeme

/-!
# The scan partitions the text

A text is made up of lexemes, of the blanks, newlines and comments between them, and of a rest that
the scan refuses.  `Scan.Splits` says this as a relation: the text goes on with a filler, with the
longest lexeme after it, and so on.  The scan is such a split (`Scan.splits_run`), and all that
holds of offsets, lines, columns and gaps follows from the split by induction, without another look
at the scan (`scan_partitions`).
-/

namespace Pddl

/-! ### Fillers -/

/-- Blanks, newlines, and comments up to the next newline. -/
inductive IsFiller : List Char → Prop
  | nil : IsFiller []
  | blank {c : Char} {rest : List Char} : c = '\n' ∨ Token.isBlank c = true → IsFiller rest →
      IsFiller (c :: rest)
  | comment {body rest : List Char} : '\n' ∉ body → IsFiller ('\n' :: rest) →
      IsFiller (';' :: (body ++ '\n' :: rest))

/-- A comment that runs up to the end of the text. -/
def IsLastComment (chars : List Char) : Prop :=
  ∃ body, chars = ';' :: body ∧ '\n' ∉ body

/-- Blanks, newlines and comments, the last of which may run up to the end of the text. -/
def IsLastFiller (chars : List Char) : Prop :=
  ∃ filler comment, chars = filler ++ comment ∧ IsFiller filler ∧
    (comment = [] ∨ IsLastComment comment)

/-- Nothing is a filler at the end of a text. -/
lemma isLastFiller_nil : IsLastFiller [] :=
  ⟨[], [], rfl, .nil, Or.inl rfl⟩

/-- A blank before a filler at the end of a text. -/
lemma IsLastFiller.blank {c : Char} {rest : List Char} (hc : c = '\n' ∨ Token.isBlank c = true)
    (h : IsLastFiller rest) : IsLastFiller (c :: rest) := by
  obtain ⟨filler, comment, rfl, hfiller, hcomment⟩ := h
  exact ⟨c :: filler, comment, rfl, .blank hc hfiller, hcomment⟩

/-- A comment before a filler that starts with a newline. -/
lemma IsFiller.comment_append {body filler : List Char} (hbody : '\n' ∉ body)
    (hhead : filler.head? = some '\n') (h : IsFiller filler) :
    IsFiller (';' :: (body ++ filler)) := by
  obtain ⟨rest, rfl⟩ := List.head?_eq_some_iff.mp hhead
  exact .comment hbody h

/-- What separates lexemes and does not start a comment is a blank or a newline. -/
lemma blank_of_isSeparator {c : Char} (h : c = '\n' ∨ Token.isBlank c = true) :
    Token.isSeparator c = true ∧ c ≠ ';' := by
  simp only [Token.isSeparator, Bool.or_eq_true, decide_eq_true_eq]
  refine ⟨Or.inl h, ?_⟩
  rintro rfl
  exact absurd h (by decide)

/-! ### Places -/

/-- The offset just after the last newline of a text; zero if there is none. -/
def lineStart (before : List Char) : Nat :=
  (before.rdropWhile (· ≠ '\n')).length

/-- The place after some text: its line is one more than the number of newlines in the text, and its
column counts from the last of them. -/
def Place.after (before : List Char) : Place where
  line := 1 + before.count '\n'
  column := before.length - lineStart before
  offset := before.length

namespace Place

/-- Moving to the right twice. -/
lemma right_right (place : Place) (m n : Nat) : (place.right m).right n = place.right (m + n) := by
  simp [right, Nat.add_assoc]

variable {before : List Char}

/-- The place after a newline is the start of the next line. -/
lemma after_newline : after (before ++ ['\n']) = (after before).nextLine := by
  have hstart : lineStart (before ++ ['\n']) = before.length + 1 := by
    rw [lineStart, List.rdropWhile_concat_neg _ _ _ (by decide), List.length_append]
    rfl
  simp [after, nextLine, hstart, Nat.add_assoc]

/-- Another character moves the place by one column. -/
lemma after_concat {c : Char} (hc : c ≠ '\n') :
    after (before ++ [c]) = (after before).right 1 := by
  have hstart : lineStart (before ++ [c]) = lineStart before := by
    rw [lineStart, List.rdropWhile_concat_pos _ _ _ (by simp [hc])]
    rfl
  have hle : lineStart before ≤ before.length := (List.rdropWhile_prefix _ _).length_le
  have hcount : [c].count '\n' = 0 := List.count_eq_zero.mpr (by simpa using Ne.symm hc)
  have hcolumn : before.length + 1 - lineStart before = before.length - lineStart before + 1 :=
    Nat.sub_add_comm hle
  simp [after, right, hstart, hcolumn, hcount]

/-- A text without newlines moves the place by as many columns as it has characters. -/
lemma after_append {chars : List Char} (h : '\n' ∉ chars) :
    after (before ++ chars) = (after before).right chars.length := by
  induction chars generalizing before with
  | nil => simp [right]
  | cons c rest ih =>
    rw [List.mem_cons, not_or] at h
    rw [← List.singleton_append, ← List.append_assoc, ih h.2, after_concat (Ne.symm h.1),
      right_right, List.singleton_append, List.length_cons, Nat.add_comm]

/-- A comment moves the place to the end of its line. -/
lemma after_comment (rest : List Char) :
    after (before ++ ';' :: rest.takeWhile (· ≠ '\n')) =
      (after before).right (1 + (rest.takeWhile (· ≠ '\n')).length) := by
  have hbody : '\n' ∉ rest.takeWhile (· ≠ '\n') :=
    fun hmem => absurd (List.mem_takeWhile_imp hmem) (by simp)
  have hcomment : '\n' ∉ ';' :: rest.takeWhile (· ≠ '\n') := by
    simpa using hbody
  rw [after_append hcomment, List.length_cons, Nat.add_comm]

/-- A lexeme moves the place to the character after it. -/
lemma after_lexeme {c : Char} {rest : List Char} {kind : Token.Kind} {n : Nat}
    (h : Token.lexeme? c rest = some (kind, n)) :
    after (before ++ c :: rest.take n) = (after before).right (1 + n) := by
  have hlongest := Token.isLongest_ofLexeme h start
  have hplain : '\n' ∉ c :: rest.take n := fun hmem =>
    absurd (hlongest.isLexeme.isSeparator_eq_false _ hmem) (by decide)
  rw [after_append hplain, List.length_cons, List.length_take,
    Nat.min_eq_left (Token.lexeme?_le h), Nat.add_comm]

end Place

/-- The token stands at the place. -/
structure Token.StandsAt (token : Token) (place : Place) : Prop where
  line : token.line = place.line
  column : token.column = place.column
  offset : token.offset = place.offset

/-! ### Splits -/

/-- The scan yields for the characters, which come after the text `before`, what they are made of:
fillers, the longest lexeme after each of them, and at the end a last filler or a character with
which nothing starts. -/
inductive Scan.Splits : List Char → List Char → Scan → Prop
  | done {before filler : List Char} : IsLastFiller filler → Splits before filler ⟨[], none⟩
  | stuck {before filler : List Char} {c : Char} {rest : List Char} : IsFiller filler →
      Token.isSeparator c = false →
      (∀ kind piece, piece <+: c :: rest → ¬ Token.IsLexeme kind piece) →
      Splits before (filler ++ c :: rest) ⟨[], some ⟨c, Place.after (before ++ filler)⟩⟩
  | token {before filler rest : List Char} {token : Token} {scan : Scan} : IsFiller filler →
      Token.IsLongest token.kind token.text.toList (token.text.toList ++ rest) →
      token.StandsAt (Place.after (before ++ filler)) →
      Splits (before ++ (filler ++ token.text.toList)) rest scan →
      Splits before (filler ++ (token.text.toList ++ rest)) (scan.cons token)

namespace Scan

variable {before chars rest : List Char} {scan : Scan}

/-- A blank in front of a text belongs to its first filler. -/
lemma Splits.blank {c : Char} (hc : c = '\n' ∨ Token.isBlank c = true)
    (h : Splits (before ++ [c]) rest scan) : Splits before (c :: rest) scan := by
  cases h with
  | done hfiller => exact .done (hfiller.blank hc)
  | stuck hfiller hseparator hnone =>
    rw [List.append_assoc, ← List.cons_append]
    exact .stuck (.blank hc hfiller) hseparator hnone
  | token hfiller hlongest hplace hrest =>
    rw [List.append_assoc] at hplace hrest
    exact .token (.blank hc hfiller) hlongest hplace hrest

/-- If a text starts with a newline, so does the filler in front of the first character that
separates no lexemes. -/
lemma head?_filler {filler more : List Char} {c : Char} (hc : Token.isSeparator c = false)
    (h : ∀ d ∈ (filler ++ c :: more).head?, d = '\n') : filler.head? = some '\n' := by
  cases filler with
  | nil =>
    obtain rfl : c = '\n' := h c rfl
    exact absurd hc (by decide)
  | cons first filler => rw [List.head?_cons, h first rfl]

/-- A comment in front of a text that starts with a newline, or of nothing, belongs to its first
filler. -/
lemma Splits.comment {body : List Char} (hbody : '\n' ∉ body)
    (hhead : ∀ c ∈ rest.head?, c = '\n') (h : Splits (before ++ ';' :: body) rest scan) :
    Splits before (';' :: (body ++ rest)) scan := by
  cases h with
  | done hfiller =>
    obtain ⟨filler, comment, rfl, hfiller, hcomment⟩ := hfiller
    cases filler with
    | nil =>
      -- What is left is no comment, as it would have to start with a newline.
      rcases hcomment with rfl | ⟨body', rfl, -⟩
      · exact .done ⟨[], _, rfl, .nil, Or.inr ⟨body, by simp, hbody⟩⟩
      · exact absurd (hhead _ rfl) (by decide)
    | cons c filler =>
      obtain rfl : c = '\n' := hhead c rfl
      exact .done ⟨';' :: (body ++ '\n' :: filler), comment, by simp, .comment hbody hfiller,
        hcomment⟩
  | stuck hfiller hseparator hnone =>
    have hfirst := head?_filler hseparator hhead
    rw [List.append_assoc, ← List.append_assoc, ← List.cons_append]
    exact .stuck (hfiller.comment_append hbody hfirst) hseparator hnone
  | @token _ filler more token scan hfiller hlongest hplace hmore =>
    obtain ⟨c, text, htext⟩ := List.exists_cons_of_ne_nil hlongest.isLexeme.ne_nil
    have hseparator : Token.isSeparator c = false :=
      hlongest.isLexeme.isSeparator_eq_false c (by simp [htext])
    have hfirst : filler.head? = some '\n' := by
      rw [htext, List.cons_append] at hhead
      exact head?_filler hseparator hhead
    rw [List.append_assoc, List.cons_append] at hplace hmore
    rw [← List.append_assoc, ← List.cons_append]
    exact .token (hfiller.comment_append hbody hfirst) hlongest hplace (by simpa using hmore)

/-- A lexeme in front of a text comes after the empty filler. -/
lemma Splits.lexeme {token : Token} (h : Splits (before ++ token.text.toList) rest scan)
    (hlongest : Token.IsLongest token.kind token.text.toList (token.text.toList ++ rest))
    (hplace : token.StandsAt (Place.after before)) :
    Splits before (token.text.toList ++ rest) (scan.cons token) := by
  rw [← List.append_nil before] at hplace
  exact .token .nil hlongest hplace h

/-- The scan of a text splits it. -/
lemma splits_run {place : Place} (h : place = Place.after before) :
    Splits before chars (run place chars) := by
  fun_induction run place chars generalizing before with
  | case1 => exact .done isLastFiller_nil
  | case2 place rest ih =>
    refine .blank (Or.inl rfl) (ih ?_)
    rw [h, Place.after_newline]
  | case3 place c rest hnewline hblank ih =>
    refine .blank (Or.inr hblank) (ih ?_)
    rw [h, Place.after_concat hnewline]
  | case4 place rest hnewline hblank ih =>
    have hbody : '\n' ∉ rest.takeWhile (· ≠ '\n') :=
      fun hmem => absurd (List.mem_takeWhile_imp hmem) (by simp)
    have hhead : ∀ c ∈ (rest.dropWhile (· ≠ '\n')).head?, c = '\n' := by
      intro c hc
      have hstop := List.head?_dropWhile_not (· ≠ '\n') rest
      rw [Option.mem_def.mp hc] at hstop
      simpa using hstop
    have hrest := Splits.comment hbody hhead (ih (by rw [h, Place.after_comment]))
    rwa [List.takeWhile_append_dropWhile] at hrest
  | case5 place c rest hnewline hblank hcomment hnone =>
    have hseparator : Token.isSeparator c = false := by
      simp [Token.isSeparator, hnewline, hblank, hcomment]
    have hstuck : Splits before ([] ++ c :: rest) ⟨[], some ⟨c, Place.after (before ++ [])⟩⟩ :=
      .stuck .nil hseparator fun kind piece => Token.not_isLexeme_of_lexeme?_eq_none hnone
    rwa [List.append_nil, ← h] at hstuck
  | case6 place c rest hnewline hblank hcomment kind n hfound ih =>
    have hlongest := Token.isLongest_ofLexeme hfound place
    have hrest := ih (by rw [h, Place.after_lexeme hfound])
    have htext : (Token.ofLexeme kind (c :: rest.take n) place).text.toList = c :: rest.take n :=
      String.toList_ofList
    rw [← htext] at hrest hlongest
    have hsplit := hrest.lexeme (by rwa [htext, List.cons_append, List.take_append_drop, ← htext])
      ⟨by rw [← h]; rfl, by rw [← h]; rfl, by rw [← h]; rfl⟩
    rwa [htext, List.cons_append, List.take_append_drop] at hsplit

/-! ### Tokens -/

/-- A token of a split stands in the text, behind some text and in front of some other, and is the
longest lexeme there. -/
lemma Splits.exists_of_mem {token : Token} (h : Splits before chars scan)
    (htoken : token ∈ scan.tokens) :
    ∃ head tail, before ++ chars = head ++ (token.text.toList ++ tail) ∧
      token.StandsAt (Place.after head) ∧
      Token.IsLongest token.kind token.text.toList (token.text.toList ++ tail) := by
  induction h with
  | done => cases htoken
  | stuck => cases htoken
  | @token before filler rest first scan hfiller hlongest hplace _ ih =>
    rcases List.mem_cons.mp htoken with rfl | htoken
    · exact ⟨before ++ filler, rest, by simp, hplace, hlongest⟩
    · obtain ⟨head, tail, heq, hfacts⟩ := ih htoken
      exact ⟨head, tail, by rw [← heq]; simp, hfacts⟩

/-! ### Gaps -/

end Scan

/-- The offset after a token. -/
def Token.endOffset (token : Token) : Nat :=
  token.offset + token.text.length

/-- From one offset to another there are only blanks, newlines, and comments up to the next
newline. -/
structure FillsGap (chars : List Char) (start stop : Nat) : Prop where
  le : start ≤ stop
  filler : IsFiller ((chars.take stop).drop start)

/-- A filler fills the gap that it makes. -/
lemma IsFiller.fillsGap {filler : List Char} (h : IsFiller filler) (head tail : List Char) :
    FillsGap (head ++ (filler ++ tail)) head.length (head ++ filler).length where
  le := by simp
  filler := by
    rw [← List.append_assoc, List.take_left, List.drop_left]
    exact h

namespace Scan

variable {before chars rest : List Char} {scan : Scan}

/-- The offset after the last token; the given one if there is no token. -/
def endFrom (start : Nat) (scan : Scan) : Nat :=
  (scan.tokens.getLast?.map Token.endOffset).getD start

/-- A first token does not change where the tokens end, unless there are no others. -/
lemma endFrom_cons (start : Nat) (token : Token) :
    (scan.cons token).endFrom start = scan.endFrom token.endOffset := by
  simp only [endFrom, cons, List.getLast?_cons, Option.map_some, Option.getD_some]
  exact (Option.getD_map _ _ _).symm

/-- Where a token of a split ends. -/
lemma endOffset_of_standsAt {token : Token} {head : List Char}
    (h : token.StandsAt (Place.after head)) :
    token.endOffset = (head ++ token.text.toList).length := by
  rw [Token.endOffset, h.offset, List.length_append, String.length_toList]
  rfl

/-- The gap in front of the first token. -/
lemma Splits.first (h : Splits before chars scan) :
    ∀ token ∈ scan.tokens.head?, FillsGap (before ++ chars) before.length token.offset := by
  cases h with
  | done => nofun
  | stuck => nofun
  | token hfiller _ hplace _ =>
    rintro _ ⟨⟩
    rw [hplace.offset]
    exact hfiller.fillsGap _ _

/-- The gaps between tokens. -/
lemma Splits.between (h : Splits before chars scan) :
    scan.tokens.IsChain fun token next =>
      FillsGap (before ++ chars) token.endOffset next.offset := by
  induction h with
  | done => exact .nil
  | stuck => exact .nil
  | token hfiller _ hplace hrest ih =>
    have hfirst := hrest.first
    simp only [List.append_assoc] at ih hfirst
    refine List.isChain_cons.mpr ⟨?_, ih⟩
    rw [endOffset_of_standsAt hplace, List.append_assoc]
    exact hfirst

/-- The gap after the last token, up to the end of the text or up to its error. -/
lemma Splits.last (h : Splits before chars scan) :
    (scan.failure = none →
      IsLastFiller ((before ++ chars).drop (scan.endFrom before.length))) ∧
    ∀ error ∈ scan.failure,
      FillsGap (before ++ chars) (scan.endFrom before.length) error.place.offset := by
  induction h with
  | done hfiller =>
    refine ⟨fun _ => ?_, nofun⟩
    simpa [endFrom] using hfiller
  | stuck hfiller =>
    refine ⟨nofun, ?_⟩
    rintro _ ⟨⟩
    exact hfiller.fillsGap _ _
  | token hfiller _ hplace hrest ih =>
    rw [endFrom_cons, endOffset_of_standsAt hplace, List.append_assoc]
    simp only [List.append_assoc] at ih ⊢
    exact ih

/-! ### Comments -/

end Scan

/-- A comment is open at the end of a text: there is a semicolon with no newline after it. -/
def OpensComment (before : List Char) : Prop :=
  ∃ head line, before = head ++ ';' :: line ∧ '\n' ∉ line

variable {before chars : List Char}

/-- No comment is open before the first character. -/
lemma not_opensComment_nil : ¬ OpensComment [] := by
  rintro ⟨head, line, heq, -⟩
  simp at heq

/-- A semicolon opens a comment, and a newline closes it. -/
lemma opensComment_concat {c : Char} :
    OpensComment (before ++ [c]) ↔ c = ';' ∨ c ≠ '\n' ∧ OpensComment before := by
  constructor
  · rintro ⟨head, line, heq, hline⟩
    rcases List.eq_nil_or_concat' line with rfl | ⟨line, d, rfl⟩
    · exact Or.inl (by simpa using (List.append_inj' heq rfl).2)
    · rw [← List.cons_append, ← List.append_assoc] at heq
      obtain ⟨rfl, hlast⟩ := List.append_inj' heq rfl
      obtain rfl : c = d := by simpa using hlast
      simp only [List.mem_append, List.mem_singleton, not_or] at hline
      exact Or.inr ⟨Ne.symm hline.2, head, line, rfl, hline.1⟩
  · rintro (rfl | ⟨hc, head, line, rfl, hline⟩)
    · exact ⟨before, [], rfl, List.not_mem_nil⟩
    · refine ⟨head, line ++ [c], by simp, ?_⟩
      simp [hline, Ne.symm hc]

/-- A text without semicolons opens no comment. -/
lemma not_opensComment_append (h : ¬ OpensComment before) (hchars : ';' ∉ chars) :
    ¬ OpensComment (before ++ chars) := by
  induction chars generalizing before with
  | nil => rwa [List.append_nil]
  | cons c rest ih =>
    rw [List.mem_cons, not_or] at hchars
    rw [← List.singleton_append, ← List.append_assoc]
    refine ih ?_ hchars.2
    rw [opensComment_concat]
    exact not_or.mpr ⟨Ne.symm hchars.1, fun hopen => h hopen.2⟩

/-- A filler closes the comments that it opens, and those open before it if it starts with a
newline. -/
lemma IsFiller.not_opensComment {filler : List Char} (h : IsFiller filler) :
    ∀ {before : List Char}, ¬ OpensComment before ∨ filler.head? = some '\n' →
      ¬ OpensComment (before ++ filler) := by
  induction h with
  | nil =>
    intro before hclosed
    rw [List.append_nil]
    exact hclosed.resolve_right nofun
  | @blank c rest hc _ ih =>
    intro before hclosed
    rw [← List.singleton_append, ← List.append_assoc]
    refine ih (Or.inl ?_)
    rw [opensComment_concat]
    refine not_or.mpr ⟨(blank_of_isSeparator hc).2, fun hopen => ?_⟩
    rcases hclosed with hclosed | hhead
    · exact hclosed hopen.2
    · exact hopen.1 (Option.some.inj hhead)
  | @comment body rest _ _ ih =>
    intro before _
    rw [← List.cons_append, ← List.append_assoc]
    exact ih (Or.inr rfl)

/-- A character at an offset is skipped by the scan: a comment is open there, or a blank, a newline
or a comment starts there. -/
def IsSkipped (chars : List Char) (offset : Nat) : Prop :=
  OpensComment (chars.take (offset + 1)) ∨ ∃ c ∈ chars[offset]?, Token.isSeparator c = true

/-- The characters of an open comment are skipped. -/
lemma isSkipped_of_comment {head line : List Char} {offset : Nat} (hline : '\n' ∉ line)
    (hle : head.length ≤ offset) (hlt : offset < (head ++ ';' :: line).length)
    (tail : List Char) :
    IsSkipped (head ++ ';' :: (line ++ tail)) offset := by
  refine Or.inl ⟨head, line.take (offset - head.length), ?_, fun hmem =>
    hline (List.mem_of_mem_take hmem)⟩
  rw [List.length_append, List.length_cons] at hlt
  rw [List.take_append, List.take_of_length_le (by omega), Nat.sub_add_comm hle,
    List.take_succ_cons, List.take_append_of_le_length (by omega)]

/-- The characters of a filler are skipped. -/
lemma IsFiller.isSkipped {filler : List Char} (h : IsFiller filler) :
    ∀ {head tail : List Char} {offset : Nat}, head.length ≤ offset →
      offset < (head ++ filler).length → IsSkipped (head ++ (filler ++ tail)) offset := by
  induction h with
  | nil =>
    intro head tail offset hle hlt
    rw [List.append_nil] at hlt
    omega
  | @blank c rest hc _ ih =>
    intro head tail offset hle hlt
    rcases Nat.eq_or_lt_of_le hle with rfl | hpast
    · exact Or.inr ⟨c, by simp, (blank_of_isSeparator hc).1⟩
    · have hrest := @ih (head ++ [c]) tail offset (by rwa [List.length_append]) (by simpa using hlt)
      simpa using hrest
  | @comment body rest hbody _ ih =>
    intro head tail offset hle hlt
    by_cases hinside : offset < (head ++ ';' :: body).length
    · have hskipped := isSkipped_of_comment hbody hle hinside ('\n' :: rest ++ tail)
      simpa using hskipped
    · have hrest := @ih (head ++ ';' :: body) tail offset (by omega) (by simpa using hlt)
      simpa using hrest

/-- The characters of a filler at the end of a text are skipped. -/
lemma IsLastFiller.isSkipped {filler head : List Char} {offset : Nat} (h : IsLastFiller filler)
    (hle : head.length ≤ offset) (hlt : offset < (head ++ filler).length) :
    IsSkipped (head ++ filler) offset := by
  obtain ⟨filler, comment, rfl, hfiller, hcomment⟩ := h
  by_cases hinside : offset < (head ++ filler).length
  · exact hfiller.isSkipped hle hinside
  · rcases hcomment with rfl | ⟨body, rfl, hbody⟩
    · rw [List.append_nil] at hlt
      exact absurd hlt hinside
    · rw [← List.append_assoc] at hlt
      have hskipped := isSkipped_of_comment hbody (not_lt.mp hinside) hlt []
      simpa using hskipped

/-! ### Errors -/

namespace Scan

variable {before chars rest : List Char} {scan : Scan}

/-- The character at the offset belongs to the token. -/
def Covers (token : Token) (offset : Nat) : Prop :=
  token.offset ≤ offset ∧ offset < token.endOffset

/-- Up to its end or its error, a text consists of tokens and of what is skipped. -/
lemma Splits.covered (h : Splits before chars scan) {offset : Nat}
    (hle : before.length ≤ offset) (hlt : offset < (before ++ chars).length)
    (herror : ∀ error ∈ scan.failure, offset < error.place.offset) :
    (∃ token ∈ scan.tokens, Covers token offset) ∨ IsSkipped (before ++ chars) offset := by
  induction h with
  | done hfiller => exact Or.inr (hfiller.isSkipped hle hlt)
  | stuck hfiller =>
    exact Or.inr (hfiller.isSkipped hle (herror _ rfl))
  | @token before filler rest token scan hfiller _ hplace _ ih =>
    by_cases hgap : offset < (before ++ filler).length
    · exact Or.inr (hfiller.isSkipped hle hgap)
    by_cases hinside : offset < token.endOffset
    · refine Or.inl ⟨token, List.mem_cons_self, ?_, hinside⟩
      rw [hplace.offset]
      exact not_lt.mp hgap
    rw [endOffset_of_standsAt hplace, List.append_assoc] at hinside
    rcases ih (not_lt.mp hinside) (by simpa using hlt) herror with ⟨other, hmem, hcovers⟩ | hskipped
    · exact Or.inl ⟨other, List.mem_cons_of_mem _ hmem, hcovers⟩
    · exact Or.inr (by simpa using hskipped)

/-- An error of a split is a character behind some text, with which nothing starts; no token reaches
as far as it, and no comment is open there. -/
lemma Splits.exists_of_failure {error : LexError} (h : Splits before chars scan)
    (herror : error ∈ scan.failure) :
    ∃ head tail, before ++ chars = head ++ error.char :: tail ∧ error.place = Place.after head ∧
      Token.isSeparator error.char = false ∧
      (∀ kind piece, piece <+: error.char :: tail → ¬ Token.IsLexeme kind piece) ∧
      before.length ≤ head.length ∧ (∀ token ∈ scan.tokens, token.endOffset ≤ head.length) ∧
      (¬ OpensComment before → ¬ OpensComment head) := by
  induction h with
  | done => cases herror
  | @stuck before filler c rest hfiller hseparator hnone =>
    cases herror
    exact ⟨before ++ filler, rest, by simp, rfl, hseparator, hnone, by simp, nofun,
      fun hclosed => hfiller.not_opensComment (Or.inl hclosed)⟩
  | @token before filler rest token scan hfiller hlongest hplace _ ih =>
    obtain ⟨head, tail, heq, hat, hseparator, hnone, hle, hends, hclosed⟩ := ih herror
    have hsemicolon : ';' ∉ token.text.toList := fun hmem =>
      absurd (hlongest.isLexeme.isSeparator_eq_false _ hmem) (by decide)
    have hend := endOffset_of_standsAt hplace
    rw [List.append_assoc] at hend
    refine ⟨head, tail, by rw [← heq]; simp, hat, hseparator, hnone, ?_, ?_, fun hbefore => ?_⟩
    · rw [List.length_append] at hle
      omega
    · intro other hother
      rcases List.mem_cons.mp hother with rfl | hother
      · rwa [hend]
      · exact hends other hother
    · refine hclosed ?_
      rw [← List.append_assoc]
      exact not_opensComment_append (hfiller.not_opensComment (Or.inl hbefore)) hsemicolon

/-- At the offset, outside of tokens and comments, neither a lexeme nor anything that is skipped
starts. -/
structure IsStuckAt (scan : Scan) (chars : List Char) (offset : Nat) : Prop where
  inside : offset < chars.length
  outside : ∀ token ∈ scan.tokens, ¬ Covers token offset
  skipped : ¬ IsSkipped chars offset
  lexeme : ∀ kind piece, piece <+: chars.drop offset → ¬ Token.IsLexeme kind piece

/-- What a scan yields partitions the characters of a text: each token is a piece of the text, and
between the tokens, in front of them and behind them there are only blanks, newlines and comments,
up to the end or to the first offset at which nothing starts.  All places are those of the
offsets. -/
structure Partitions (scan : Scan) (chars : List Char) : Prop where
  spelled : ∀ token ∈ scan.tokens, token.text ≠ "" ∧
    (chars.drop token.offset).take token.text.length = token.text.toList
  first : ∀ token ∈ scan.tokens.head?, FillsGap chars 0 token.offset
  between : scan.tokens.IsChain fun token next => FillsGap chars token.endOffset next.offset
  last : scan.failure = none → IsLastFiller (chars.drop (scan.endFrom 0))
  beforeError : ∀ error ∈ scan.failure, FillsGap chars (scan.endFrom 0) error.place.offset
  located : ∀ token ∈ scan.tokens, token.StandsAt (Place.after (chars.take token.offset))
  errorLocated : ∀ error ∈ scan.failure,
    error.place = Place.after (chars.take error.place.offset) ∧
      chars[error.place.offset]? = some error.char
  errorLeast : ∀ error ∈ scan.failure, IsLeast {offset | scan.IsStuckAt chars offset}
    error.place.offset

/-- The tokens of a split are pieces of the text. -/
lemma Splits.spelled {token : Token} (h : Splits [] chars scan) (htoken : token ∈ scan.tokens) :
    token.text ≠ "" ∧ (chars.drop token.offset).take token.text.length = token.text.toList := by
  obtain ⟨head, tail, heq, hplace, hlongest⟩ := h.exists_of_mem htoken
  have hoffset : token.offset = head.length := hplace.offset
  rw [List.nil_append] at heq
  refine ⟨fun hempty => hlongest.isLexeme.ne_nil (by rw [hempty]; rfl), ?_⟩
  rw [heq, hoffset, List.drop_left, ← String.length_toList, List.take_left]

/-- The tokens of a split are at the places of their offsets. -/
lemma Splits.located {token : Token} (h : Splits [] chars scan) (htoken : token ∈ scan.tokens) :
    token.StandsAt (Place.after (chars.take token.offset)) := by
  obtain ⟨head, tail, heq, hplace, -⟩ := h.exists_of_mem htoken
  have hoffset : token.offset = head.length := hplace.offset
  rw [List.nil_append] at heq
  rwa [heq, hoffset, List.take_left]

/-- The error of a split is at the place of its offset. -/
lemma Splits.errorLocated {error : LexError} (h : Splits [] chars scan)
    (herror : error ∈ scan.failure) :
    error.place = Place.after (chars.take error.place.offset) ∧
      chars[error.place.offset]? = some error.char := by
  obtain ⟨head, tail, heq, hplace, -⟩ := h.exists_of_failure herror
  rw [List.nil_append] at heq
  have hoffset : error.place.offset = head.length := by rw [hplace]; rfl
  rw [hoffset, heq, List.take_left]
  exact ⟨hplace, by simp⟩

/-- Nothing starts where the error of a split is. -/
lemma Splits.isStuckAt {error : LexError} (h : Splits [] chars scan)
    (herror : error ∈ scan.failure) : scan.IsStuckAt chars error.place.offset := by
  obtain ⟨head, tail, heq, hplace, hseparator, hnone, -, hends, hclosed⟩ :=
    h.exists_of_failure herror
  rw [List.nil_append] at heq
  have hoffset : error.place.offset = head.length := by rw [hplace]; rfl
  rw [hoffset, heq]
  refine ⟨by simp, fun token htoken hcovers => ?_, ?_, by simpa using hnone⟩
  · have hend := hends token htoken
    have hlt := hcovers.2
    omega
  · rintro (hopen | ⟨c, hc, hskip⟩)
    · rw [List.take_append, List.take_of_length_le (Nat.le_succ _), Nat.add_sub_cancel_left,
        List.take_succ_cons, List.take_zero, opensComment_concat] at hopen
      rcases hopen with hsemicolon | ⟨-, hopen⟩
      · rw [hsemicolon] at hseparator
        cases hseparator
      · exact hclosed not_opensComment_nil hopen
    · obtain rfl : error.char = c := by simpa using hc
      rw [hseparator] at hskip
      cases hskip

/-- Something starts at every offset before the error of a split, or goes on there. -/
lemma Splits.le_of_isStuckAt {error : LexError} {offset : Nat} (h : Splits [] chars scan)
    (herror : error ∈ scan.failure) (hstuck : scan.IsStuckAt chars offset) :
    error.place.offset ≤ offset := by
  by_contra hlt
  have hbefore : ∀ other ∈ scan.failure, offset < other.place.offset := by
    intro other hother
    obtain rfl := Option.some.inj ((Option.mem_def.mp herror).symm.trans hother)
    exact not_le.mp hlt
  rcases h.covered (Nat.zero_le offset) hstuck.inside hbefore with ⟨token, htoken, hcovers⟩ | hskip
  · exact hstuck.outside token htoken hcovers
  · exact hstuck.skipped hskip

end Scan

/-- The scan of every text partitions it. -/
theorem scan_partitions (text : String) : (scan text).Partitions text.toList := by
  have h : Scan.Splits [] text.toList (scan text) := Scan.splits_run rfl
  constructor
  · exact fun token htoken => h.spelled htoken
  · exact h.first
  · exact h.between
  · exact h.last.1
  · exact h.last.2
  · exact fun token htoken => h.located htoken
  · exact fun error herror => h.errorLocated herror
  · exact fun error herror => ⟨h.isStuckAt herror, fun offset => h.le_of_isStuckAt herror⟩

end Pddl
