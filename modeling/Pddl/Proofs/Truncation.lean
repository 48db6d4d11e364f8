import Pddl.Proofs.Enclosure
import Pddl.Proofs.Partition

/-!
# Truncated documents

The first characters of a text are scanned into tokens of the text and at most some more, from a
lexeme that is cut; of these none is a closing parenthesis, as this is a lexeme that cannot be cut
(`Scan.isTruncation_run_take`).  So the first parenthesis is closed in the truncated text by the
same token as in the text, or not at all, and what ends before that token is no document
(`parse_rejectsTruncations`).
-/

namespace Pddl

/-! ### Lexemes of truncated texts -/

namespace Token

/-- What a truncated text starts with, the text starts with. -/
lemma cons_take_take_isPrefix (c : Char) (rest : List Char) (n k : Nat) :
    c :: (rest.take n).take k <+: c :: rest :=
  List.cons_prefix_cons.mpr ⟨rfl, (List.take_prefix k _).trans (List.take_prefix n rest)⟩

/-- A lexeme that is not cut is found in the truncated text. -/
lemma exists_lexeme?_take {c : Char} {rest : List Char} {kind : Kind} {m n : Nat} (place : Place)
    (h : lexeme? c rest = some (kind, m)) (hle : m ≤ n) :
    ∃ found, lexeme? c (rest.take n) = some (found, m) ∧
      ofLexeme found (c :: rest.take m) place = ofLexeme kind (c :: rest.take m) place := by
  have hlongest := isLongest_ofLexeme h place
  have hwhole : rest.take m ++ (rest.take n).drop m = rest.take n := by
    have htake : (rest.take n).take m = rest.take m := by rw [List.take_take, Nat.min_eq_left hle]
    rw [← htake, List.take_append_drop]
  obtain ⟨found, k, hfound, hk⟩ := exists_lexeme? ((rest.take n).drop m) hlongest.isLexeme
  rw [hwhole] at hfound
  -- A longer lexeme of the truncated text would be one of the text.
  have hlexeme := isLexeme_ofLexeme hfound place
  have hlength := hlongest.length_le _ _ (cons_take_take_isPrefix c rest n k) hlexeme
  have hm := lexeme?_le h
  have hkn := lexeme?_le hfound
  simp only [List.length_cons, List.length_take] at hlength hk hkn
  obtain rfl : k = m := by omega
  rw [List.take_take, Nat.min_eq_left hle] at hlexeme
  have hkind := hlexeme.kind_unique hlongest.isLexeme
  refine ⟨found, hfound, ?_⟩
  simp only [ofLexeme] at hkind ⊢
  rw [hkind]

/-- In a text that starts with no lexeme, none is found after truncation. -/
lemma lexeme?_take_eq_none {c : Char} {rest : List Char} (h : lexeme? c rest = none) (n : Nat) :
    lexeme? c (rest.take n) = none := by
  cases hfound : lexeme? c (rest.take n) with
  | none => rfl
  | some found =>
    obtain ⟨kind, k⟩ := found
    exact absurd (isLexeme_ofLexeme hfound Place.start)
      (not_isLexeme_of_lexeme?_eq_none h (cons_take_take_isPrefix c rest n k))

/-- A lexeme that is cut has no closing parenthesis. -/
lemma close_notMem_take {c : Char} {rest : List Char} {kind : Kind} {m n : Nat}
    (h : lexeme? c rest = some (kind, m)) (hlt : n < m) : ')' ∉ c :: rest.take n := by
  intro hclose
  have hstarts : c :: rest.take n <+: c :: rest.take m :=
    List.cons_prefix_cons.mpr ⟨rfl, List.take_prefix_take_left hlt.le⟩
  have hone := (isLexeme_ofLexeme h Place.start).eq_of_mem_close (hstarts.subset hclose)
  have hlength := congrArg List.length hone
  have hm := lexeme?_le h
  simp only [List.length_cons, List.length_take, List.length_nil] at hlength
  omega

/-- A token that opens a parenthesis has the parenthesis as its text. -/
lemma IsLexeme.eq_open {chars : List Char} (h : IsLexeme .openParen chars) : chars = ['('] := by
  cases h
  rfl

/-- A token that closes a parenthesis has the parenthesis as its text. -/
lemma IsLexeme.eq_close {chars : List Char} (h : IsLexeme .closeParen chars) : chars = [')'] := by
  cases h
  rfl

end Token

/-! ### Scans of truncated texts -/

/-- The tokens start as the others do, and close no parenthesis after that. -/
def IsTruncation (tokens whole : List Token) : Prop :=
  ∃ kept cut, tokens = kept ++ cut ∧ kept <+: whole ∧ ∀ token ∈ cut, token.kind ≠ .closeParen

namespace IsTruncation

variable {tokens whole : List Token}

/-- Tokens that close no parenthesis. -/
lemma of_not_close (h : ∀ token ∈ tokens, token.kind ≠ .closeParen) : IsTruncation tokens whole :=
  ⟨[], tokens, rfl, List.nil_prefix, h⟩

/-- No tokens. -/
lemma nil : IsTruncation [] whole :=
  of_not_close nofun

/-- The same token in front. -/
lemma cons (h : IsTruncation tokens whole) (token : Token) :
    IsTruncation (token :: tokens) (token :: whole) := by
  obtain ⟨kept, cut, rfl, hkept, hcut⟩ := h
  exact ⟨token :: kept, cut, rfl, List.cons_prefix_cons.mpr ⟨rfl, hkept⟩, hcut⟩

/-- A parenthesis that is closed was closed before the cut. -/
lemma closesFirst {closing : Token} (h : IsTruncation tokens whole)
    (hclosing : closing.ClosesFirst tokens) :
    ∃ kept, kept <+: whole ∧ closing.ClosesFirst kept := by
  obtain ⟨kept, cut, htokens, hkept, hcut⟩ := h
  obtain ⟨opening, inner, rest, rfl, hopen, hinner, hclose⟩ := hclosing
  have hnotCut : closing ∉ cut := fun hmem => hcut closing hmem hclose
  rw [← List.cons_append] at htokens
  rcases List.append_eq_append_iff.mp htokens with ⟨behind, hkeptEq, hrest⟩ | ⟨front, -, hcutEq⟩
  · cases behind with
    | nil => exact absurd (by rw [← List.nil_append cut, ← hrest]; simp) hnotCut
    | cons first behind =>
      obtain ⟨rfl, -⟩ := List.cons.inj hrest
      exact ⟨kept, hkept, opening, inner, behind, hkeptEq, hopen, hinner, hclose⟩
  · exact absurd (by rw [hcutEq]; simp) hnotCut

end IsTruncation

/-- The characters that pass a test at the start of a truncated text are the truncated ones, and so
are those after them. -/
lemma takeWhile_take {p : Char → Bool} (chars : List Char) (n : Nat) :
    (chars.take n).takeWhile p = (chars.takeWhile p).take n ∧
      (chars.take n).dropWhile p = (chars.dropWhile p).take (n - (chars.takeWhile p).length) := by
  induction chars generalizing n with
  | nil => simp
  | cons c rest ih =>
    cases n with
    | zero => simp
    | succ n =>
      obtain ⟨htake, hdrop⟩ := ih n
      cases hc : p c with
      | true => simp [hc, htake, hdrop]
      | false => simp [hc]

namespace Scan

/-- The characters of a token are characters of the text. -/
lemma mem_of_mem_run {place : Place} {chars : List Char} {token : Token}
    (h : token ∈ (run place chars).tokens) : ∀ c ∈ token.text.toList, c ∈ chars := by
  have hword : token.word ∈ (run Place.start chars).words := by
    rw [← (words_run_place place Place.start chars).1]
    exact List.mem_map_of_mem h
  obtain ⟨token', htoken', heq⟩ := List.mem_map.mp hword
  have htext : token'.text = token.text := congrArg Word.text heq
  have hsplits : Splits [] chars (run Place.start chars) := splits_run rfl
  obtain ⟨head, tail, hchars, -⟩ := hsplits.exists_of_mem htoken'
  intro c hc
  rw [← List.nil_append chars, hchars, htext]
  simp [hc]

/-- A text without closing parentheses has no tokens that close one. -/
lemma kind_ne_close_of_mem_run {place : Place} {chars : List Char} (h : ')' ∉ chars) :
    ∀ token ∈ (run place chars).tokens, token.kind ≠ .closeParen := by
  intro token htoken hkind
  have hlexeme : Token.IsLexeme token.kind token.text.toList := isLexeme_of_mem_run htoken
  rw [hkind] at hlexeme
  refine h (mem_of_mem_run htoken ')' ?_)
  rw [hlexeme.eq_close]
  exact List.mem_singleton_self _

/-- No characters are scanned into no tokens. -/
lemma isTruncation_run_nil (place : Place) (whole : List Token) :
    IsTruncation (run place []).tokens whole := by
  rw [run]
  exact .nil

/-- The first characters of a text are scanned into tokens that the text starts with, and into
others after them that close no parenthesis. -/
lemma isTruncation_run_take (place : Place) (chars : List Char) (n : Nat) :
    IsTruncation (run place (chars.take n)).tokens (run place chars).tokens := by
  fun_induction run place chars generalizing n with
  | case1 place =>
    rw [List.take_nil]
    exact isTruncation_run_nil place _
  | case2 place rest ih =>
    cases n with
    | zero => exact isTruncation_run_nil place _
    | succ n =>
      rw [List.take_succ_cons, run_newline]
      exact ih n
  | case3 place c rest hnewline hblank ih =>
    cases n with
    | zero => exact isTruncation_run_nil place _
    | succ n =>
      rw [List.take_succ_cons, run_blank hblank]
      exact ih n
  | case4 place rest hnewline hblank ih =>
    cases n with
    | zero => exact isTruncation_run_nil place _
    | succ n =>
      obtain ⟨hbody, hrest⟩ := takeWhile_take (p := fun c => decide (c ≠ '\n')) rest n
      rw [List.take_succ_cons, run_comment, hbody, hrest]
      -- A comment that is cut has nothing after it, and one that is not cut ends at the same place.
      by_cases hle : (rest.takeWhile fun c => decide (c ≠ '\n')).length ≤ n
      · rw [List.take_of_length_le hle]
        exact ih _
      · rw [Nat.sub_eq_zero_of_le (Nat.le_of_not_le hle), List.take_zero]
        exact isTruncation_run_nil _ _
  | case5 place c rest hnewline hblank hcomment hlexeme =>
    cases n with
    | zero => exact isTruncation_run_nil place _
    | succ n =>
      rw [List.take_succ_cons, run_of_lexeme?_eq_none hnewline hblank hcomment
        (Token.lexeme?_take_eq_none hlexeme n)]
      exact .nil
  | case6 place c rest hnewline hblank hcomment kind m hlexeme ih =>
    cases n with
    | zero => exact isTruncation_run_nil place _
    | succ n =>
      rw [List.take_succ_cons]
      by_cases hle : m ≤ n
      · obtain ⟨found, hfound, htoken⟩ := Token.exists_lexeme?_take place hlexeme hle
        rw [run_of_lexeme?_eq_some hfound, List.take_take, Nat.min_eq_left hle, htoken,
          List.drop_take]
        exact (ih (n - m)).cons _
      · exact .of_not_close (kind_ne_close_of_mem_run
          (Token.close_notMem_take hlexeme (Nat.lt_of_not_le hle)))

/-- The tokens of a text stand before its end. -/
lemma offset_lt_of_mem_scan {chars : List Char} {token : Token}
    (h : token ∈ (scan (String.ofList chars)).tokens) : token.offset < chars.length := by
  rw [scan, String.toList_ofList] at h
  have hsplits : Splits [] chars (run Place.start chars) := splits_run rfl
  obtain ⟨head, tail, hchars, hplace, hlongest⟩ := hsplits.exists_of_mem h
  have hoffset : token.offset = head.length := hplace.offset
  have hpos := List.length_pos_iff.mpr hlongest.isLexeme.ne_nil
  rw [List.nil_append] at hchars
  rw [hchars, List.length_append, List.length_append]
  omega

/-- A text that is truncated before its first parenthesis is closed has a first parenthesis that is
not closed. -/
lemma offset_lt_of_closesFirst_take {text : String} {closing closing' : Token} {n : Nat}
    (h : closing.ClosesFirst (scan text).tokens)
    (h' : closing'.ClosesFirst (scan (String.ofList (text.toList.take n))).tokens) :
    closing.offset < n := by
  have htruncation : IsTruncation (scan (String.ofList (text.toList.take n))).tokens
      (scan text).tokens := by
    rw [scan, String.toList_ofList]
    exact isTruncation_run_take Place.start text.toList n
  obtain ⟨kept, hkept, hclosesKept⟩ := htruncation.closesFirst h'
  obtain rfl : closing' = closing := hclosesKept.eq_of_prefix h hkept
  have hmem : closing' ∈ (scan (String.ofList (text.toList.take n))).tokens := by
    obtain ⟨before, rest, htokens, -⟩ := h'.exists_group
    rw [htokens]
    simp
  exact Nat.lt_of_lt_of_le (offset_lt_of_mem_scan hmem) (List.length_take_le n text.toList)

end Scan

/-! ### Documents -/

/-- The first parenthesis of the text is closed, by one token, and what ends before this token is
not read. -/
def RejectsTruncations {α : Type} (parse : String → Report α) (text : String) : Prop :=
  ∃ closing : Token,
    (∀ token : Token, token.ClosesFirst (scan text).tokens ↔ token = closing) ∧
    ∀ n ≤ closing.offset, ∀ document,
      (parse (String.ofList (text.toList.take n))).result ≠ .ok document

/-- If texts are read only when they start with a group, truncated ones are rejected. -/
lemma rejectsTruncations_of_closesFirst {α : Type} {parse : String → Report α}
    (hparse : ∀ {text : String} {document : α}, (parse text).result = .ok document →
      ∃ closing : Token, closing.ClosesFirst (scan text).tokens)
    {text : String} {document : α} (h : (parse text).result = .ok document) :
    RejectsTruncations parse text := by
  obtain ⟨closing, hclosing⟩ := hparse h
  refine ⟨closing, fun token => ⟨fun htoken => ?_, fun heq => heq ▸ hclosing⟩, ?_⟩
  · exact htoken.eq_of_prefix hclosing (List.prefix_refl _)
  · intro n hn truncated htruncated
    obtain ⟨closing', hclosing'⟩ := hparse htruncated
    exact absurd hn (Nat.not_le_of_lt (Scan.offset_lt_of_closesFirst_take hclosing hclosing'))

/-- Every text that is read as a domain is rejected when it is cut before the parenthesis that
closes its first one, under the same settings; and so is every text that is read as a problem. -/
theorem parse_rejectsTruncations (settings : Settings) (text : String) (capacity : Nat) :
    (∀ domain, (Domain.parse settings text capacity).result = .ok domain →
      RejectsTruncations (Domain.parse settings · capacity) text) ∧
    ∀ problem, (Problem.parse settings text capacity).result = .ok problem →
      RejectsTruncations (Problem.parse settings · capacity) text :=
  ⟨fun _ h => rejectsTruncations_of_closesFirst Domain.exists_closesFirst h,
    fun _ h => rejectsTruncations_of_closesFirst Problem.exists_closesFirst h⟩

/-- A domain with a parenthesis in a comment before its last one, and one in a comment behind it. -/
def commentedDomainText : String :=
  "(define (domain d) (:predicates (p ?x)) ; )\n) ; )"

/-- A problem with more behind it. -/
def followedProblemText : String :=
  "(define (problem p) (:domain d) (:goal (q))) (r)"

/-- Both texts are read, and rejected when they are truncated. -/
theorem parse_rejectsTruncations_commented :
    ((∃ domain, (Domain.parse .lenient commentedDomainText).result = .ok domain) ∧
      RejectsTruncations (Domain.parse .lenient ·) commentedDomainText) ∧
    (∃ problem, (Problem.parse .lenient followedProblemText).result = .ok problem) ∧
      RejectsTruncations (Problem.parse .lenient ·) followedProblemText := by
  have hdomain : (Domain.parse .lenient commentedDomainText).result.toOption.isSome = true := by
    decide +kernel
  have hproblem : (Problem.parse .lenient followedProblemText).result.toOption.isSome = true := by
    decide +kernel
  obtain ⟨domain, hdomain⟩ := Option.isSome_iff_exists.mp hdomain
  obtain ⟨problem, hproblem⟩ := Option.isSome_iff_exists.mp hproblem
  have hread := Check.toOption_eq_some.mp hdomain
  have hread' := Check.toOption_eq_some.mp hproblem
  exact ⟨⟨⟨domain, hread⟩, (parse_rejectsTruncations _ _ _).1 domain hread⟩, ⟨problem, hread'⟩,
    (parse_rejectsTruncations _ _ _).2 problem hread'⟩

end Pddl
