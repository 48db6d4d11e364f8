import Pddl.Proofs.Lexeme

/-!
# Longest lexemes

A text may start with several lexemes: `<` and `<=`, `:` and a keyword, or a number and its whole
part.  The scan takes the longest of them (`isLongest_ofLexeme`), and it takes one whenever there is
one (`exists_lexeme?`).  The characters of a lexeme determine its kind (`IsLexeme.kind_unique`), and
none of them separates lexemes (`IsLexeme.isSeparator_eq_false`).
-/

namespace Pddl.Token

/-! ### Runs of characters -/

/-- A run of characters that pass a test is at least as long as any part of it. -/
lemma length_le_takeWhile_append {p : Char → Bool} {chars : List Char} (next : List Char)
    (h : ∀ c ∈ chars, p c = true) : chars.length ≤ ((chars ++ next).takeWhile p).length := by
  rw [List.takeWhile_append_of_pos h, List.length_append]
  exact Nat.le_add_right _ _

/-- A name that starts a text is found there, if not a longer one. -/
lemma exists_nameLength? {chars : List Char} (next : List Char) (h : isNameText chars = true) :
    ∃ n, nameLength? (chars ++ next) = some n ∧ chars.length ≤ n := by
  cases chars with
  | nil => cases h
  | cons c rest =>
    simp only [isNameText, Bool.and_eq_true, List.all_eq_true] at h
    have hrest := length_le_takeWhile_append next h.2
    refine ⟨_, by rw [List.cons_append, nameLength?, if_pos h.1], ?_⟩
    rw [List.length_cons]
    omega

/-- A fraction that starts a text is counted, if not a longer one. -/
lemma length_le_fractionLength {fraction : List Char} (next : List Char)
    (h : isFraction fraction = true) :
    fraction.length ≤ fractionLength (fraction ++ next) := by
  cases fraction with
  | nil => exact Nat.zero_le _
  | cons c digits =>
    simp only [isFraction, isDigits, Bool.and_eq_true, decide_eq_true_eq, List.all_eq_true] at h
    obtain ⟨rfl, hne, hall⟩ := h
    have hpos : 0 < digits.length :=
      List.length_pos_iff.mpr (by rintro rfl; cases hne)
    have hrun := length_le_takeWhile_append next hall
    rw [List.cons_append, List.length_cons, fractionLength]
    split <;> omega

/-- Digits and a fraction that start a text are counted, if not more. -/
lemma length_le_numberTailLength {digits fraction : List Char} (next : List Char)
    (hdigits : digits.all Text.isDecimalDigit = true) (hfraction : isFraction fraction = true) :
    (digits ++ fraction).length ≤ numberTailLength (digits ++ fraction ++ next) := by
  have hall := List.all_eq_true.mp hdigits
  unfold numberTailLength
  cases fraction with
  | nil =>
    have hrun := length_le_takeWhile_append next hall
    rw [List.append_nil]
    omega
  | cons c more =>
    -- The point ends the digits, so that the fraction is counted from its start.
    have hpoint : ∀ d ∈ (c :: more ++ next).head?, Text.isDecimalDigit d = false := by
      simp only [isFraction, Bool.and_eq_true, decide_eq_true_eq] at hfraction
      rintro d ⟨⟩
      rw [hfraction.1]
      decide
    have hrun := takeWhile_append_of_head hall hpoint
    rw [List.append_assoc, hrun.1, hrun.2, List.length_append]
    exact Nat.add_le_add_left (length_le_fractionLength next hfraction) _

/-! ### Lexemes -/

/-- Where a text starts with a lexeme, one of at least its length is found. -/
lemma exists_lexeme? {kind : Kind} {c : Char} {piece : List Char} (next : List Char)
    (h : IsLexeme kind (c :: piece)) :
    ∃ found n, lexeme? c (piece ++ next) = some (found, n) ∧ piece.length ≤ n := by
  generalize hchars : c :: piece = chars at h
  cases h with
  | name hname =>
    subst hchars
    simp only [isNameText, Bool.and_eq_true, List.all_eq_true] at hname
    exact ⟨.name, _, lexeme?_letter hname.1 _, length_le_takeWhile_append next hname.2⟩
  | var hname =>
    obtain ⟨rfl, rfl⟩ := List.cons.inj hchars
    obtain ⟨n, hn, hle⟩ := exists_nameLength? next hname
    exact ⟨_, n, by rw [lexeme?_question, hn]; rfl, hle⟩
  | keyword hname | flag hname =>
    obtain ⟨rfl, rfl⟩ := List.cons.inj hchars
    obtain ⟨n, hn, hle⟩ := exists_nameLength? next hname
    exact ⟨.keyword, n, by rw [lexeme?_colon, hn], hle⟩
  | @number whole fraction hwhole hfraction =>
    cases whole with
    | nil => cases hwhole
    | cons d digits =>
      rw [List.cons_append] at hchars
      obtain ⟨rfl, rfl⟩ := List.cons.inj hchars
      simp only [isDigits, List.isEmpty_cons, Bool.not_false, Bool.true_and, List.all_cons,
        Bool.and_eq_true] at hwhole
      exact ⟨.number, _, lexeme?_digit hwhole.1 _,
        length_le_numberTailLength next hwhole.2 hfraction⟩
  | @negative whole fraction hwhole hfraction =>
    cases whole with
    | nil => cases hwhole
    | cons d digits =>
      obtain ⟨rfl, rfl⟩ := List.cons.inj hchars
      simp only [isDigits, List.isEmpty_cons, Bool.not_false, Bool.true_and, List.all_cons,
        Bool.and_eq_true] at hwhole
      have htail := length_le_numberTailLength next hwhole.2 hfraction
      refine ⟨.number, 1 + numberTailLength (digits ++ fraction ++ next), ?_, ?_⟩
      · rw [List.cons_append, List.cons_append, lexeme?_minus, if_pos hwhole.1]
      · rw [List.cons_append, List.length_cons]
        omega
  | minus =>
    obtain ⟨rfl, rfl⟩ := List.cons.inj hchars
    cases next with
    | nil => exact ⟨.minus, 0, by decide, Nat.zero_le _⟩
    | cons d more => exact ⟨_, _, lexeme?_minus d more, Nat.zero_le _⟩
  | operator hop =>
    subst hchars
    simp only [operators, List.mem_cons, List.cons.injEq, List.not_mem_nil, or_false] at hop
    rcases hop with ⟨rfl, rfl⟩ | ⟨rfl, rfl⟩ | ⟨rfl, rfl⟩ | ⟨rfl, rfl⟩ | ⟨rfl, rfl⟩ | ⟨rfl, rfl⟩ |
      ⟨rfl, rfl⟩ | ⟨rfl, rfl⟩
    · exact ⟨.operator, 1, rfl, Nat.le_refl _⟩
    · exact ⟨.operator, 1, rfl, Nat.le_refl _⟩
    all_goals exact ⟨.operator, _, rfl, Nat.zero_le _⟩
  | colon =>
    obtain ⟨rfl, rfl⟩ := List.cons.inj hchars
    rw [List.nil_append, lexeme?_colon]
    exact ⟨_, _, rfl, Nat.zero_le _⟩
  | openParen =>
    obtain ⟨rfl, rfl⟩ := List.cons.inj hchars
    exact ⟨.openParen, 0, rfl, Nat.zero_le _⟩
  | closeParen =>
    obtain ⟨rfl, rfl⟩ := List.cons.inj hchars
    exact ⟨.closeParen, 0, rfl, Nat.zero_le _⟩
  | openBracket =>
    obtain ⟨rfl, rfl⟩ := List.cons.inj hchars
    exact ⟨.openBracket, 0, rfl, Nat.zero_le _⟩
  | closeBracket =>
    obtain ⟨rfl, rfl⟩ := List.cons.inj hchars
    exact ⟨.closeBracket, 0, rfl, Nat.zero_le _⟩

/-! ### Lengths -/

/-- A name is no longer than its text. -/
lemma nameLength?_le {chars : List Char} {n : Nat} (h : nameLength? chars = some n) :
    n ≤ chars.length := by
  cases chars with
  | nil => cases h
  | cons c rest =>
    have hrun := (List.takeWhile_prefix isNameChar (l := rest)).length_le
    simp only [nameLength?] at h
    split_ifs at h
    rw [Option.some.injEq] at h
    rw [List.length_cons]
    omega

/-- A fraction is no longer than its text. -/
lemma fractionLength_le (chars : List Char) : fractionLength chars ≤ chars.length := by
  unfold fractionLength
  split
  · rename_i rest
    have hrun := (List.takeWhile_prefix Text.isDecimalDigit (l := rest)).length_le
    rw [List.length_cons]
    split <;> omega
  · exact Nat.zero_le _

/-- Digits and a fraction are no longer than their text. -/
lemma numberTailLength_le (chars : List Char) : numberTailLength chars ≤ chars.length := by
  have hsplit : chars.takeWhile Text.isDecimalDigit ++ chars.dropWhile Text.isDecimalDigit =
      chars := List.takeWhile_append_dropWhile
  have hlength := congrArg List.length hsplit
  rw [List.length_append] at hlength
  have hfraction := fractionLength_le (chars.dropWhile Text.isDecimalDigit)
  unfold numberTailLength
  omega

/-- A lexeme that is found is no longer than its text. -/
lemma lexeme?_le {c : Char} {rest : List Char} {kind : Kind} {n : Nat}
    (h : lexeme? c rest = some (kind, n)) : n ≤ rest.length := by
  cases isFound_of_lexeme? h with
  | name => exact (List.takeWhile_prefix _).length_le
  | var hname | keyword hname => exact nameLength?_le hname
  | number => exact numberTailLength_le rest
  | @negative d more =>
    have htail := numberTailLength_le more
    rw [List.length_cons]
    omega
  | comparison => exact Nat.succ_le_succ (Nat.zero_le _)
  | _ => exact Nat.zero_le _

/-! ### The characters of a lexeme -/

/-- The characters of a name can follow others in a lexeme. -/
lemma continues_of_isNameText {chars : List Char} (h : isNameText chars = true) :
    ∀ c ∈ chars, continues c = true := by
  cases chars with
  | nil => cases h
  | cons first rest =>
    simp only [isNameText, Bool.and_eq_true, List.all_eq_true] at h
    have hfirst : isNameChar first = true := by simp [isNameChar, Char.isAlphanum, h.1]
    intro c hc
    rcases List.mem_cons.mp hc with rfl | hc
    · simp [continues, hfirst]
    · simp [continues, h.2 c hc]

/-- The characters of a number without a sign can follow others in a lexeme. -/
lemma continues_of_isDigits {whole fraction : List Char} (hwhole : isDigits whole = true)
    (hfraction : isFraction fraction = true) :
    ∀ c ∈ whole ++ fraction, continues c = true := by
  simp only [isDigits, Bool.and_eq_true, List.all_eq_true] at hwhole
  intro c hc
  rcases List.mem_append.mp hc with hc | hc
  · simp [continues, hwhole.2 c hc]
  · cases fraction with
    | nil => cases hc
    | cons point digits =>
      simp only [isFraction, isDigits, Bool.and_eq_true, decide_eq_true_eq,
        List.all_eq_true] at hfraction
      rcases List.mem_cons.mp hc with rfl | hc
      · simp [continues, hfraction.1]
      · simp [continues, hfraction.2.2 c hc]

/-- The end of a text stops every lexeme. -/
lemma stops_nil : Stops [] :=
  nofun

/-- The characters of a lexeme after its first one are those that go on with a lexeme. -/
lemma IsLexeme.continues_of_mem {kind : Kind} {first : Char} {rest : List Char}
    (h : IsLexeme kind (first :: rest)) : ∀ c ∈ rest, continues c = true := by
  generalize hchars : first :: rest = chars at h
  cases h with
  | name hname =>
    subst hchars
    exact fun c hc => continues_of_isNameText hname c (List.mem_cons_of_mem _ hc)
  | var hname | keyword hname | flag hname =>
    obtain ⟨rfl, rfl⟩ := List.cons.inj hchars
    exact continues_of_isNameText hname
  | number hwhole hfraction =>
    intro c hc
    refine continues_of_isDigits hwhole hfraction c ?_
    rw [← hchars]
    exact List.mem_cons_of_mem _ hc
  | negative hwhole hfraction =>
    obtain ⟨rfl, rfl⟩ := List.cons.inj hchars
    exact continues_of_isDigits hwhole hfraction
  | operator hop =>
    subst hchars
    have hsecond : ∀ c ∈ rest, c = '=' := by
      simp only [operators, List.mem_cons, List.cons.injEq, List.not_mem_nil, or_false] at hop
      rcases hop with ⟨rfl, rfl⟩ | ⟨rfl, rfl⟩ | ⟨rfl, rfl⟩ | ⟨rfl, rfl⟩ | ⟨rfl, rfl⟩ | ⟨rfl, rfl⟩ |
        ⟨rfl, rfl⟩ | ⟨rfl, rfl⟩ <;> simp
    intro c hc
    rw [hsecond c hc]
    decide
  | _ =>
    obtain ⟨rfl, rfl⟩ := List.cons.inj hchars
    exact fun c hc => absurd hc List.not_mem_nil

/-- Does the character separate lexemes, as blanks and newlines do, or start a comment? -/
def isSeparator (c : Char) : Bool :=
  c = '\n' || isBlank c || c = ';'

/-- No character of a lexeme separates lexemes. -/
lemma IsLexeme.isSeparator_eq_false {kind : Kind} {chars : List Char} (h : IsLexeme kind chars) :
    ∀ c ∈ chars, isSeparator c = false := by
  obtain ⟨first, rest, found, rfl, hfound, -⟩ :=
    lexeme?_append h stops_nil Place.start
  intro c hc
  rw [Bool.eq_false_iff]
  intro hseparator
  simp only [isSeparator, Bool.or_eq_true, decide_eq_true_eq, or_assoc] at hseparator
  rcases List.mem_cons.mp hc with rfl | hc
  · rw [lexeme?_separator hseparator] at hfound
    cases hfound
  · have hcontinues := h.continues_of_mem c hc
    simp only [isBlank, Bool.or_eq_true, decide_eq_true_eq] at hseparator
    rcases hseparator with rfl | (((rfl | rfl) | rfl) | rfl) | rfl <;>
      exact absurd hcontinues (by decide)

/-- A lexeme with a closing parenthesis is the closing parenthesis. -/
lemma IsLexeme.eq_of_mem_close {kind : Kind} {chars : List Char} (h : IsLexeme kind chars)
    (hclose : ')' ∈ chars) : chars = [')'] := by
  obtain ⟨first, rest, found, rfl, hfound, -⟩ :=
    lexeme?_append h stops_nil Place.start
  rcases List.mem_cons.mp hclose with rfl | hrest
  · have hlength : (Kind.closeParen, 0) = (found, rest.length) := Option.some.inj hfound
    rw [List.length_eq_zero_iff.mp (Prod.mk.inj hlength).2.symm]
  · exact absurd (h.continues_of_mem _ hrest) (by decide)

/-! ### The longest lexeme -/

/-- A lexeme has a first character. -/
lemma IsLexeme.ne_nil {kind : Kind} {chars : List Char} (h : IsLexeme kind chars) : chars ≠ [] := by
  obtain ⟨c, rest, -, rfl, -⟩ := lexeme?_append h stops_nil Place.start
  exact List.cons_ne_nil c rest

/-- The characters of a lexeme are those of one kind only. -/
lemma IsLexeme.kind_unique {kind kind' : Kind} {chars : List Char} (h : IsLexeme kind chars)
    (h' : IsLexeme kind' chars) : kind = kind' := by
  obtain ⟨c, rest, found, rfl, hfound, hkind⟩ :=
    lexeme?_append h stops_nil Place.start
  obtain ⟨c', rest', found', hchars, hfound', hkind'⟩ :=
    lexeme?_append h' stops_nil Place.start
  obtain ⟨rfl, rfl⟩ := List.cons.inj hchars
  obtain ⟨rfl, -⟩ := Prod.mk.inj (Option.some.inj (hfound.symm.trans hfound'))
  exact hkind.symm.trans hkind'

/-- The lexeme is the longest one that the text starts with. -/
structure IsLongest (kind : Kind) (lexeme chars : List Char) : Prop where
  isLexeme : IsLexeme kind lexeme
  isPrefix : lexeme <+: chars
  length_le : ∀ (other : Kind) (piece : List Char), piece <+: chars → IsLexeme other piece →
    piece.length ≤ lexeme.length

/-- The lexeme that is found is the longest one. -/
lemma isLongest_ofLexeme {c : Char} {rest : List Char} {kind : Kind} {n : Nat}
    (h : lexeme? c rest = some (kind, n)) (place : Place) :
    IsLongest (ofLexeme kind (c :: rest.take n) place).kind (c :: rest.take n) (c :: rest) where
  isLexeme := isLexeme_ofLexeme h place
  isPrefix := List.cons_prefix_cons.mpr ⟨rfl, List.take_prefix n rest⟩
  length_le := by
    intro other piece hpiece hlexeme
    obtain ⟨d, more, rfl⟩ := List.exists_cons_of_ne_nil hlexeme.ne_nil
    obtain ⟨rfl, next, rfl⟩ := List.cons_prefix_cons.mp hpiece
    obtain ⟨found, m, hfound, hle⟩ := exists_lexeme? next hlexeme
    obtain ⟨-, rfl⟩ := Prod.mk.inj (Option.some.inj (h.symm.trans hfound))
    rw [List.length_cons, List.length_cons, List.length_take, List.length_append]
    omega

/-- Where no lexeme is found, the text starts with none. -/
lemma not_isLexeme_of_lexeme?_eq_none {c : Char} {rest piece : List Char} {kind : Kind}
    (h : lexeme? c rest = none) (hpiece : piece <+: c :: rest) : ¬ IsLexeme kind piece := by
  intro hlexeme
  obtain ⟨d, more, rfl⟩ := List.exists_cons_of_ne_nil hlexeme.ne_nil
  obtain ⟨rfl, next, rfl⟩ := List.cons_prefix_cons.mp hpiece
  obtain ⟨found, n, hfound, -⟩ := exists_lexeme? next hlexeme
  rw [h] at hfound
  cases hfound

end Pddl.Token
