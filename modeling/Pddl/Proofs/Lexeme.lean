import Mathlib.Data.List.Basic
import Pddl.Token.Scan

/-!
# Lexemes

`IsLexeme` says which texts the tokens of each kind have.  The scan and the printing of lexemes are
inverse to each other: every token of a scan is a lexeme of its kind (`isLexeme_of_mem_scan`), and a
text that lists lexemes, each followed by a blank, is scanned into exactly these lexemes
(`words_run_layout`).
-/

namespace Pddl

/-! ### Classes of characters -/

namespace Text

/-- The ASCII digits are the only decimal digits below the code points of Arabic digits. -/
lemma toNat_of_isDecimalDigit {c : Char} (h : isDecimalDigit c = true) :
    48 ≤ c.toNat ∧ c.toNat < 58 ∨ 1632 ≤ c.toNat := by
  have hzeros : ∀ z ∈ digitZeros, z = 48 ∨ 1632 ≤ z := by decide
  unfold isDecimalDigit digitZero? at h
  obtain ⟨z, hz⟩ := Option.isSome_iff_exists.mp h
  have hmem := List.mem_of_find?_eq_some hz
  have hrange := List.find?_some hz
  simp only [Bool.and_eq_true, decide_eq_true_eq] at hrange
  rcases hzeros z hmem with rfl | hlarge
  · exact Or.inl ⟨hrange.1, hrange.2⟩
  · exact Or.inr (Nat.le_trans hlarge hrange.1)

/-- Letters are ASCII letters. -/
lemma toNat_of_isAlpha {c : Char} (h : c.isAlpha = true) :
    65 ≤ c.toNat ∧ c.toNat ≤ 90 ∨ 97 ≤ c.toNat ∧ c.toNat ≤ 122 := by
  change (decide (c.val ≥ 65 ∧ c.val ≤ 90) || (c.val ≥ 97 && c.val ≤ 122)) = true at h
  simp only [Bool.or_eq_true, Bool.and_eq_true, decide_eq_true_eq, ge_iff_le,
    UInt32.le_iff_toNat_le] at h
  exact h

/-- A decimal digit is no letter. -/
lemma isAlpha_of_isDecimalDigit {c : Char} (h : isDecimalDigit c = true) : c.isAlpha = false := by
  cases halpha : c.isAlpha with
  | false => rfl
  | true =>
    have hletter := toNat_of_isAlpha halpha
    have hdigit := toNat_of_isDecimalDigit h
    omega

/-- A decimal digit differs from every character that is neither an ASCII digit nor beyond the
ASCII letters. -/
lemma ne_of_isDecimalDigit {c d : Char} (h : isDecimalDigit c = true)
    (hd : isDecimalDigit d = false) : c ≠ d := by
  rintro rfl
  rw [h] at hd
  cases hd

end Text

namespace Token

/-- A letter followed by characters of names. -/
def isNameText : List Char → Bool
  | [] => false
  | c :: rest => c.isAlpha && rest.all isNameChar

/-- One or more decimal digits. -/
def isDigits (chars : List Char) : Bool :=
  !chars.isEmpty && chars.all Text.isDecimalDigit

/-- Nothing, or a point followed by digits. -/
def isFraction : List Char → Bool
  | [] => true
  | c :: rest => c = '.' && isDigits rest

/-- The operators other than the minus sign. -/
def operators : List (List Char) :=
  [['<', '='], ['>', '='], ['<'], ['>'], ['='], ['+'], ['*'], ['/']]

/-- The texts of the tokens of each kind. -/
inductive IsLexeme : Kind → List Char → Prop
  | name {chars : List Char} : isNameText chars = true → IsLexeme .name chars
  | var {chars : List Char} : isNameText chars = true → IsLexeme .var ('?' :: chars)
  | keyword {chars : List Char} : isNameText chars = true →
      Requirement.isKnown (String.ofList (':' :: chars)) = false → IsLexeme .keyword (':' :: chars)
  | flag {chars : List Char} : isNameText chars = true →
      Requirement.isKnown (String.ofList (':' :: chars)) = true → IsLexeme .flag (':' :: chars)
  | number {whole fraction : List Char} : isDigits whole = true → isFraction fraction = true →
      IsLexeme .number (whole ++ fraction)
  | negative {whole fraction : List Char} : isDigits whole = true → isFraction fraction = true →
      IsLexeme .number ('-' :: (whole ++ fraction))
  | minus : IsLexeme .minus ['-']
  | operator {chars : List Char} : chars ∈ operators → IsLexeme .operator chars
  | colon : IsLexeme .colon [':']
  | openParen : IsLexeme .openParen ['(']
  | closeParen : IsLexeme .closeParen [')']
  | openBracket : IsLexeme .openBracket ['[']
  | closeBracket : IsLexeme .closeBracket [']']

/-- Can the character belong to a lexeme that has begun before it? -/
def continues (c : Char) : Bool :=
  isNameChar c || Text.isDecimalDigit c || c = '.' || c = '='

/-- Does a text stop every lexeme before it? -/
def Stops (next : List Char) : Prop :=
  ∀ c ∈ next.head?, continues c = false

/-- A character that goes on with no lexeme is none of those that do. -/
lemma continues_eq_false {c : Char} (h : continues c = false) :
    isNameChar c = false ∧ Text.isDecimalDigit c = false ∧ c ≠ '.' ∧ c ≠ '=' := by
  simpa [continues, and_assoc] using h

/-- A run of characters that pass a test ends where the text that follows fails it. -/
lemma takeWhile_append_of_head {p : Char → Bool} {chars next : List Char}
    (hall : ∀ c ∈ chars, p c = true) (hnext : ∀ c ∈ next.head?, p c = false) :
    (chars ++ next).takeWhile p = chars ∧ (chars ++ next).dropWhile p = next := by
  rw [List.takeWhile_append_of_pos hall, List.dropWhile_append_of_pos hall]
  cases next with
  | nil => exact ⟨List.append_nil chars, rfl⟩
  | cons c rest =>
    have hc : p c = false := hnext c rfl
    simp [hc]

/-! ### Lexemes are found -/

/-- A letter starts a name. -/
lemma lexeme?_letter {c : Char} (h : c.isAlpha = true) (rest : List Char) :
    lexeme? c rest = some (.name, (rest.takeWhile isNameChar).length) := by
  unfold lexeme?
  rw [if_pos h]

/-- A digit starts a number. -/
lemma lexeme?_digit {c : Char} (h : Text.isDecimalDigit c = true) (rest : List Char) :
    lexeme? c rest = some (.number, numberTailLength rest) := by
  have halpha := Text.isAlpha_of_isDecimalDigit h
  have hquestion : c ≠ '?' := Text.ne_of_isDecimalDigit h (by decide)
  have hcolon : c ≠ ':' := Text.ne_of_isDecimalDigit h (by decide)
  unfold lexeme?
  rw [if_neg (by simp [halpha]), if_neg hquestion, if_neg hcolon, if_pos h]

/-- A name is found where a lexeme of its first letter is sought. -/
lemma lexeme?_name {c : Char} {rest next : List Char} (h : isNameText (c :: rest) = true)
    (hnext : Stops next) : lexeme? c (rest ++ next) = some (.name, rest.length) := by
  simp only [isNameText, Bool.and_eq_true, List.all_eq_true] at h
  have hrun := takeWhile_append_of_head h.2 fun d hd => (continues_eq_false (hnext d hd)).1
  rw [lexeme?_letter h.1, hrun.1]

/-- The length of a name that starts a text. -/
lemma nameLength?_append {chars next : List Char} (h : isNameText chars = true)
    (hnext : Stops next) : nameLength? (chars ++ next) = some chars.length := by
  cases chars with
  | nil => cases h
  | cons c rest =>
    simp only [isNameText, Bool.and_eq_true, List.all_eq_true] at h
    have hrun := takeWhile_append_of_head h.2 fun d hd => (continues_eq_false (hnext d hd)).1
    simp only [List.cons_append, nameLength?, h.1, if_true, hrun.1, List.length_cons]
    rw [Nat.add_comm]

/-- The length of a fraction that starts a text. -/
lemma fractionLength_append {fraction next : List Char} (h : isFraction fraction = true)
    (hnext : Stops next) : fractionLength (fraction ++ next) = fraction.length := by
  cases fraction with
  | nil =>
    cases next with
    | nil => rfl
    | cons d more =>
      have hd : d ≠ '.' := (continues_eq_false (hnext d rfl)).2.2.1
      simp only [List.nil_append, List.length_nil]
      unfold fractionLength
      split
      · rename_i heq
        exact absurd (List.cons.inj heq).1 hd
      · rfl
  | cons c digits =>
    simp only [isFraction, isDigits, Bool.and_eq_true, decide_eq_true_eq, List.all_eq_true,
      Bool.not_eq_true'] at h
    obtain ⟨rfl, hne, hall⟩ := h
    have hrun := takeWhile_append_of_head hall fun d hd => (continues_eq_false (hnext d hd)).2.1
    obtain ⟨d, more, rfl⟩ := List.exists_cons_of_ne_nil (List.isEmpty_eq_false_iff.mp hne)
    rw [List.cons_append]
    unfold fractionLength
    simp only [hrun.1, List.length_cons]

/-- A fraction starts with no digit, so the digits before it end where it begins. -/
lemma stops_digits_fraction {fraction next : List Char} (h : isFraction fraction = true)
    (hnext : Stops next) :
    ∀ c ∈ (fraction ++ next).head?, Text.isDecimalDigit c = false := by
  intro c hc
  cases fraction with
  | nil => exact (continues_eq_false (hnext c hc)).2.1
  | cons d digits =>
    simp only [isFraction, Bool.and_eq_true, decide_eq_true_eq] at h
    simp only [List.cons_append, List.head?_cons, Option.mem_def, Option.some.injEq] at hc
    rw [← hc, h.1]
    decide

/-- The length of what follows the first digit of a number. -/
lemma numberTailLength_append {digits fraction next : List Char}
    (hdigits : digits.all Text.isDecimalDigit = true) (hfraction : isFraction fraction = true)
    (hnext : Stops next) :
    numberTailLength (digits ++ fraction ++ next) = (digits ++ fraction).length := by
  have hrun := takeWhile_append_of_head (List.all_eq_true.mp hdigits)
    (stops_digits_fraction hfraction hnext)
  rw [List.append_assoc]
  unfold numberTailLength
  rw [hrun.1, hrun.2, fractionLength_append hfraction hnext, List.length_append]

/-- A number without a sign is found where a lexeme of its first digit is sought. -/
lemma lexeme?_number {c : Char} {digits fraction next : List Char}
    (hdigits : isDigits (c :: digits) = true) (hfraction : isFraction fraction = true)
    (hnext : Stops next) :
    lexeme? c (digits ++ fraction ++ next) = some (.number, (digits ++ fraction).length) := by
  simp only [isDigits, List.isEmpty_cons, Bool.not_false, Bool.true_and, List.all_cons,
    Bool.and_eq_true] at hdigits
  rw [lexeme?_digit hdigits.1, numberTailLength_append hdigits.2 hfraction hnext]

/-- After a question mark a name makes a variable. -/
lemma lexeme?_question (rest : List Char) :
    lexeme? '?' rest = (nameLength? rest).map (Kind.var, ·) := rfl

/-- After a colon a name makes a keyword. -/
lemma lexeme?_colon (rest : List Char) :
    lexeme? ':' rest = some (match nameLength? rest with
      | some n => (.keyword, n)
      | none => (.colon, 0)) := rfl

/-- After a minus sign a digit makes a number. -/
lemma lexeme?_minus (d : Char) (more : List Char) :
    lexeme? '-' (d :: more) =
      some (if Text.isDecimalDigit d then (.number, 1 + numberTailLength more) else (.minus, 0)) :=
  rfl

/-- Every lexeme is found, in all its length, where a lexeme of its first character is sought and
the text after it goes on with no lexeme. -/
lemma lexeme?_append {kind : Kind} {chars next : List Char} (h : IsLexeme kind chars)
    (hnext : Stops next) (place : Place) :
    ∃ c rest found, chars = c :: rest ∧ lexeme? c (rest ++ next) = some (found, rest.length) ∧
      (ofLexeme found chars place).kind = kind := by
  cases h with
  | name hname =>
    obtain ⟨c, rest, rfl⟩ := List.exists_cons_of_ne_nil
      (show chars ≠ [] by rintro rfl; cases hname)
    exact ⟨c, rest, .name, rfl, lexeme?_name hname hnext, rfl⟩
  | @var chars hname =>
    refine ⟨'?', chars, .var, rfl, ?_, rfl⟩
    rw [lexeme?_question, nameLength?_append hname hnext]
    rfl
  | @keyword chars hname hknown =>
    refine ⟨':', chars, .keyword, rfl, ?_, by simp only [ofLexeme, hknown]; rfl⟩
    rw [lexeme?_colon, nameLength?_append hname hnext]
  | @flag chars hname hknown =>
    refine ⟨':', chars, .keyword, rfl, ?_, by simp only [ofLexeme, hknown]; rfl⟩
    rw [lexeme?_colon, nameLength?_append hname hnext]
  | @number whole fraction hwhole hfraction =>
    cases whole with
    | nil => cases hwhole
    | cons c digits =>
      exact ⟨c, digits ++ fraction, .number, rfl, lexeme?_number hwhole hfraction hnext, rfl⟩
  | @negative whole fraction hwhole hfraction =>
    cases whole with
    | nil => cases hwhole
    | cons d digits =>
      simp only [isDigits, List.isEmpty_cons, Bool.not_false, Bool.true_and, List.all_cons,
        Bool.and_eq_true] at hwhole
      refine ⟨'-', d :: (digits ++ fraction), .number, rfl, ?_, rfl⟩
      rw [List.cons_append, lexeme?_minus, if_pos hwhole.1,
        numberTailLength_append hwhole.2 hfraction hnext, List.length_cons, Nat.add_comm]
  | minus =>
    refine ⟨'-', [], .minus, rfl, ?_, rfl⟩
    cases next with
    | nil => decide
    | cons d more =>
      have hd := (continues_eq_false (hnext d rfl)).2.1
      rw [List.nil_append, lexeme?_minus, hd]
      rfl
  | operator hop =>
    have hhead : next.head? ≠ some '=' := fun heq => (continues_eq_false (hnext _ heq)).2.2.2 rfl
    simp only [operators, List.mem_cons, List.not_mem_nil, or_false] at hop
    rcases hop with rfl | rfl | rfl | rfl | rfl | rfl | rfl | rfl
    · exact ⟨'<', ['='], .operator, rfl, rfl, rfl⟩
    · exact ⟨'>', ['='], .operator, rfl, rfl, rfl⟩
    · refine ⟨'<', [], .operator, rfl, ?_, rfl⟩
      change some (Kind.operator, if next.head? = some '=' then 1 else 0) = _
      rw [if_neg hhead]
      rfl
    · refine ⟨'>', [], .operator, rfl, ?_, rfl⟩
      change some (Kind.operator, if next.head? = some '=' then 1 else 0) = _
      rw [if_neg hhead]
      rfl
    · exact ⟨'=', [], .operator, rfl, rfl, rfl⟩
    · exact ⟨'+', [], .operator, rfl, rfl, rfl⟩
    · exact ⟨'*', [], .operator, rfl, rfl, rfl⟩
    · exact ⟨'/', [], .operator, rfl, rfl, rfl⟩
  | colon =>
    refine ⟨':', [], .colon, rfl, ?_, rfl⟩
    have hname : nameLength? next = none := by
      cases next with
      | nil => rfl
      | cons d more =>
        have hd := (continues_eq_false (hnext d rfl)).1
        have hletter : d.isAlpha = false := by
          simp only [isNameChar, Char.isAlphanum, Bool.or_eq_false_iff] at hd
          exact hd.1.1.1
        simp [nameLength?, hletter]
    rw [List.nil_append, lexeme?_colon, hname]
    rfl
  | openParen => exact ⟨'(', [], .openParen, rfl, rfl, rfl⟩
  | closeParen => exact ⟨')', [], .closeParen, rfl, rfl, rfl⟩
  | openBracket => exact ⟨'[', [], .openBracket, rfl, rfl, rfl⟩
  | closeBracket => exact ⟨']', [], .closeBracket, rfl, rfl, rfl⟩

/-- No lexeme starts with a character that separates lexemes. -/
lemma lexeme?_separator {c : Char} (h : c = '\n' ∨ isBlank c = true ∨ c = ';')
    (rest : List Char) : lexeme? c rest = none := by
  simp only [isBlank, Bool.or_eq_true, decide_eq_true_eq] at h
  rcases h with rfl | ((((rfl | rfl) | rfl) | rfl) | rfl) <;> rfl

/-! ### What is found is a lexeme -/

/-- Taking as many characters as a run has takes the run. -/
lemma take_length_takeWhile (p : Char → Bool) (chars : List Char) :
    chars.take (chars.takeWhile p).length = chars.takeWhile p :=
  (List.prefix_iff_eq_take.mp (List.takeWhile_prefix p)).symm

/-- The characters that `nameLength?` counts are a name. -/
lemma isNameText_of_nameLength? {chars : List Char} {n : Nat} (h : nameLength? chars = some n) :
    isNameText (chars.take n) = true := by
  cases chars with
  | nil => cases h
  | cons c rest =>
    simp only [nameLength?] at h
    split_ifs at h with halpha
    rw [Option.some.injEq] at h
    rw [← h, Nat.add_comm, List.take_succ_cons, take_length_takeWhile]
    simp only [isNameText, halpha, Bool.true_and]
    exact List.all_takeWhile

/-- The characters that `fractionLength` counts are a fraction. -/
lemma isFraction_take (chars : List Char) :
    isFraction (chars.take (fractionLength chars)) = true := by
  unfold fractionLength
  split
  · rename_i rest
    split
    · rfl
    · rename_i n hlen
      have hrun := take_length_takeWhile Text.isDecimalDigit rest
      rw [hlen] at hrun
      rw [List.take_succ_cons, hrun]
      simp only [isFraction, isDigits, decide_true, Bool.true_and, List.all_takeWhile,
        Bool.and_true, Bool.not_eq_true']
      rw [List.isEmpty_eq_false_iff, ← List.length_pos_iff, hlen]
      exact Nat.succ_pos n
  · rfl

/-- The characters that `numberTailLength` counts are digits and a fraction. -/
lemma take_numberTailLength (chars : List Char) :
    ∃ digits fraction, chars.take (numberTailLength chars) = digits ++ fraction ∧
      digits.all Text.isDecimalDigit = true ∧ isFraction fraction = true := by
  have hsplit : chars.takeWhile Text.isDecimalDigit ++ chars.dropWhile Text.isDecimalDigit =
      chars := List.takeWhile_append_dropWhile
  refine ⟨chars.takeWhile Text.isDecimalDigit,
    (chars.dropWhile Text.isDecimalDigit).take
      (fractionLength (chars.dropWhile Text.isDecimalDigit)), ?_, List.all_takeWhile,
    isFraction_take _⟩
  unfold numberTailLength
  generalize chars.takeWhile Text.isDecimalDigit = digits at hsplit ⊢
  generalize chars.dropWhile Text.isDecimalDigit = rest at hsplit ⊢
  rw [← hsplit, List.take_length_add_append]

/-- What is found of each kind where a text starts with a character and goes on with others. -/
inductive IsFound : Char → List Char → Kind → Nat → Prop
  | name {c : Char} {rest : List Char} : c.isAlpha = true →
      IsFound c rest .name (rest.takeWhile isNameChar).length
  | var {rest : List Char} {n : Nat} : nameLength? rest = some n → IsFound '?' rest .var n
  | keyword {rest : List Char} {n : Nat} : nameLength? rest = some n → IsFound ':' rest .keyword n
  | colon {rest : List Char} : nameLength? rest = none → IsFound ':' rest .colon 0
  | number {c : Char} {rest : List Char} : Text.isDecimalDigit c = true →
      IsFound c rest .number (numberTailLength rest)
  | negative {d : Char} {more : List Char} : Text.isDecimalDigit d = true →
      IsFound '-' (d :: more) .number (1 + numberTailLength more)
  | minus {rest : List Char} : (∀ d ∈ rest.head?, Text.isDecimalDigit d = false) →
      IsFound '-' rest .minus 0
  | comparison {c : Char} {more : List Char} : c = '<' ∨ c = '>' →
      IsFound c ('=' :: more) .operator 1
  | operator {c : Char} {rest : List Char} : [c] ∈ operators →
      (c = '<' ∨ c = '>' → rest.head? ≠ some '=') → IsFound c rest .operator 0
  | openParen {rest : List Char} : IsFound '(' rest .openParen 0
  | closeParen {rest : List Char} : IsFound ')' rest .closeParen 0
  | openBracket {rest : List Char} : IsFound '[' rest .openBracket 0
  | closeBracket {rest : List Char} : IsFound ']' rest .closeBracket 0

/-- Which kind is found, and in what length, is told by the first characters. -/
lemma isFound_of_lexeme? {c : Char} {rest : List Char} {kind : Kind} {n : Nat}
    (h : lexeme? c rest = some (kind, n)) : IsFound c rest kind n := by
  unfold lexeme? at h
  by_cases halpha : c.isAlpha = true
  · rw [if_pos halpha] at h
    cases h
    exact .name halpha
  rw [if_neg halpha] at h
  by_cases hquestion : c = '?'
  · rw [if_pos hquestion, Option.map_eq_some_iff] at h
    obtain ⟨m, hm, heq⟩ := h
    cases heq
    exact hquestion ▸ .var hm
  rw [if_neg hquestion] at h
  by_cases hcolon : c = ':'
  · rw [if_pos hcolon] at h
    cases hname : nameLength? rest with
    | none =>
      rw [hname] at h
      cases h
      exact hcolon ▸ .colon hname
    | some m =>
      rw [hname] at h
      cases h
      exact hcolon ▸ .keyword hname
  rw [if_neg hcolon] at h
  by_cases hdigit : Text.isDecimalDigit c = true
  · rw [if_pos hdigit] at h
    cases h
    exact .number hdigit
  rw [if_neg hdigit] at h
  by_cases hminus : c = '-'
  · rw [if_pos hminus] at h
    cases rest with
    | nil =>
      cases h
      exact hminus ▸ .minus nofun
    | cons d more =>
      cases hd : Text.isDecimalDigit d with
      | true =>
        simp only [hd, if_true] at h
        cases h
        exact hminus ▸ .negative hd
      | false =>
        simp only [hd, Bool.false_eq_true, if_false] at h
        cases h
        exact hminus ▸ .minus (by rintro _ ⟨⟩; exact hd)
  rw [if_neg hminus] at h
  by_cases hcompare : (c = '<' || c = '>') = true
  · rw [if_pos hcompare] at h
    rw [Bool.or_eq_true, decide_eq_true_eq, decide_eq_true_eq] at hcompare
    by_cases hequal : rest.head? = some '='
    · obtain ⟨more, rfl⟩ := List.head?_eq_some_iff.mp hequal
      cases h
      exact .comparison hcompare
    · rw [if_neg hequal] at h
      cases h
      refine .operator ?_ fun _ => hequal
      rcases hcompare with rfl | rfl <;> simp [operators]
  rw [if_neg hcompare] at h
  split_ifs at h with hoperator hopen hclose hopenBracket hcloseBracket
  · cases h
    rw [Bool.or_eq_true, decide_eq_true_eq, decide_eq_true_eq] at hcompare
    refine .operator ?_ fun hc => absurd hc hcompare
    simp only [Bool.or_eq_true, decide_eq_true_eq] at hoperator
    rcases hoperator with ((rfl | rfl) | rfl) | rfl <;> simp [operators]
  · cases h
    exact hopen ▸ .openParen
  · cases h
    exact hclose ▸ .closeParen
  · cases h
    exact hopenBracket ▸ .openBracket
  · cases h
    exact hcloseBracket ▸ .closeBracket

/-- What is found where a lexeme is sought is a keyword or a lexeme of another kind. -/
lemma isLexeme_of_lexeme? {c : Char} {rest : List Char} {kind : Kind} {n : Nat}
    (h : lexeme? c rest = some (kind, n)) :
    kind = .keyword ∧ c = ':' ∧ isNameText (rest.take n) = true ∨
      kind ≠ .keyword ∧ IsLexeme kind (c :: rest.take n) := by
  cases isFound_of_lexeme? h with
  | name halpha =>
    refine Or.inr ⟨by decide, .name ?_⟩
    rw [take_length_takeWhile]
    simp [isNameText, halpha]
  | var hname => exact Or.inr ⟨by decide, .var (isNameText_of_nameLength? hname)⟩
  | keyword hname => exact Or.inl ⟨rfl, rfl, isNameText_of_nameLength? hname⟩
  | number hdigit =>
    obtain ⟨digits, fraction, heq, hdigits, hfraction⟩ := take_numberTailLength rest
    have hwhole : isDigits (c :: digits) = true := by simp [isDigits, hdigit, hdigits]
    rw [heq]
    exact Or.inr ⟨by decide, .number hwhole hfraction⟩
  | @negative d more hdigit =>
    obtain ⟨digits, fraction, heq, hdigits, hfraction⟩ := take_numberTailLength more
    have hwhole : isDigits (d :: digits) = true := by simp [isDigits, hdigit, hdigits]
    rw [Nat.add_comm, List.take_succ_cons, heq]
    exact Or.inr ⟨by decide, .negative hwhole hfraction⟩
  | comparison hc =>
    refine Or.inr ⟨by decide, .operator ?_⟩
    rcases hc with rfl | rfl <;> simp [operators]
  | operator hop => exact Or.inr ⟨by decide, .operator hop⟩
  | colon => exact Or.inr ⟨by decide, .colon⟩
  | minus => exact Or.inr ⟨by decide, .minus⟩
  | openParen => exact Or.inr ⟨by decide, .openParen⟩
  | closeParen => exact Or.inr ⟨by decide, .closeParen⟩
  | openBracket => exact Or.inr ⟨by decide, .openBracket⟩
  | closeBracket => exact Or.inr ⟨by decide, .closeBracket⟩

/-- The token of what is found is a lexeme of the token's kind. -/
lemma isLexeme_ofLexeme {c : Char} {rest : List Char} {kind : Kind} {n : Nat}
    (h : lexeme? c rest = some (kind, n)) (place : Place) :
    IsLexeme (ofLexeme kind (c :: rest.take n) place).kind (c :: rest.take n) := by
  rcases isLexeme_of_lexeme? h with ⟨rfl, rfl, hname⟩ | ⟨hne, hlexeme⟩
  · cases hknown : Requirement.isKnown (String.ofList (':' :: rest.take n)) with
    | false =>
      simp only [ofLexeme, hknown]
      exact .keyword hname hknown
    | true =>
      simp only [ofLexeme, hknown]
      exact .flag hname hknown
  · simpa [ofLexeme, hne] using hlexeme

end Token

/-! ### Scans of laid out lexemes -/

/-- A lexeme without its place. -/
structure Word where
  kind : Token.Kind
  text : String
deriving DecidableEq, Repr

/-- The lexeme of a token. -/
def Token.word (token : Token) : Word :=
  ⟨token.kind, token.text⟩

namespace Word

/-- Does the word have a text that tokens of its kind have? -/
def IsLexeme (word : Word) : Prop :=
  Token.IsLexeme word.kind word.text.toList

/-- The words one after the other, each followed by a blank. -/
def layout (words : List Word) : List Char :=
  words.flatMap fun word => word.text.toList ++ [' ']

end Word

namespace Scan

section Steps

variable {c : Char} {rest : List Char}

/-- A newline is skipped. -/
lemma run_newline (place : Place) (rest : List Char) :
    run place ('\n' :: rest) = run place.nextLine rest := by
  rw [run, if_pos rfl]

/-- A blank is skipped. -/
lemma run_blank (h : Token.isBlank c = true) (place : Place) (rest : List Char) :
    run place (c :: rest) = run (place.right 1) rest := by
  have hnewline : c ≠ '\n' := by
    rintro rfl
    exact absurd h (by decide)
  rw [run, if_neg hnewline, if_pos h]

/-- A comment is skipped, up to the end of its line. -/
lemma run_comment (place : Place) (rest : List Char) :
    run place (';' :: rest) =
      run (place.right (1 + (rest.takeWhile (· ≠ '\n')).length))
        (rest.dropWhile (· ≠ '\n')) := by
  rw [run, if_neg (by decide), if_neg (by decide), if_pos rfl]

/-- A lexeme that is found is a token. -/
lemma run_of_lexeme?_eq_some {kind : Token.Kind} {n : Nat}
    (h : Token.lexeme? c rest = some (kind, n)) (place : Place) :
    run place (c :: rest) = (run (place.right (1 + n)) (rest.drop n)).cons
      (Token.ofLexeme kind (c :: rest.take n) place) := by
  have hseparator : ¬ (c = '\n' ∨ Token.isBlank c = true ∨ c = ';') := by
    intro hseparator
    rw [Token.lexeme?_separator hseparator] at h
    cases h
  rw [not_or, not_or] at hseparator
  rw [run, if_neg hseparator.1, if_neg hseparator.2.1, if_neg hseparator.2.2, h]

/-- A character with which nothing starts is an error. -/
lemma run_of_lexeme?_eq_none (hnewline : c ≠ '\n') (hblank : ¬ Token.isBlank c = true)
    (hcomment : c ≠ ';') (h : Token.lexeme? c rest = none) (place : Place) :
    run place (c :: rest) = ⟨[], some ⟨c, place⟩⟩ := by
  rw [run, if_neg hnewline, if_neg hblank, if_neg hcomment, h]

end Steps

/-- The lexemes of a scan. -/
def words (scan : Scan) : List Word :=
  scan.tokens.map Token.word

/-- A lexeme at the start of a text is its first token. -/
lemma run_lexeme {kind : Token.Kind} {chars next : List Char} (h : Token.IsLexeme kind chars)
    (hnext : Token.Stops next) (place : Place) :
    run place (chars ++ next) =
      (run (place.right chars.length) next).cons
        ⟨kind, String.ofList chars, place.line, place.column, place.offset⟩ := by
  obtain ⟨c, rest, found, rfl, hfound, hkind⟩ := Token.lexeme?_append h hnext place
  rw [List.cons_append, run_of_lexeme?_eq_some hfound, List.drop_left, List.take_left,
    List.length_cons, Nat.add_comm 1 rest.length, ← hkind]
  rfl

/-- What lexemes a text has, and whether it has an error, does not depend on where it starts. -/
lemma words_run_place (place origin : Place) (chars : List Char) :
    (run place chars).words = (run origin chars).words ∧
      ((run place chars).failure = none ↔ (run origin chars).failure = none) := by
  fun_induction run place chars generalizing origin with
  | case1 => rw [run]; exact ⟨rfl, Iff.rfl⟩
  | case2 place rest ih =>
    rw [run_newline]
    exact ih _
  | case3 place c rest hnewline hblank ih =>
    rw [run_blank hblank]
    exact ih _
  | case4 place rest hnewline hblank ih =>
    rw [run_comment]
    exact ih _
  | case5 place c rest hnewline hblank hcomment hnone =>
    rw [run_of_lexeme?_eq_none hnewline hblank hcomment hnone]
    exact ⟨rfl, by simp⟩
  | case6 place c rest hnewline hblank hcomment kind n hfound ih =>
    obtain ⟨hwords, hfailure⟩ := ih (origin.right (1 + n))
    rw [run_of_lexeme?_eq_some hfound]
    refine ⟨?_, hfailure⟩
    unfold words at hwords ⊢
    simp only [cons, List.map_cons, hwords]
    rfl

/-- A text that starts with laid out lexemes is scanned into them and what follows them. -/
lemma words_run_layout {words : List Word} (hwords : ∀ word ∈ words, word.IsLexeme)
    (next : List Char) (place origin : Place) :
    (run place (Word.layout words ++ next)).words = words ++ (run origin next).words ∧
      ((run place (Word.layout words ++ next)).failure = none ↔
        (run origin next).failure = none) := by
  induction words generalizing place with
  | nil => exact words_run_place place origin next
  | cons word rest ih =>
    have hblank : Token.Stops (' ' :: (Word.layout rest ++ next)) := by
      intro c hc
      cases hc
      decide
    have hword : word.IsLexeme := hwords word List.mem_cons_self
    obtain ⟨hrest, hfailure⟩ := ih (fun w hw => hwords w (List.mem_cons_of_mem _ hw))
      ((place.right word.text.toList.length).right 1)
    have hsplit : Word.layout (word :: rest) ++ next =
        word.text.toList ++ ' ' :: (Word.layout rest ++ next) := by
      simp [Word.layout]
    rw [hsplit, run_lexeme hword hblank, run_blank rfl]
    refine ⟨?_, hfailure⟩
    rw [List.cons_append, ← hrest]
    simp [Scan.words, cons, Token.word]

/-- The tokens of a scan are lexemes of their kinds. -/
lemma isLexeme_of_mem_run {place : Place} {chars : List Char} {token : Token}
    (h : token ∈ (run place chars).tokens) : token.word.IsLexeme := by
  fun_induction run place chars with
  | case1 => cases h
  | case2 place rest ih => exact ih h
  | case3 place c rest _ _ ih => exact ih h
  | case4 place rest _ _ ih => exact ih h
  | case5 => cases h
  | case6 place c rest _ _ _ kind n hfound ih =>
    rcases List.mem_cons.mp h with rfl | hrest
    · have hlexeme := Token.isLexeme_ofLexeme hfound place
      unfold Word.IsLexeme
      change Token.IsLexeme _ (String.toList (String.ofList _))
      rw [String.toList_ofList]
      exact hlexeme
    · exact ih hrest

end Scan

end Pddl
