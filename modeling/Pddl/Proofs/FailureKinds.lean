import Pddl.Proofs.LetterCase
import Pddl.Proofs.Lookups
import Pddl.Proofs.Outcomes

/-!
# The kinds of failures

Each kind of document can fail only in some ways (`parse_failsOnly`): only domains have defects, and
only plans have times that are out of range.  An integer is too long only if the text has a number
without a point and with more than 4300 digits, and a time is out of range only if it is written as
an integer that no finite double is near to.  What else could go wrong on the way does not: every
look-up in a table and in an enumeration finds what it looks for, and every form of expression has
its list of parts, because `Expr.children` is defined on all of them.
-/

namespace Pddl

/-! ### Numbers without a point -/

namespace Number

/-- A number without a fraction is written without a point, and all of it after a sign is whole. -/
lemma of_fraction_eq_none {text : String} (h : (Lexeme.ofText text).fraction = none) :
    '.' ∉ text.toList ∧ (Lexeme.ofText text).whole =
      if text.toList.head? = some '-' then text.toList.drop 1 else text.toList := by
  have hunsigned : ∀ chars : List Char, chars.dropWhile (· ≠ '.') = [] →
      '.' ∉ chars ∧ chars.takeWhile (· ≠ '.') = chars := by
    intro chars hnil
    rw [List.dropWhile_eq_nil_iff] at hnil
    refine ⟨fun hmem => absurd (hnil '.' hmem) (by decide), ?_⟩
    exact List.takeWhile_eq_self_iff.mpr hnil
  unfold Lexeme.ofText at h ⊢
  dsimp only at h ⊢
  split at h
  case h_2 => cases h
  case h_1 hnil =>
    obtain ⟨hpoint, hwhole⟩ := hunsigned _ hnil
    refine ⟨fun hmem => hpoint ?_, hwhole⟩
    split
    case isTrue hminus =>
      obtain ⟨rest, hrest⟩ := List.head?_eq_some_iff.mp hminus
      rw [hrest] at hmem ⊢
      rcases List.mem_cons.mp hmem with heq | hmem
      · exact absurd heq (by decide)
      · exact hmem
    case isFalse => exact hmem

/-- An integer is written without a point. -/
lemma point_notMem_of_int {text : String} {n : Int} (h : ofText? text = some (.int n)) :
    '.' ∉ text.toList := by
  unfold ofText? ofLexeme? at h
  split at h
  · cases h
  case h_2 hnone => exact (of_fraction_eq_none hnone).1

/-- A number that cannot be converted is written without a point, and has more digits after its sign
than can be converted. -/
lemma of_ofText?_eq_none {text : String} (h : ofText? text = none) :
    '.' ∉ text.toList ∧ maxDigits <
      (if text.toList.head? = some '-' then text.toList.drop 1 else text.toList).length := by
  unfold ofText? ofLexeme? at h
  split at h
  · cases h
  case h_2 hnone =>
    obtain ⟨hpoint, hwhole⟩ := of_fraction_eq_none hnone
    split at h
    · cases h
    case isFalse hlong =>
      rw [hwhole] at hlong
      exact ⟨hpoint, not_le.mp hlong⟩

end Number

/-- The token is a number without a point and with more than 4300 digits. -/
def Token.IsLongInteger (token : Token) : Prop :=
  token.kind = .number ∧ '.' ∉ token.text.toList ∧
    4300 < token.text.toList.countP Text.isDecimalDigit

/-- Without a point, a number is a sign, if there is one, and digits. -/
lemma Token.IsLexeme.isDigits_of_point {chars : List Char} (h : Token.IsLexeme .number chars)
    (hpoint : '.' ∉ chars) : Token.isDigits chars = true ∨
      ∃ digits, chars = '-' :: digits ∧ Token.isDigits digits = true := by
  have hfraction : ∀ {fraction : List Char}, Token.isFraction fraction = true →
      '.' ∉ fraction → fraction = [] := by
    intro fraction hfraction hpoint
    cases fraction with
    | nil => rfl
    | cons c rest =>
      simp only [Token.isFraction, Bool.and_eq_true, decide_eq_true_eq] at hfraction
      exact absurd (hfraction.1 ▸ List.mem_cons_self) hpoint
  cases h with
  | @number whole fraction hwhole hfrac =>
    have hnil := hfraction hfrac fun hmem => hpoint (List.mem_append_right _ hmem)
    rw [hnil, List.append_nil]
    exact Or.inl hwhole
  | @negative whole fraction hwhole hfrac =>
    have hnil := hfraction hfrac fun hmem =>
      hpoint (List.mem_cons_of_mem _ (List.mem_append_right _ hmem))
    rw [hnil, List.append_nil]
    exact Or.inr ⟨whole, rfl, hwhole⟩

/-- Digits are counted by their length. -/
lemma Token.countP_of_isDigits {digits : List Char} (h : Token.isDigits digits = true) :
    digits.countP Text.isDecimalDigit = digits.length := by
  simp only [Token.isDigits, Bool.and_eq_true, List.all_eq_true] at h
  exact List.countP_eq_length.mpr h.2

/-- A number that cannot be converted is a long integer. -/
lemma Token.isLongInteger_of_ofText?_eq_none {text : String} {token : Token}
    (htoken : token ∈ (scan text).tokens) (hkind : token.kind = .number)
    (h : Number.ofText? token.text = none) : token.IsLongInteger := by
  obtain ⟨hpoint, hlong⟩ := Number.of_ofText?_eq_none h
  have hlexeme : Token.IsLexeme token.kind token.text.toList := Scan.isLexeme_of_mem_run htoken
  rw [hkind] at hlexeme
  refine ⟨hkind, hpoint, lt_of_lt_of_le hlong ?_⟩
  -- Without a point, all characters but the sign are digits.
  rcases hlexeme.isDigits_of_point hpoint with hdigits | ⟨digits, hchars, hdigits⟩
  · rw [countP_of_isDigits hdigits]
    split
    · rw [List.length_drop]
      omega
    · exact le_rfl
  · rw [hchars, List.head?_cons, if_pos rfl, List.drop_one, List.tail_cons,
      ← countP_of_isDigits hdigits]
    exact (List.sublist_cons_self _ _).countP_le

/-! ### What can go wrong -/

/-- A time or a duration of the plan is written without a point, and its value is an integer that is
nearer to the powers of two beyond the doubles than to any finite double. -/
def Plan.HasLargeTime (text : String) : Prop :=
  ∃ slot before token after n, (slot = .time ∨ slot = .duration) ∧ Precedes slot before ∧
    (scan text).tokens = before ++ token :: after ∧ token.kind = .number ∧
    '.' ∉ token.text.toList ∧ Number.ofText? token.text = some (.int n) ∧
    2 ^ 1024 - 2 ^ 970 ≤ n.natAbs

/-- The result is a document or a failure of one of the given kinds.  Integers that are too long and
times that are out of range are only found in texts that have them. -/
structure FailsOnly {α : Type} (text : String) (kinds : List Failure.Kind)
    (result : Except Failure α) : Prop where
  kind : ∀ failure, result = .error failure → failure.kind ∈ kinds
  tooLong : result = .error .integerTooLong → ∃ token ∈ (scan text).tokens, token.IsLongInteger
  outOfRange : result = .error .timeOutOfRange → Plan.HasLargeTime text

/-- A time that is out of range is a large one. -/
lemma Plan.Overflows.hasLargeTime {text : String} {failure : Failure}
    (h : Plan.Overflows text failure) : failure = .timeOutOfRange ∧ Plan.HasLargeTime text := by
  cases h with
  | @intro slot token rest n hslot hbegins hkind hvalue hlarge =>
    obtain ⟨before, htokens, hbefore⟩ := hbegins
    refine ⟨rfl, slot, before, token, rest, n, hslot, hbefore, htokens, hkind, ?_, hvalue, hlarge⟩
    exact Number.point_notMem_of_int hvalue

/-- An outcome that the text accounts for fails only as the text allows. -/
lemma IsAccountedFor.failsOnly {α : Type} {text : String} {other : Failure → Prop}
    {kinds : List Failure.Kind} {result : Except Failure α} (h : IsAccountedFor text other result)
    (hkinds : ∀ kind ∈ [Failure.Kind.lexical, .grammar, .integerTooLong], kind ∈ kinds)
    (hother : ∀ failure, other failure → failure.kind ∈ kinds)
    (hlong : ¬ other .integerTooLong)
    (hlarge : other .timeOutOfRange → Plan.HasLargeTime text) : FailsOnly text kinds result where
  kind := by
    rintro failure rfl
    cases h with
    | lexical => exact hkinds .lexical (by simp)
    | found => exact hkinds .grammar (by simp)
    | ended => exact hkinds .grammar (by simp)
    | tooLong => exact hkinds .integerTooLong (by simp)
    | other hfailure => exact hother failure hfailure
  tooLong := by
    rintro rfl
    cases h with
    | tooLong htoken hkind hnone =>
      exact ⟨_, htoken, Token.isLongInteger_of_ofText?_eq_none htoken hkind hnone⟩
    | other hfailure => exact absurd hfailure hlong
  outOfRange := by
    rintro rfl
    cases h with
    | other hfailure => exact hlarge hfailure

/-- The defects of a domain are failures of one kind. -/
lemma Domain.Finds.kind_eq {text : String} {failure : Failure} (h : Domain.Finds text failure) :
    failure.kind = .invalid := by
  cases h with
  | duplicate => rfl
  | unplaced => rfl

/-- Whatever the text, the settings and the capacity, each kind of document fails only in some ways:
no problem and no plan has a defect, and no domain and no problem a time that is out of range.  The
look-ups on the way do not fail: those of hierarchies of types find their keys for all declarations,
and those of enumerations find a member for the words that forms are read on. -/
theorem parse_failsOnly (settings : Settings) (text : String) (capacity : Nat) :
    FailsOnly text [.lexical, .grammar, .invalid, .integerTooLong]
      (Domain.parse settings text capacity).result ∧
    FailsOnly text [.lexical, .grammar, .integerTooLong]
      (Problem.parse settings text capacity).result ∧
    FailsOnly text [.lexical, .grammar, .integerTooLong, .timeOutOfRange]
      (Plan.parse settings text).result ∧
    (∀ [Folding] (declarations : List TypedName),
      TypeHierarchy.ofDeclarationsChecked declarations =
        (TypeHierarchy.ofDeclarations declarations).mapError .defect ∧
      TypeHierarchy.ofDeclarationsValidChecked declarations =
        (TypeHierarchy.ofDeclarationsValid declarations).mapError .defect) ∧
    WordsSpellMembers := by
  refine ⟨?_, ?_, ?_, ?_, wordsSpellMembers⟩
  · refine (Domain.parse_isAccountedFor settings text capacity).failsOnly (by decide) ?_ ?_ ?_
    · intro failure hfailure
      rw [hfailure.kind_eq]
      decide
    · exact fun hfailure => absurd hfailure.kind_eq (by decide)
    · exact fun hfailure => absurd hfailure.kind_eq (by decide)
  · exact (Problem.parse_isAccountedFor settings text capacity).failsOnly (by decide)
      (fun _ h => h.elim) id False.elim
  · refine (Plan.parse_isAccountedFor settings text).failsOnly (by decide) ?_ ?_ ?_
    · intro failure hfailure
      rw [hfailure.hasLargeTime.1]
      decide
    · exact fun hfailure => absurd hfailure.hasLargeTime.1 (by decide)
    · exact fun hfailure => hfailure.hasLargeTime.2
  · intro _ declarations
    exact ⟨TypeHierarchy.ofDeclarationsChecked_eq declarations,
      TypeHierarchy.ofDeclarationsValidChecked_eq declarations⟩

end Pddl
