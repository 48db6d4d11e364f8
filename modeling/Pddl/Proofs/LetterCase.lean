import Pddl.Proofs.Folding
import Pddl.Proofs.Lexeme
import Pddl.Proofs.Lockstep

/-!
# Letter case does not matter

Two texts that differ in the case of letters only are scanned into the same tokens up to case, and
read into the same problem or plan up to case, or both fail at the same place for the same reason.
Folding is a disguise: no lexeme depends on the case of a letter, and nothing that folding changes
is looked at by a reader.  So a text and its fold are read in lockstep, and with them all texts that
have the same fold.  Only ASCII letters matter here, as names are made of no others
(`Token.lower_text_eq_key`).
-/

namespace Pddl

/-! ### Operators and numbers -/

/-- An arithmetic operator has no letters. -/
lemma ArithOp.ofText?_fold (text : String) : ofText? (fold text) = ofText? text := by
  refine Option.ext fun op => ?_
  rw [ofText?_eq_some_iff, ofText?_eq_some_iff]
  exact fold_eq_iff (by cases op <;> decide +kernel)

/-- A comparison has no letters. -/
lemma CompareOp.ofText?_fold (text : String) : ofText? (fold text) = ofText? text := by
  refine Option.ext fun op => ?_
  rw [ofText?_eq_some_iff, ofText?_eq_some_iff]
  exact fold_eq_iff (by cases op <;> decide +kernel)

/-- Folded digits have the same value. -/
lemma Text.decimalValue_toLower (digits : List Char) :
    decimalValue (digits.map Char.toLower) = decimalValue digits := by
  have hdigit : ∀ c : Char, digitValue c.toLower = digitValue c := apply_toLower (by decide +kernel)
  unfold decimalValue
  rw [List.foldl_map]
  simp only [hdigit]

/-- The parts of a number are folded. -/
lemma Number.lexeme_ofText_fold (text : String) :
    Lexeme.ofText (fold text) =
      ⟨(Lexeme.ofText text).negative, (Lexeme.ofText text).whole.map Char.toLower,
        (Lexeme.ofText text).fraction.map (List.map Char.toLower)⟩ := by
  have hminus := Text.head?_toLower_eq_some_iff text.toList '-' (by decide)
  have hpoint : (fun c : Char => decide (c ≠ '.')) ∘ Char.toLower = fun c => decide (c ≠ '.') :=
    funext (Text.apply_toLower (f := fun c => decide (c ≠ '.')) (by decide +kernel))
  have hunsigned : (if text.toList.head? = some '-' then (text.toList.map Char.toLower).drop 1
      else text.toList.map Char.toLower) =
        (if text.toList.head? = some '-' then text.toList.drop 1
          else text.toList).map Char.toLower := by
    rw [apply_ite (List.map Char.toLower), List.map_drop]
  unfold Lexeme.ofText
  simp only [toList_fold, hminus, hunsigned, List.takeWhile_map,
    List.dropWhile_map, hpoint]
  congr 1
  cases List.dropWhile (fun c => decide (c ≠ '.'))
    (if text.toList.head? = some '-' then text.toList.drop 1 else text.toList) <;> rfl

/-- Folding leaves numbers alone. -/
lemma Number.ofText?_fold (text : String) : ofText? (fold text) = ofText? text := by
  unfold ofText?
  rw [lexeme_ofText_fold]
  unfold ofLexeme?
  cases (Lexeme.ofText text).fraction with
  | none => simp only [Option.map_none, List.length_map, Text.decimalValue_toLower]
  | some fraction =>
    simp only [Option.map_some, ← List.map_append, List.length_map, Text.decimalValue_toLower]

/-- Folding all texts leaves everything else as it is. -/
def Disguise.folding : Disguise where
  spell := fold
  line := id
  column := id
  offset := id
  lexical := id
  fold_spell := fold_fold
  spell_of_folded := fun _ h => h
  arithOp := ArithOp.ofText?_fold
  compareOp := CompareOp.ofText?_fold
  number := Number.ofText?_fold
  line_none := rfl
  column_none := rfl

/-! ### Scanning -/

namespace Token

/-- As many characters of names start a folded text as the text. -/
lemma takeWhile_isNameChar_toLower (chars : List Char) :
    ((chars.map Char.toLower).takeWhile isNameChar).length =
      (chars.takeWhile isNameChar).length := by
  have hname : isNameChar ∘ Char.toLower = isNameChar :=
    funext (Text.apply_toLower (by decide +kernel))
  rw [List.takeWhile_map, hname, List.length_map]

/-- A name is found in a folded text where it is in the text. -/
lemma nameLength?_toLower (chars : List Char) :
    nameLength? (chars.map Char.toLower) = nameLength? chars := by
  cases chars with
  | nil => rfl
  | cons c rest =>
    simp only [List.map_cons, nameLength?, Text.isAlpha_toLower, takeWhile_isNameChar_toLower]

/-- The length of a fraction by its first character. -/
lemma fractionLength_cons (c : Char) (rest : List Char) :
    fractionLength (c :: rest) =
      if c = '.' then
        match (rest.takeWhile Text.isDecimalDigit).length with
        | 0 => 0
        | n + 1 => n + 2
      else 0 := by
  unfold fractionLength
  split
  · rename_i heq
    cases heq
    rfl
  · rename_i hne
    rw [if_neg]
    rintro rfl
    exact hne rest rfl

/-- The rest of a number is found in a folded text where it is in the text. -/
lemma numberTailLength_toLower (chars : List Char) :
    numberTailLength (chars.map Char.toLower) = numberTailLength chars := by
  have hdigit : Text.isDecimalDigit ∘ Char.toLower = Text.isDecimalDigit :=
    funext Text.isDecimalDigit_toLower
  have hfraction : ∀ chars : List Char,
      fractionLength (chars.map Char.toLower) = fractionLength chars := by
    intro chars
    cases chars with
    | nil => rfl
    | cons c rest =>
      rw [List.map_cons, fractionLength_cons, fractionLength_cons, List.takeWhile_map, hdigit,
        List.length_map]
      simp only [Text.toLower_eq_iff (show '.'.isAlpha = false from rfl)]
  unfold numberTailLength
  rw [List.takeWhile_map, List.dropWhile_map, hdigit, hfraction, List.length_map]

/-- A lexeme is found in a folded text where it is in the text. -/
lemma lexeme?_toLower (c : Char) (rest : List Char) :
    lexeme? c.toLower (rest.map Char.toLower) = lexeme? c rest := by
  unfold lexeme?
  rw [Text.isAlpha_toLower, takeWhile_isNameChar_toLower]
  cases halpha : c.isAlpha with
  | true => rfl
  | false =>
    -- Only the characters after a first character that is no letter can change.
    have hequals := Text.head?_toLower_eq_some_iff rest '=' (by decide)
    rw [Text.toLower_of_not_isAlpha halpha, nameLength?_toLower, numberTailLength_toLower]
    simp only [hequals]
    cases rest with
    | nil => rfl
    | cons d more =>
      simp only [List.map_cons, Text.isDecimalDigit_toLower, numberTailLength_toLower]

/-- The token of a folded lexeme. -/
lemma ofLexeme_toLower (kind : Kind) (chars : List Char) (place : Place) :
    ofLexeme kind (chars.map Char.toLower) place =
      Disguise.folding.token (ofLexeme kind chars place) := by
  have htext : String.ofList (chars.map Char.toLower) = fold (String.ofList chars) := by
    rw [fold, String.toList_ofList]
  unfold ofLexeme
  simp only [htext, Requirement.isKnown_fold]
  rfl

end Token

/-- A folded text is scanned as the text is. -/
lemma Scan.run_toLower (place : Place) (chars : List Char) :
    run place (chars.map Char.toLower) =
      ⟨(run place chars).tokens.map Disguise.folding.token, (run place chars).failure⟩ := by
  have hplain : ∀ d : Char, d.isAlpha = false → ∀ c : Char, c.toLower = d ↔ c = d :=
    fun d hd c => Text.toLower_eq_iff hd
  have hblank : ∀ c : Char, Token.isBlank c.toLower = Token.isBlank c :=
    Text.apply_toLower (by decide +kernel)
  have hline : (fun c : Char => decide (c ≠ '\n')) ∘ Char.toLower = fun c => decide (c ≠ '\n') :=
    funext (Text.apply_toLower (f := fun c => decide (c ≠ '\n')) (by decide +kernel))
  fun_induction run place chars with
  | case1 => simp [run]
  | case2 place rest ih =>
    change run place ('\n' :: rest.map Char.toLower) = _
    rw [run_newline, ih]
  | case3 place c rest hnewline hc ih =>
    rw [List.map_cons, run_blank ((hblank c).trans hc), ih]
  | case4 place rest hnewline hc ih =>
    change run place (';' :: rest.map Char.toLower) = _
    rw [run_comment, List.takeWhile_map, List.dropWhile_map, hline, List.length_map, ih]
  | case5 place c rest hnewline hc hcomment hlexeme =>
    have halpha : c.isAlpha = false := by
      rw [Bool.eq_false_iff]
      intro hletter
      rw [Token.lexeme?_letter hletter] at hlexeme
      cases hlexeme
    rw [List.map_cons, run_of_lexeme?_eq_none (mt (hplain '\n' rfl c).mp hnewline)
      (by rwa [hblank]) (mt (hplain ';' rfl c).mp hcomment)
      ((Token.lexeme?_toLower c rest).trans hlexeme)]
    simp only [Text.toLower_of_not_isAlpha halpha, List.map_nil]
  | case6 place c rest hnewline hc hcomment kind n hlexeme ih =>
    rw [List.map_cons, run_of_lexeme?_eq_some ((Token.lexeme?_toLower c rest).trans hlexeme)]
    rw [← List.map_drop, ← List.map_take, ← List.map_cons, ih, Token.ofLexeme_toLower]
    rfl

/-- Texts with the same fold have the same tokens in disguise. -/
lemma alike_of_fold_eq {text text' : String} (h : fold text = fold text') :
    Disguise.folding.Alike text text' := by
  have hchars : text.toList.map Char.toLower = text'.toList.map Char.toLower := by
    rw [← toList_fold, ← toList_fold, h]
  have hscan : (⟨(scan text).tokens.map Disguise.folding.token, (scan text).failure⟩ : Scan) =
      ⟨(scan text').tokens.map Disguise.folding.token, (scan text').failure⟩ := by
    rw [scan, scan, ← Scan.run_toLower, ← Scan.run_toLower, hchars]
  obtain ⟨htokens, hfailure⟩ := Scan.mk.inj hscan
  refine ⟨htokens, congrArg (Option.map id) hfailure, ?_⟩
  have hlength := congrArg List.length hchars
  rw [List.length_map, List.length_map] at hlength
  exact hlength

/-! ### Names are ASCII -/

namespace Token

/-- The characters of names are ASCII. -/
lemma toNat_lt_of_isNameChar {c : Char} (h : isNameChar c = true) : c.toNat < 128 := by
  simp only [isNameChar, Char.isAlphanum, Bool.or_eq_true, decide_eq_true_eq] at h
  rcases h with ((halpha | hdigit) | rfl) | rfl
  · have hletter := Text.toNat_of_isAlpha halpha
    omega
  · exact Nat.lt_of_le_of_lt (Char.isDigit_iff_toNat.mp hdigit).2 (by decide)
  · decide
  · decide

/-- Names are ASCII. -/
lemma toNat_lt_of_isNameText {chars : List Char} (h : isNameText chars = true) :
    ∀ c ∈ chars, c.toNat < 128 := by
  cases chars with
  | nil => exact nofun
  | cons first rest =>
    simp only [isNameText, Bool.and_eq_true, List.all_eq_true] at h
    have hfirst : isNameChar first = true := by simp [isNameChar, Char.isAlphanum, h.1]
    exact List.forall_mem_cons.mpr
      ⟨toNat_lt_of_isNameChar hfirst, fun c hc => toNat_lt_of_isNameChar (h.2 c hc)⟩

/-- Lexemes are ASCII, except for the digits of numbers. -/
lemma IsLexeme.toNat_lt {kind : Kind} {chars : List Char} (h : IsLexeme kind chars)
    (hkind : kind ≠ .number) : ∀ c ∈ chars, c.toNat < 128 := by
  cases h with
  | name hname => exact toNat_lt_of_isNameText hname
  | var hname | keyword hname | flag hname =>
    exact List.forall_mem_cons.mpr ⟨by decide, toNat_lt_of_isNameText hname⟩
  | number | negative => exact absurd rfl hkind
  | operator hop =>
    have hall : operators.flatten.all (·.toNat < 128) = true := by decide
    exact fun c hc => of_decide_eq_true
      (List.all_eq_true.mp hall c (List.mem_flatten_of_mem hop hc))
  | _ => exact List.forall_mem_singleton.mpr (by decide)

end Token

/-- On what is scanned, `fold` is as good as any way to fold texts that does on ASCII what `fold`
does, whatever it does with other characters. -/
theorem Token.lower_text_eq_key {lower : String → String}
    (hlower : ∀ text : String, (∀ c ∈ text.toList, c.toNat < 128) → lower text = fold text)
    {text : String} {token : Token} (h : token ∈ (scan text).tokens)
    (hkind : token.kind ≠ .number) : lower token.text = token.key :=
  hlower _ (Token.IsLexeme.toNat_lt (Scan.isLexeme_of_mem_run h) hkind)

/-! ### Failures -/

/-- A part of a document is the same in words up to case. -/
@[simp] lemma Site.fold_text_rename (site : Site) :
    fold (site.rename fold).text = fold site.text := by
  have hstring : ∀ text : String, toString text = text := fun _ => rfl
  unfold text
  cases site <;> simp only [rename, hstring, fold_append, fold_fold]

/-- A type is the same in words up to case. -/
@[simp] lemma TypeSpec.fold_text_rename (type : TypeSpec) :
    fold (type.rename fold).text = fold type.text := by
  unfold text
  cases type <;> simp [rename, fold_intercalate, Function.comp_def]

/-- An atom is the same in words up to case. -/
@[simp] lemma Atom.fold_text_rename (atom : Atom) :
    fold (atom.rename fold).text = fold atom.text := by
  simp [rename, text, fold_intercalate, Function.comp_def]

/-- A defect is the same in words up to case. -/
lemma Defect.fold_message (defect : Defect) :
    fold (Disguise.folding.defect defect).message = fold defect.message := by
  have hstring : ∀ text : String, toString text = text := fun _ => rfl
  have hspell : Disguise.folding.spell = fold := rfl
  unfold message
  cases defect <;> simp only [Disguise.defect, Disguise.token, hspell, hstring, fold_append,
    fold_fold, Site.fold_text_rename, TypeSpec.fold_text_rename, Atom.fold_text_rename,
    fold_intercalate, List.map_map, Function.comp_def, Atom.name_rename, Atom.args_rename,
    List.length_map]

/-- A syntax error is the same in words up to case. -/
lemma SyntaxError.fold_message (error : SyntaxError) :
    fold (Disguise.folding.syntaxError error).message = fold error.message := by
  have hstring : ∀ text : String, toString text = text := fun _ => rfl
  have hspell : Disguise.folding.spell = fold := rfl
  have hfound : fold (Disguise.folding.syntaxError error).foundText = fold error.foundText := by
    obtain ⟨expected, found, offset, cause⟩ := error
    cases found with
    | none => rfl
    | some token =>
      change fold ("'" ++ fold token.text ++ "'") = fold ("'" ++ token.text ++ "'")
      simp only [fold_append, fold_fold]
  have hcause : (Disguise.folding.syntaxError error).cause = error.cause.rename fold := rfl
  have hexpected : (Disguise.folding.syntaxError error).expected = error.expected := rfl
  unfold message
  rw [hcause, hexpected]
  cases error.cause with
  | breach found =>
    unfold Cause.rename Breach.message
    cases found <;> simp only [Breach.rename, hstring, fold_append, fold_fold]
  | _ => simp only [Cause.rename, hstring, fold_append, fold_fold, hfound]

/-- Why a text yields no document, in one word. -/
inductive Failure.Kind
  | lexical
  | grammar
  | invalid
  | integerTooLong
  | timeOutOfRange
deriving DecidableEq, Repr

/-- The kind of a failure. -/
def Failure.kind : Failure → Failure.Kind
  | .lexical _ => .lexical
  | .grammar _ => .grammar
  | .invalid _ => .invalid
  | .integerTooLong => .integerTooLong
  | .timeOutOfRange => .timeOutOfRange

/-- Two failures are of one kind, at one place, and the same in words up to case. -/
structure Failure.SameUpToCase (failure failure' : Failure) : Prop where
  kind : failure.kind = failure'.kind
  location : failure.location = failure'.location
  message : fold failure.message = fold failure'.message

/-- A folded failure is the failure up to case. -/
lemma Failure.folding_sameUpToCase (failure : Failure) :
    (Disguise.folding.failure failure).SameUpToCase failure := by
  cases failure with
  | lexical error => exact ⟨rfl, rfl, rfl⟩
  | grammar error =>
    refine ⟨rfl, ?_, error.fold_message⟩
    obtain ⟨expected, found, offset, cause⟩ := error
    cases found <;> rfl
  | invalid defect =>
    refine ⟨rfl, ?_, defect.fold_message⟩
    cases defect <;> rfl
  | integerTooLong => exact ⟨rfl, rfl, rfl⟩
  | timeOutOfRange => exact ⟨rfl, rfl, rfl⟩

/-- Failures that fold alike are the same up to case. -/
lemma Failure.sameUpToCase_of_folding_eq {failure failure' : Failure}
    (h : Disguise.folding.failure failure = Disguise.folding.failure failure') :
    failure.SameUpToCase failure' := by
  have hfirst := failure.folding_sameUpToCase
  have hsecond := failure'.folding_sameUpToCase
  rw [h] at hfirst
  exact ⟨hfirst.kind.symm.trans hsecond.kind, hfirst.location.symm.trans hsecond.location,
    hfirst.message.symm.trans hsecond.message⟩

/-! ### Documents -/

/-- Both results are documents that are the same when all their names are folded, or both are
failures that are the same up to case. -/
inductive SameUpToCase {α : Type} (rename : (String → String) → α → α) :
    Except Failure α → Except Failure α → Prop
  | documents {document document' : α} : rename fold document = rename fold document' →
      SameUpToCase rename (.ok document) (.ok document')
  | failures {failure failure' : Failure} : failure.SameUpToCase failure' →
      SameUpToCase rename (.error failure) (.error failure')

/-- Results that fold alike are the same up to case. -/
lemma sameUpToCase_of_folding_eq {α : Type} {rename : (String → String) → α → α}
    {result result' : Except Failure α}
    (h : Disguise.folding.result (rename fold) result =
      Disguise.folding.result (rename fold) result') : SameUpToCase rename result result' := by
  cases result with
  | ok document =>
    cases result' with
    | ok document' => exact .documents (Except.ok.inj h)
    | error failure' => cases h
  | error failure =>
    cases result' with
    | ok document' => cases h
    | error failure' => exact .failures (Failure.sameUpToCase_of_folding_eq (Except.error.inj h))

/-- Two texts that differ in the case of letters only have the same tokens up to case, each at the
same place, and the same character that starts no lexeme, if any; and they are read as problems and
as plans with results that are the same up to case. -/
theorem readings_sameUpToCase (settings : Settings) (capacity : Nat) {text text' : String}
    (h : fold text = fold text') :
    ((scan text).tokens.map (fun token => { token with text := fold token.text }) =
        (scan text').tokens.map (fun token => { token with text := fold token.text }) ∧
      (scan text).failure = (scan text').failure) ∧
    SameUpToCase Problem.rename (Problem.parse settings text capacity).result
      (Problem.parse settings text' capacity).result ∧
    SameUpToCase Plan.rename (Plan.parse settings text).result
      (Plan.parse settings text').result := by
  have halike := alike_of_fold_eq h
  refine ⟨⟨halike.tokens, ?_⟩, ?_, ?_⟩
  · simpa [Disguise.folding] using halike.failure
  · exact sameUpToCase_of_folding_eq (halike.result_run Disguise.folding.problem _)
  · exact sameUpToCase_of_folding_eq (halike.result_run Disguise.folding.plan _)

/-- A problem in small letters. -/
def smallProblemText : String :=
  "(define (problem p) (:domain d) (:goal (not (q a))))"

/-- The same problem with capitals in keywords, reserved words and names. -/
def capitalProblemText : String :=
  "(DEFINE (problem P) (:Domain d) (:goal (Not (q A))))"

/-- Both texts are read, and into the same problem when names are folded. -/
theorem readings_sameUpToCase_negation :
    fold smallProblemText = fold capitalProblemText ∧
      ∃ problem problem', (Problem.parse .lenient smallProblemText).result = .ok problem ∧
        (Problem.parse .lenient capitalProblemText).result = .ok problem' ∧
        problem.rename fold = problem'.rename fold := by
  have hfold : fold smallProblemText = fold capitalProblemText := by decide +kernel
  have hsmall : (Problem.parse .lenient smallProblemText).result.toOption.isSome = true := by
    decide +kernel
  have hsame := (readings_sameUpToCase .lenient Reader.documentCapacity hfold).2.1
  generalize (Problem.parse .lenient smallProblemText).result = result at hsmall hsame ⊢
  generalize (Problem.parse .lenient capitalProblemText).result = result' at hsame ⊢
  cases hsame with
  | documents heq => exact ⟨hfold, _, _, rfl, rfl, heq⟩
  | failures _ => cases hsmall

end Pddl
