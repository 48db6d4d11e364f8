import Pddl.Proofs.Origin
import Pddl.Reader.Problem

/-!
# Readers trace their failures

Every reader of expressions, actions and problems fails only as its text accounts for.  Most of them
do so wherever they start.  A reader that reports a token it has consumed without looking at it does
so only where that is a token of the text, as it is wherever the reader is used.  A document is read
to the end of its text, also where what follows it is skipped (`endOfDocument_tracesFrom`).
-/

namespace Pddl.Reader

variable {text : String} {other : Failure → Prop} {α : Type} {tokens : List Token}

/-! ### Expected tokens -/

/-- The first token is the one shown, unless that is the end of the input. -/
lemma eq_cons_of_front (h : (front text tokens).kind ≠ .endOfInput) :
    tokens = front text tokens :: tokens.tail := by
  cases tokens with
  | nil => exact absurd rfl h
  | cons token rest => rfl

/-- Consuming a token of an expected kind. -/
lemma expect_tracesFrom {kind : Token.Kind} (hkind : kind ≠ .endOfInput) (expected : String) :
    TracesFrom text other tokens (expect kind expected) fun token rest =>
      token ∈ (scan text).tokens ∧ token.kind = kind ∧ tokens = token :: rest := by
  refine currentKind_tracesFrom.bind fun found rest _ h => ?_
  obtain ⟨rfl, rfl⟩ := h
  split
  case isTrue heq =>
    refine advance_tracesFrom.mono fun token rest' _ h => ?_
    obtain ⟨rfl, hknown, rfl⟩ := h
    have hne : (front text rest).kind ≠ .endOfInput := by rwa [heq]
    exact ⟨hknown.mem hne, heq, eq_cons_of_front hne⟩
  case isFalse => exact failHere_tracesFrom _ _

/-- Consuming a token of an expected kind, anywhere. -/
lemma expect_traces {kind : Token.Kind} (hkind : kind ≠ .endOfInput) (expected : String) :
    Traces text other (expect kind expected) (· ∈ (scan text).tokens) :=
  fun _ => (expect_tracesFrom hkind expected).mono fun _ _ _ h => h.1

/-- Consuming a parenthesis. -/
lemma openParen_traces : Traces text other openParen (· ∈ (scan text).tokens) :=
  expect_traces (by decide) _

/-- Consuming a parenthesis. -/
lemma closeParen_traces : Traces text other closeParen (· ∈ (scan text).tokens) :=
  expect_traces (by decide) _

/-- Consuming an expected text. -/
lemma expectText_traces (kind : Token.Kind) (word expected : String) :
    Traces text other (expectText kind word expected) fun _ => True := by
  refine current_traces.bind fun token _ => ?_
  split
  · exact advance_traces.mono fun _ _ => trivial
  · exact failHere_traces _ _

/-- Consuming a keyword. -/
lemma keyword_traces (word : String) :
    Traces text other (keyword word) (· ∈ (scan text).tokens) := by
  refine fun tokens => current_tracesFrom.bind fun found rest _ h => ?_
  obtain ⟨rfl, -, rfl⟩ := h
  split
  case isTrue heq =>
    refine advance_tracesFrom.mono fun token _ _ h => ?_
    obtain ⟨rfl, hknown, -⟩ := h
    apply hknown.mem
    intro hend
    simp [isKeywordText, isKeyword, hend] at heq
  case isFalse => exact failHere_tracesFrom _ _

/-- Closing a form. -/
lemma closeForm_traces (opener : Token) (reason : String) :
    Traces text other (closeForm opener reason) fun _ => True := by
  refine currentKind_traces.bind fun kind _ => ?_
  split
  · exact advance_traces.bind fun _ _ => .pure trivial
  · exact failHere_traces _ _

/-! ### Repetition and nesting -/

/-- Reading one level deeper, anywhere. -/
lemma nested_traces {body : ReadM α} {K : α → Prop} (h : Traces text other body K) :
    Traces text other (nested body) K :=
  fun tokens => nested_tracesFrom (h tokens)

/-- Repeating a reader. -/
lemma whileFuel_traces {test : Token → Bool} {item : ReadM α}
    (hitem : Traces text other item fun _ => True) (fuel : Nat) :
    Traces text other (whileFuel test item fuel) fun _ => True := by
  induction fuel with
  | zero => exact .pure trivial
  | succ fuel ih =>
    refine current_traces.bind fun token _ => ?_
    split
    · exact hitem.bind fun _ _ => ih.bind fun _ _ => .pure trivial
    · exact .pure trivial

/-- Repeating a reader as often as there are tokens. -/
lemma readWhile_traces {test : Token → Bool} {item : ReadM α}
    (hitem : Traces text other item fun _ => True) :
    Traces text other (readWhile test item) fun _ => True :=
  rounds_traces.bind fun _ _ => whileFuel_traces hitem _

/-- Reading texts. -/
lemma textsWhile_traces (test : Token → Bool) :
    Traces text other (textsWhile test) fun _ => True :=
  readWhile_traces (advance_traces.bind fun _ _ => .pure trivial)

/-! ### Names, numbers, types and flags -/

/-- Reading a name. -/
lemma name_traces (expected : String) : Traces text other (name expected) fun _ => True :=
  (expect_traces (by decide) _).bind fun _ _ => .pure trivial

/-- Reading a number, which may be too long to be converted. -/
lemma number_tracesFrom : TracesFrom text other tokens number fun value rest =>
    ∃ token, token.kind = .number ∧ Number.ofText? token.text = some value ∧
      tokens = token :: rest := by
  refine (expect_tracesFrom (by decide) _).bind fun token rest _ h => ?_
  obtain ⟨hmem, hkind, hcons⟩ := h
  split
  case h_1 value hvalue => exact .pure ⟨token, hkind, hvalue, hcons⟩
  case h_2 hnone => exact .throw (.tooLong hmem hkind hnone)

/-- Reading a type. -/
lemma typeSpec_traces (allowEither : Bool) :
    Traces text other (typeSpec allowEither) fun _ => True := by
  refine currentKind_traces.bind fun kind _ => ?_
  split
  · exact advance_traces.bind fun _ _ => .pure trivial
  split
  · refine openParen_traces.bind fun _ _ => (expectText_traces _ _ _).bind fun _ _ => ?_
    refine (name_traces _).bind fun _ _ => (textsWhile_traces _).bind fun _ _ => ?_
    exact (expect_traces (by decide) _).bind fun _ _ => .pure trivial
  · exact failHere_traces _ _

/-- Reading groups of typed names.  The minus sign that is reported is the current token. -/
lemma typedGroups_traces (kind : Token.Kind) (allowEither : Bool) (fuel : Nat) :
    Traces text other (typedGroups kind allowEither fuel) fun _ => True := by
  induction fuel with
  | zero => exact .pure trivial
  | succ fuel ih =>
    refine (textsWhile_traces _).bind fun names _ => ?_
    refine fun tokens => currentKind_tracesFrom.bind fun found rest _ h => ?_
    obtain ⟨hfound, rfl⟩ := h
    split
    · exact .pure trivial
    · exact .pure trivial
    · split
      · exact failHere_tracesFrom _ _
      · refine advance_tracesFrom.bind fun minus after _ h => ?_
        obtain ⟨rfl, hknown, -⟩ := h
        have hmem := hknown.mem (by rw [← hfound]; decide)
        refine (require_traces hmem _).bind (fun _ _ => ?_) after
        exact (typeSpec_traces _).bind fun _ _ => ih.bind fun _ _ => .pure trivial
    · exact failHere_tracesFrom _ _

/-- Reading a typed list. -/
lemma typedList_traces (kind : Token.Kind) (allowEither : Bool) :
    Traces text other (typedList kind allowEither) fun _ => True :=
  rounds_traces.bind fun _ _ => typedGroups_traces _ _ _

/-- Reading a flag.  Only keywords are reported. -/
lemma requirementFlag_traces : Traces text other requirementFlag fun _ => True := by
  refine advance_traces.bind fun flag hknown => ?_
  split
  case isTrue hkind =>
    exact (report_traces (hknown.mem (by rw [hkind]; decide)) _).bind fun _ _ => .pure trivial
  case isFalse => exact .pure trivial

/-- Reading a section of requirements. -/
lemma requirements_traces : Traces text other requirements fun _ => True := by
  refine (keyword_traces _).bind fun _ _ => ?_
  refine (readWhile_traces requirementFlag_traces).bind fun _ _ => ?_
  refine (expect_traces (by decide) _).bind fun _ _ tokens => ?_
  refine (declareFlags_tracesFrom _).bind_still fun _ => ?_
  exact (note_tracesFrom _).bind_still fun _ => .pure trivial

/-- Reading the start of a document. -/
lemma header_traces (kind expected : String) :
    Traces text other (header kind expected) fun _ => True := by
  refine openParen_traces.bind fun _ _ => (expectText_traces _ _ _).bind fun _ _ => ?_
  refine openParen_traces.bind fun _ _ => (expectText_traces _ _ _).bind fun _ _ => ?_
  exact (name_traces _).bind fun _ _ => closeParen_traces.bind fun _ _ => .pure trivial

/-! ### After the document -/

/-- Skipping the rest of the input leads to its end, if there are rounds enough. -/
lemma skipRest_tracesFrom (fuel : Nat) : ∀ (opened : Nat) (tokens : List Token),
    tokens.length < fuel →
    TracesFrom text other tokens (skipRest fuel opened) fun _ rest => rest = [] := by
  induction fuel with
  | zero => exact fun _ _ hlength => absurd hlength (Nat.not_lt_zero _)
  | succ fuel ih =>
    intro opened tokens hlength
    -- Whatever the parentheses, going on passes a token and takes a round.
    have hnext : (front text tokens).kind ≠ .endOfInput → ∀ opened,
        TracesFrom text other tokens (do let _ ← advance; skipRest fuel opened) fun _ rest =>
          rest = [] := by
      intro hne opened
      refine advance_tracesFrom.bind fun token rest _ h => ?_
      obtain ⟨-, -, rfl⟩ := h
      apply ih
      have hcons := congrArg List.length (eq_cons_of_front hne)
      rw [List.length_cons] at hcons
      omega
    intro c s hs
    refine (currentKind_tracesFrom.bind fun kind rest _ h => ?_) c s hs
    obtain ⟨hkind, rfl⟩ := h
    split
    · exact .pure (hs.eq_nil hkind.symm)
    · exact failHere_tracesFrom _ _
    · exact hnext (by rw [← hkind]; decide) _
    · exact hnext (by rw [← hkind]; decide) _
    · exact hnext (fun hend => by simp_all) _

/-- What follows a document is read to the end of the input, whether it is skipped or not. -/
lemma endOfDocument_tracesFrom :
    TracesFrom text other tokens endOfDocument fun _ rest => rest = [] := by
  intro c s hs
  refine (current_tracesFrom.bind fun token rest _ h => ?_) c s hs
  obtain ⟨rfl, -, rfl⟩ := h
  split
  case isTrue hend => exact .pure (hs.eq_nil hend)
  case isFalse =>
    refine read_tracesFrom.bind_still fun context => ?_
    split
    · exact failHere_tracesFrom _ _
    · refine (note_tracesFrom _).bind_still fun _ => ?_
      refine rounds_tracesFrom.bind fun n rest' _ h => ?_
      obtain ⟨rfl, rfl⟩ := h
      exact skipRest_tracesFrom _ _ _ (Nat.lt_succ_self _)

/-! ### Atoms and numeric terms -/

/-- Reading an atom. -/
lemma atomicFormula_traces (ground : Bool) :
    Traces text other (atomicFormula ground) fun _ => True := by
  refine (name_traces _).bind fun _ _ => (textsWhile_traces _).bind fun _ _ => ?_
  refine currentKind_traces.bind fun kind _ => ?_
  split
  · exact failHere_traces _ _
  · exact (expect_traces (by decide) _).bind fun _ _ => .pure trivial

/-- Reading an atom with its parentheses. -/
lemma parenthesizedAtom_traces (ground : Bool) :
    Traces text other (parenthesizedAtom ground) fun _ => True :=
  openParen_traces.bind fun _ _ => atomicFormula_traces _

/-- Reading a fluent. -/
lemma fluent_traces : Traces text other fluent fun _ => True := by
  refine currentKind_traces.bind fun kind _ => ?_
  split
  · exact advance_traces.bind fun _ _ => .pure trivial
  · refine nested_traces ((expect_traces (by decide) _).bind fun _ _ => ?_)
    exact atomicFormula_traces _

/-- Reading arithmetic.  The operator that is reported is a token, because it has a text. -/
lemma arithmetic_traces {term : ReadM Expr} (hterm : Traces text other term fun _ => True) :
    Traces text other (arithmetic term) fun _ => True := by
  refine current_traces.bind fun token hknown => ?_
  split
  case h_1 => exact failHere_traces _ _
  case h_2 op hop =>
    have hmem := hknown.mem_of_text fun htext => by
      rw [htext] at hop
      cases hop
    refine arithmeticAllowed_traces.bind fun allowed _ => ?_
    split
    · refine advance_traces.bind fun _ _ => (readWhile_traces hterm).bind fun operands _ => ?_
      split
      · exact advance_traces.bind fun _ _ => .pure trivial
      · exact failAt_traces hmem _ _
    · exact failHere_traces _ _

/-- Reading a numeric term. -/
lemma numericTerm_traces (budget : Nat) :
    Traces text other (numericTerm budget) fun _ => True := by
  induction budget with
  | zero => exact failHere_traces _ _
  | succ budget ih =>
    refine currentKind_traces.bind fun kind _ => ?_
    cases kind with
    | number => exact fun tokens => number_tracesFrom.bind fun _ _ _ _ => .pure trivial
    | var | name => exact advance_traces.bind fun _ _ => .pure trivial
    | openParen =>
      refine nested_traces (advance_traces.bind fun _ _ => ?_)
      refine currentKind_traces.bind fun kind _ => ?_
      cases kind with
      | minus | operator => exact arithmetic_traces ih
      | name => exact (atomicFormula_traces _).bind fun _ _ => .pure trivial
      | _ => exact failHere_traces _ _
    | _ => exact failHere_traces _ _

/-- Reading a comparison.  The operator that is reported is a token, because it has a text. -/
lemma comparison_traces {term : ReadM Expr} (hterm : Traces text other term fun _ => True)
    (governed : Bool) : Traces text other (comparison term governed) fun _ => True := by
  refine current_traces.bind fun token hknown => ?_
  split
  case h_1 => exact failHere_traces _ _
  case h_2 op hop =>
    have hmem := hknown.mem_of_text fun htext => by
      rw [htext] at hop
      cases hop
    refine advance_traces.bind fun _ _ => hterm.bind fun _ _ => hterm.bind fun _ _ => ?_
    split
    · refine (require_traces hmem _).bind fun _ _ => ?_
      exact (closeForm_traces _ _).bind fun _ _ => .pure trivial
    · exact (closeForm_traces _ _).bind fun _ _ => .pure trivial

/-! ### Conditions, effects and duration constraints -/

/-- Looking for a time specifier stays in place. -/
lemma timeAhead?_tracesFrom :
    TracesFrom text other tokens timeAhead? fun _ rest => rest = tokens := by
  refine peek_tracesFrom.bind_still fun next => ?_
  split
  · exact current_tracesFrom.bind fun _ _ _ h => .pure h.2.2
  · exact .pure rfl

/-- Reading a timed expression before a token of the text, which is what is reported. -/
lemma timed_tracesFrom {operand : ReadM Expr} (hoperand : Traces text other operand fun _ => True)
    (time : TimeSpec) (allowed inEffect : Bool) (hne : (front text tokens).kind ≠ .endOfInput) :
    TracesFrom text other tokens (timed time allowed inEffect operand) fun _ _ => True := by
  unfold timed
  split
  · refine advance_tracesFrom.bind fun opener rest _ h => ?_
    obtain ⟨rfl, hknown, -⟩ := h
    refine advance_traces.bind (fun _ _ => ?_) rest
    split
    · exact failAt_traces (hknown.mem hne) _ _
    · refine (require_traces (hknown.mem hne) _).bind fun _ _ => hoperand.bind fun _ _ => ?_
      exact (closeForm_traces _ _).bind fun _ _ => .pure trivial
  · exact failHere_tracesFrom _ _

/-- Reading operands. -/
lemma operands_traces {operand : ReadM Expr} (hoperand : Traces text other operand fun _ => True) :
    Traces text other (operands operand) fun _ => True :=
  (readWhile_traces hoperand).bind fun _ _ => (expect_traces (by decide) _).bind fun _ _ =>
    .pure trivial

/-- Reading the variables of a quantifier. -/
lemma quantifiedVariables_traces : Traces text other quantifiedVariables fun _ => True :=
  (expect_traces (by decide) _).bind fun _ _ => (typedList_traces _ _).bind fun _ _ =>
    closeParen_traces.bind fun _ _ => .pure trivial

/-- Reading a condition. -/
lemma condition_traces (budget : Nat) : ∀ temporal,
    Traces text other (condition budget temporal) fun _ => True := by
  induction budget with
  | zero => exact fun _ => failHere_traces _ _
  | succ budget ih =>
    intro temporal
    refine nested_traces ((expect_traces (by decide) _).bind fun _ _ tokens => ?_)
    refine current_tracesFrom.bind fun token rest _ h => ?_
    obtain ⟨rfl, hknown, rfl⟩ := h
    cases hkind : (front text rest).kind with
    | closeParen => exact advance_traces.bind (fun _ _ => .pure trivial) rest
    | operator => exact comparison_traces (numericTerm_traces _) _ rest
    | name =>
      have hne : (front text rest).kind ≠ .endOfInput := by rw [hkind]; decide
      have hmem := hknown.mem hne
      cases Head.ofKey (front text rest).key with
      | conjunction =>
        refine advance_traces.bind (fun _ _ => ?_) rest
        exact (operands_traces (ih _)).bind fun _ _ => .pure trivial
      | disjunction =>
        refine advance_traces.bind (fun _ _ => (require_traces hmem _).bind fun _ _ => ?_) rest
        exact (operands_traces (ih _)).bind fun _ _ => .pure trivial
      | negation =>
        refine advance_traces.bind (fun _ _ => (ih _).bind fun _ _ => ?_) rest
        exact (closeForm_traces _ _).bind fun _ _ => .pure trivial
      | quantifier quantifier =>
        refine advance_traces.bind (fun _ _ => (require_traces hmem _).bind fun _ _ => ?_) rest
        refine quantifiedVariables_traces.bind fun _ _ => (ih _).bind fun _ _ => ?_
        exact (closeForm_traces _ _).bind fun _ _ => .pure trivial
      | time =>
        refine timeAhead?_tracesFrom.bind_still fun time => ?_
        cases time with
        | some time => exact timed_tracesFrom (ih _) _ _ _ hne
        | none => exact (atomicFormula_traces _).bind (fun _ _ => .pure trivial) rest
      | conditional | update => exact failHere_tracesFrom _ _
      | symbol => exact (atomicFormula_traces _).bind (fun _ _ => .pure trivial) rest
    | _ => exact failHere_tracesFrom _ _

/-- Reading an update before a token of the text, which is what is reported. -/
lemma numericUpdate_tracesFrom {term : ReadM Expr} (hterm : Traces text other term fun _ => True)
    (op : UpdateOp) (hne : (front text tokens).kind ≠ .endOfInput) :
    TracesFrom text other tokens (numericUpdate op term) fun _ _ => True := by
  refine advance_tracesFrom.bind fun token rest _ h => ?_
  obtain ⟨rfl, hknown, -⟩ := h
  refine (require_traces (hknown.mem hne) _).bind (fun _ _ => ?_) rest
  refine fluent_traces.bind fun _ _ => hterm.bind fun _ _ => ?_
  exact (closeForm_traces _ _).bind fun _ _ => .pure trivial

/-- Reading an effect. -/
lemma effect_traces (budget : Nat) : ∀ temporal,
    Traces text other (effect budget temporal) fun _ => True := by
  induction budget with
  | zero => exact fun _ => failHere_traces _ _
  | succ budget ih =>
    intro temporal
    refine nested_traces ((expect_traces (by decide) _).bind fun _ _ tokens => ?_)
    refine current_tracesFrom.bind fun token rest _ h => ?_
    obtain ⟨rfl, hknown, rfl⟩ := h
    cases hkind : (front text rest).kind with
    | closeParen => exact advance_traces.bind (fun _ _ => .pure trivial) rest
    | name =>
      have hne : (front text rest).kind ≠ .endOfInput := by rw [hkind]; decide
      have hmem := hknown.mem hne
      cases Head.ofKey (front text rest).key with
      | conjunction =>
        refine advance_traces.bind (fun _ _ => ?_) rest
        exact (operands_traces (ih _)).bind fun _ _ => .pure trivial
      | negation =>
        refine advance_traces.bind (fun _ _ => ?_) rest
        refine (nested_traces (parenthesizedAtom_traces _)).bind fun _ _ => ?_
        exact (closeForm_traces _ _).bind fun _ _ => .pure trivial
      | quantifier quantifier =>
        cases quantifier with
        | universal =>
          refine advance_traces.bind (fun _ _ => (require_traces hmem _).bind fun _ _ => ?_) rest
          refine quantifiedVariables_traces.bind fun _ _ => (ih _).bind fun _ _ => ?_
          exact (closeForm_traces _ _).bind fun _ _ => .pure trivial
        | existential => exact failHere_tracesFrom _ _
      | conditional =>
        refine advance_traces.bind (fun _ _ => (require_traces hmem _).bind fun _ _ => ?_) rest
        refine (condition_traces _ _).bind fun _ _ => (ih _).bind fun _ _ => ?_
        exact (closeForm_traces _ _).bind fun _ _ => .pure trivial
      | time =>
        refine timeAhead?_tracesFrom.bind_still fun time => ?_
        cases time with
        | some time => exact timed_tracesFrom (ih _) _ _ _ hne
        | none => exact (atomicFormula_traces _).bind (fun _ _ => .pure trivial) rest
      | update op => exact numericUpdate_tracesFrom (numericTerm_traces _) _ hne
      | disjunction => exact failHere_tracesFrom _ _
      | symbol => exact (atomicFormula_traces _).bind (fun _ _ => .pure trivial) rest
    | _ => exact failHere_tracesFrom _ _

/-- Reading a duration constraint. -/
lemma durationConstraint_traces (budget : Nat) :
    Traces text other (durationConstraint budget) fun _ => True := by
  induction budget with
  | zero => exact failHere_traces _ _
  | succ budget ih =>
    refine nested_traces ((expect_traces (by decide) _).bind fun _ _ tokens => ?_)
    refine current_tracesFrom.bind fun token rest _ h => ?_
    obtain ⟨rfl, hknown, rfl⟩ := h
    cases hkind : (front text rest).kind with
    | closeParen => exact advance_traces.bind (fun _ _ => .pure trivial) rest
    | operator => exact comparison_traces (numericTerm_traces _) _ rest
    | name =>
      have hne : (front text rest).kind ≠ .endOfInput := by rw [hkind]; decide
      dsimp only
      split
      · refine advance_traces.bind (fun _ _ => ?_) rest
        refine (require_traces (hknown.mem hne) _).bind fun _ _ => ?_
        exact (operands_traces ih).bind fun _ _ => .pure trivial
      · refine timeAhead?_tracesFrom.bind_still fun time => ?_
        cases time with
        | some time => exact timed_tracesFrom ih _ _ _ hne
        | none => exact failHere_tracesFrom _ _
    | _ => exact failHere_tracesFrom _ _

/-- Reading a numeric term with all of the budget. -/
lemma anyNumericTerm_traces : Traces text other anyNumericTerm fun _ => True :=
  budget_traces.bind fun _ _ => numericTerm_traces _

/-- Reading a condition with all of the budget. -/
lemma anyCondition_traces (temporal : Bool) :
    Traces text other (anyCondition temporal) fun _ => True :=
  budget_traces.bind fun _ _ => condition_traces _ _

/-- Reading an effect with all of the budget. -/
lemma anyEffect_traces (temporal : Bool) : Traces text other (anyEffect temporal) fun _ => True :=
  budget_traces.bind fun _ _ => effect_traces _ _

/-- Reading a duration constraint with all of the budget. -/
lemma anyDurationConstraint_traces : Traces text other anyDurationConstraint fun _ => True :=
  budget_traces.bind fun _ _ => durationConstraint_traces _

/-! ### Actions -/

/-- Reading parameters. -/
lemma parameters_traces : Traces text other parameters fun _ => True := by
  refine (keyword_traces _).bind fun _ _ => (expect_traces (by decide) _).bind fun _ _ => ?_
  exact (typedList_traces _ _).bind fun _ _ => closeParen_traces.bind fun _ _ => .pure trivial

/-- Reading a field of an instantaneous action. -/
lemma actionField_traces : Traces text other actionField fun _ => True := by
  refine current_traces.bind fun token _ => ?_
  split
  · exact parameters_traces.bind fun _ _ => .pure trivial
  · exact advance_traces.bind fun _ _ => (anyCondition_traces _).bind fun _ _ => .pure trivial
  · exact advance_traces.bind fun _ _ => (anyEffect_traces _).bind fun _ _ => .pure trivial
  · exact failHere_traces _ _

/-- Reading an instantaneous action. -/
lemma action_traces : Traces text other action fun _ => True := by
  refine (keyword_traces _).bind fun _ _ => (name_traces _).bind fun _ _ => ?_
  refine (readWhile_traces actionField_traces).bind fun _ _ => ?_
  exact (expect_traces (by decide) _).bind fun _ _ => .pure trivial

/-- Reading a field of a durative action. -/
lemma durativeActionField_traces : Traces text other durativeActionField fun _ => True := by
  refine current_traces.bind fun token _ => ?_
  split
  · exact parameters_traces.bind fun _ _ => .pure trivial
  · exact advance_traces.bind fun _ _ => anyDurationConstraint_traces.bind fun _ _ => .pure trivial
  · exact advance_traces.bind fun _ _ => (anyCondition_traces _).bind fun _ _ => .pure trivial
  · exact advance_traces.bind fun _ _ => (anyEffect_traces _).bind fun _ _ => .pure trivial
  · exact failHere_traces _ _

/-- Reading a durative action, whose keyword is what is reported. -/
lemma durativeAction_traces : Traces text other durativeAction fun _ => True := by
  refine (keyword_traces _).bind fun opener hmem => (require_traces hmem _).bind fun _ _ => ?_
  refine (name_traces _).bind fun _ _ => ?_
  refine (readWhile_traces durativeActionField_traces).bind fun fields _ => ?_
  dsimp only
  split
  · exact (expect_traces (by decide) _).bind fun _ _ => .pure trivial
  · exact failHere_traces _ _

/-! ### Problems -/

/-- Reading an element of an initial state. -/
lemma initElement_traces : Traces text other initElement fun _ => True := by
  refine nested_traces (openParen_traces.bind fun _ _ => current_traces.bind fun token _ => ?_)
  split
  · refine advance_traces.bind fun _ _ => fluent_traces.bind fun _ _ => ?_
    refine anyNumericTerm_traces.bind fun _ _ => ?_
    exact (closeForm_traces _ _).bind fun _ _ => .pure trivial
  split
  · refine advance_traces.bind fun _ _ => ?_
    refine (nested_traces (parenthesizedAtom_traces _)).bind fun _ _ => ?_
    exact (closeForm_traces _ _).bind fun _ _ => .pure trivial
  · exact (atomicFormula_traces _).bind fun _ _ => .pure trivial

/-- Reading a metric, whose direction is what is reported. -/
lemma metric_traces : Traces text other metric fun _ => True := by
  refine (expect_traces (by decide) _).bind fun token hmem => ?_
  split
  · exact anyNumericTerm_traces.bind fun _ _ => .pure trivial
  · exact failAt_traces hmem _ _

/-- Reading a section of a problem by its kind. -/
lemma problemSectionOf_traces (kind : ProblemSectionKind) :
    Traces text other (problemSectionOf kind) fun _ => True := by
  cases kind with
  | domain =>
    refine advance_traces.bind fun _ _ => (name_traces _).bind fun _ _ => ?_
    exact closeParen_traces.bind fun _ _ => .pure trivial
  | requirements => exact requirements_traces.bind fun _ _ => .pure trivial
  | objects =>
    refine advance_traces.bind fun _ _ => (typedList_traces _ _).bind fun _ _ => ?_
    exact closeParen_traces.bind fun _ _ => .pure trivial
  | init =>
    refine advance_traces.bind fun _ _ => ?_
    exact (operands_traces initElement_traces).bind fun _ _ => .pure trivial
  | goal =>
    refine advance_traces.bind fun _ _ => (anyCondition_traces _).bind fun _ _ => ?_
    exact closeParen_traces.bind fun _ _ => .pure trivial
  | metric =>
    refine advance_traces.bind fun _ _ => metric_traces.bind fun _ _ => ?_
    exact closeParen_traces.bind fun _ _ => .pure trivial

/-- Reading a section of a problem. -/
lemma problemSection_traces : Traces text other problemSection fun _ => True := by
  refine openParen_traces.bind fun _ _ => current_traces.bind fun token _ => ?_
  split
  · split
    · exact problemSectionOf_traces _
    · exact failHere_traces _ _
  · exact failHere_traces _ _

/-- Reading a problem, up to the end of the input. -/
lemma problem_tracesFrom : TracesFrom text other tokens problem fun _ rest => rest = [] := by
  refine (header_traces _ _ tokens).bind fun name rest _ _ => ?_
  refine (note_tracesFrom _).bind_still fun _ => ?_
  refine (readWhile_traces problemSection_traces rest).bind fun sections rest' _ _ => ?_
  dsimp only
  split
  · exact failHere_tracesFrom _ _
  · exact failHere_tracesFrom _ _
  · refine (expect_tracesFrom (by decide) _).bind fun _ _ _ _ => ?_
    exact endOfDocument_tracesFrom.bind fun _ _ _ hend => .pure hend

end Pddl.Reader
