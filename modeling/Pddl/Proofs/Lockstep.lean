import Pddl.Proofs.Disguise

/-!
# Readers do not see through disguises

Every reader below the level of domains commutes with disguises: on disguised tokens it makes the
same steps and yields the same value in disguise.  What a reader decides on is the kind of a token,
its key, and what an operator or a number means; the texts themselves go into values, failures and
notices only.
-/

namespace Pddl.Disguise

variable (d : Disguise) {α β : Type}

/-! ### Expected tokens -/

/-- Expecting a kind. -/
lemma expect (kind : Token.Kind) (expected : String) :
    d.Tracks d.token (Reader.expect kind expected) (Reader.expect kind expected) := by
  refine d.currentKind.andThen fun found => ?_
  split
  · exact d.advance
  · exact d.failHere _ _

/-- Expecting a text. -/
lemma expectText (kind : Token.Kind) (text expected : String) :
    d.Tracks d.token (Reader.expectText kind text expected)
      (Reader.expectText kind text expected) := by
  refine d.current.bind fun token => ?_
  rw [kind_token, key_token]
  split
  · exact d.advance
  · exact d.failHere _ _

/-- A token is a keyword in disguise, too. -/
@[simp] lemma isKeyword_token (token : Token) :
    Reader.isKeyword (d.token token) = Reader.isKeyword token := rfl

/-- Expecting a keyword. -/
lemma keyword (text : String) : d.Tracks d.token (Reader.keyword text) (Reader.keyword text) := by
  refine d.current.bind fun token => ?_
  unfold Reader.isKeywordText
  rw [isKeyword_token, key_token]
  split
  · exact d.advance
  · exact d.failHere _ _

/-- Closing a form. -/
lemma closeForm (opener : Token) (reason : String) :
    d.Tracks id (Reader.closeForm opener reason) (Reader.closeForm (d.token opener) reason) := by
  refine d.currentKind.andThen fun found => ?_
  split
  · exact d.advance.bind fun _ => Commutes.pure rfl
  · exact d.failHere _ (.unclosed opener.text reason)

/-! ### Repetition -/

/-- Repeating a reader. -/
lemma whileFuel {value : α → β} {test : Token → Bool} {item : ReadM α} {item' : ReadM β}
    (htest : ∀ token, test (d.token token) = test token) (hitem : d.Tracks value item item')
    (fuel : Nat) :
    d.Tracks (List.map value) (Reader.whileFuel test item fuel)
      (Reader.whileFuel test item' fuel) := by
  induction fuel with
  | zero => exact Commutes.pure rfl
  | succ fuel ih =>
    refine d.current.bind fun token => ?_
    rw [htest]
    split
    · exact hitem.bind fun _ => ih.bind fun _ => Commutes.pure rfl
    · exact Commutes.pure rfl

/-- Repeating a reader as often as there are tokens. -/
lemma readWhile {value : α → β} {test : Token → Bool} {item : ReadM α} {item' : ReadM β}
    (htest : ∀ token, test (d.token token) = test token) (hitem : d.Tracks value item item') :
    d.Tracks (List.map value) (Reader.readWhile test item) (Reader.readWhile test item') :=
  d.rounds.andThen fun fuel => d.whileFuel htest hitem fuel

/-- Reading texts. -/
lemma textsWhile {test : Token → Bool} (htest : ∀ token, test (d.token token) = test token) :
    d.Tracks (List.map d.spell) (Reader.textsWhile test) (Reader.textsWhile test) :=
  d.readWhile htest (d.advance.bind fun _ => Commutes.pure rfl)

/-- Asking for the budget. -/
lemma budget : d.Tracks id Reader.budget Reader.budget := by
  refine d.read.andThen fun c => ?_
  split
  · exact Commutes.pure rfl
  · exact d.rounds

/-! ### Names, numbers, types and flags -/

/-- Reading a name. -/
lemma name (expected : String) :
    d.Tracks d.spell (Reader.name expected) (Reader.name expected) :=
  (d.expect _ _).bind fun _ => Commutes.pure rfl

/-- Reading a number. -/
lemma readNumber : d.Tracks id Reader.number Reader.number := by
  refine (d.expect _ _).bind fun token => ?_
  have hnumber : Number.ofText? (d.token token).text = Number.ofText? token.text :=
    d.number token.text
  rw [hnumber]
  split
  · exact Commutes.pure rfl
  · exact Commutes.throw rfl

/-- Reading a type. -/
lemma typeSpec (allowEither : Bool) :
    d.Tracks (TypeSpec.rename d.spell) (Reader.typeSpec allowEither)
      (Reader.typeSpec allowEither) := by
  refine d.currentKind.andThen fun kind => ?_
  split
  · exact d.advance.bind fun _ => Commutes.pure rfl
  split
  · refine (d.expect _ _).bind fun _ => (d.expectText _ _ _).bind fun _ => ?_
    refine (d.name _).bind fun _ => (d.textsWhile fun _ => rfl).bind fun _ => ?_
    exact (d.expect _ _).bind fun _ => Commutes.pure rfl
  · exact d.failHere _ _

/-- Names without a type keep the root type. -/
lemma map_untyped (names : List String) :
    (names.map d.spell).map TypedName.untyped =
      (names.map TypedName.untyped).map (TypedName.rename d.spell) := by
  have hroot : d.spell rootType = rootType := d.spell_of_folded rootType (by decide)
  simp [TypedName.untyped, TypedName.rename, TypeSpec.rename, hroot]

/-- Reading groups of typed names. -/
lemma typedGroups (kind : Token.Kind) (allowEither : Bool) (fuel : Nat) :
    d.Tracks (List.map (TypedName.rename d.spell)) (Reader.typedGroups kind allowEither fuel)
      (Reader.typedGroups kind allowEither fuel) := by
  induction fuel with
  | zero => exact Commutes.pure rfl
  | succ fuel ih =>
    refine (d.textsWhile fun _ => rfl).bind fun names => d.currentKind.andThen fun found => ?_
    cases found with
    | closeParen => exact Commutes.pure (d.map_untyped names)
    | endOfInput => exact Commutes.pure (d.map_untyped names)
    | minus =>
      dsimp only
      rw [List.isEmpty_map]
      split
      · exact d.failHere _ _
      · refine d.advance.bind fun minus => (d.require minus _).andThen fun _ => ?_
        refine (d.typeSpec _).bind fun type => ih.bind fun others => Commutes.pure ?_
        simp [TypedName.rename]
    | _ => exact d.failHere _ _

/-- Reading a typed list. -/
lemma typedList (kind : Token.Kind) (allowEither : Bool) :
    d.Tracks (List.map (TypedName.rename d.spell)) (Reader.typedList kind allowEither)
      (Reader.typedList kind allowEither) :=
  d.rounds.andThen fun fuel => d.typedGroups kind allowEither fuel

/-- Reading a flag. -/
lemma requirementFlag : d.Tracks id Reader.requirementFlag Reader.requirementFlag := by
  refine d.advance.bind fun flag => ?_
  rw [kind_token, key_token]
  split
  · exact (d.report flag (.unknownFlag flag.text)).andThen fun _ => Commutes.pure rfl
  · exact Commutes.pure rfl

/-- Reading a section of requirements. -/
lemma requirements : d.Tracks id Reader.requirements Reader.requirements := by
  refine (d.keyword _).bind fun _ => ?_
  refine (d.readWhile d.isKeyword_token d.requirementFlag).bind fun flags => ?_
  rw [List.map_id]
  refine (d.expect _ _).bind fun _ => (d.declareFlags _).andThen fun _ => ?_
  exact (d.note (.requirementsRead _)).andThen fun _ => Commutes.pure rfl

/-- Reading the start of a document. -/
lemma header (kind expected : String) :
    d.Tracks d.spell (Reader.header kind expected) (Reader.header kind expected) := by
  refine (d.expect _ _).bind fun _ => (d.expectText _ _ _).bind fun _ => ?_
  refine (d.expect _ _).bind fun _ => (d.expectText _ _ _).bind fun _ => ?_
  exact (d.name _).bind fun _ => (d.expect _ _).bind fun _ => Commutes.pure rfl

/-- Skipping the rest of the input. -/
lemma skipRest (fuel : Nat) : ∀ opened,
    d.Tracks id (Reader.skipRest fuel opened) (Reader.skipRest fuel opened) := by
  induction fuel with
  | zero => exact fun _ => Commutes.pure rfl
  | succ fuel ih =>
    intro opened
    refine d.currentKind.andThen fun kind => ?_
    cases kind with
    | endOfInput => exact Commutes.pure rfl
    | closeParen =>
      cases opened with
      | zero => exact d.failHere _ _
      | succ opened => exact d.advance.bind fun _ => ih _
    | openParen => exact d.advance.bind fun _ => ih _
    | _ => exact d.advance.bind fun _ => ih _

/-- Reading what follows a document. -/
lemma endOfDocument : d.Tracks id Reader.endOfDocument Reader.endOfDocument := by
  refine d.current.bind fun token => ?_
  rw [kind_token]
  split
  · exact Commutes.pure rfl
  · refine d.read.andThen fun c => ?_
    split
    · exact d.failHere _ _
    · refine (d.note (.trailingInput token.line)).andThen fun _ => ?_
      exact d.rounds.andThen fun _ => d.skipRest _ _

/-! ### Atoms and numeric terms -/

/-- Reading an atom. -/
lemma atomicFormula (ground : Bool) :
    d.Tracks (Atom.rename d.spell) (Reader.atomicFormula ground)
      (Reader.atomicFormula ground) := by
  refine (d.name _).bind fun _ => (d.textsWhile fun _ => rfl).bind fun _ => ?_
  refine d.currentKind.andThen fun _ => ?_
  split
  · exact d.failHere _ _
  · exact (d.expect _ _).bind fun _ => Commutes.pure rfl

/-- Reading an atom with its parentheses. -/
lemma parenthesizedAtom (ground : Bool) :
    d.Tracks (Atom.rename d.spell) (Reader.parenthesizedAtom ground)
      (Reader.parenthesizedAtom ground) :=
  (d.expect _ _).bind fun _ => d.atomicFormula _

/-- Reading an atom as an expression. -/
lemma atomExpr (ground : Bool) :
    d.Tracks (Expr.rename d.spell) (do return .atom (← Reader.atomicFormula ground))
      (do return .atom (← Reader.atomicFormula ground)) :=
  (d.atomicFormula ground).bind fun _ => Commutes.pure rfl

/-- Reading a fluent. -/
lemma fluent : d.Tracks (Atom.rename d.spell) Reader.fluent Reader.fluent := by
  refine d.currentKind.andThen fun _ => ?_
  split
  · exact d.advance.bind fun _ => Commutes.pure rfl
  · exact d.nested ((d.expect _ _).bind fun _ => d.atomicFormula _)

/-- Reading arithmetic. -/
lemma arithmetic {term : ReadM Expr} (hterm : d.Tracks (Expr.rename d.spell) term term) :
    d.Tracks (Expr.rename d.spell) (Reader.arithmetic term) (Reader.arithmetic term) := by
  refine d.current.bind fun token => ?_
  have hop : ArithOp.ofText? (d.token token).text = ArithOp.ofText? token.text :=
    d.arithOp token.text
  rw [hop]
  cases ArithOp.ofText? token.text with
  | none => exact d.failHere _ _
  | some op =>
    refine d.arithmeticAllowed.andThen fun allowed => ?_
    split
    · refine d.advance.bind fun _ => (d.readWhile (fun _ => rfl) hterm).bind fun operands => ?_
      rw [List.length_map]
      split
      · refine d.advance.bind fun _ => Commutes.pure ?_
        rw [Expr.rename, Expr.renameAll_eq_map]
      · exact d.failAt token _ (.operandCount op operands.length)
    · exact d.failHere _ _

/-- Reading a numeric term. -/
lemma numericTerm (budget : Nat) :
    d.Tracks (Expr.rename d.spell) (Reader.numericTerm budget) (Reader.numericTerm budget) := by
  induction budget with
  | zero => exact d.failTooDeep
  | succ budget ih =>
    refine d.currentKind.andThen fun kind => ?_
    cases kind with
    | number => exact d.readNumber.andThen fun _ => Commutes.pure rfl
    | var => exact d.advance.bind fun _ => Commutes.pure rfl
    | name => exact d.advance.bind fun _ => Commutes.pure rfl
    | openParen =>
      refine d.nested (d.advance.bind fun _ => d.currentKind.andThen fun kind => ?_)
      cases kind with
      | minus => exact d.arithmetic ih
      | operator => exact d.arithmetic ih
      | name => exact d.atomExpr false
      | _ => exact d.failHere _ _
    | _ => exact d.failHere _ _

/-- Reading a comparison. -/
lemma comparison {term : ReadM Expr} (hterm : d.Tracks (Expr.rename d.spell) term term)
    (governed : Bool) :
    d.Tracks (Expr.rename d.spell) (Reader.comparison term governed)
      (Reader.comparison term governed) := by
  refine d.current.bind fun token => ?_
  have hop : CompareOp.ofText? (d.token token).text = CompareOp.ofText? token.text :=
    d.compareOp token.text
  rw [hop]
  cases CompareOp.ofText? token.text with
  | none => exact d.failHere _ _
  | some op =>
    refine d.advance.bind fun _ => hterm.bind fun left => hterm.bind fun right => ?_
    have hclose : d.Tracks (Expr.rename d.spell)
        (do Reader.closeForm token "comparisons take exactly two arguments"
            return .compare op left right)
        (do Reader.closeForm (d.token token) "comparisons take exactly two arguments"
            return .compare op (left.rename d.spell) (right.rename d.spell)) :=
      (d.closeForm token _).andThen fun _ => Commutes.pure rfl
    rw [Expr.isTerm_rename, Expr.isTerm_rename]
    cases governed with
    | true => exact (d.require token _).andThen fun _ => hclose
    | false => exact hclose

/-! ### Conditions, effects and duration constraints -/

/-- Looking for a time specifier. -/
lemma timeAhead? : d.Tracks id Reader.timeAhead? Reader.timeAhead? := by
  refine d.peek.bind fun next => ?_
  rw [kind_token, key_token]
  split
  · refine d.current.bind fun token => Commutes.pure ?_
    rw [key_token]
    rfl
  · exact Commutes.pure rfl

/-- Reading a timed expression. -/
lemma timed {operand : ReadM Expr} (hoperand : d.Tracks (Expr.rename d.spell) operand operand)
    (time : TimeSpec) (allowed inEffect : Bool) :
    d.Tracks (Expr.rename d.spell) (Reader.timed time allowed inEffect operand)
      (Reader.timed time allowed inEffect operand) := by
  unfold Reader.timed
  split
  · refine d.advance.bind fun opener => d.advance.bind fun _ => ?_
    split
    · exact d.failAt opener _ _
    · refine (d.require opener _).andThen fun _ => hoperand.bind fun inner => ?_
      exact (d.closeForm opener _).andThen fun _ => Commutes.pure rfl
  · exact d.failHere _ _

/-- Reading operands. -/
lemma operands {operand : ReadM Expr} (hoperand : d.Tracks (Expr.rename d.spell) operand operand) :
    d.Tracks (List.map (Expr.rename d.spell)) (Reader.operands operand)
      (Reader.operands operand) :=
  (d.readWhile (fun _ => rfl) hoperand).bind fun _ =>
    (d.expect _ _).bind fun _ => Commutes.pure rfl

/-- Reading the operands of a conjunction. -/
lemma conjunction {operand : ReadM Expr}
    (hoperand : d.Tracks (Expr.rename d.spell) operand operand) :
    d.Tracks (Expr.rename d.spell) (do return .and (← Reader.operands operand))
      (do return .and (← Reader.operands operand)) := by
  refine (d.operands hoperand).bind fun operands => Commutes.pure ?_
  rw [Expr.rename, Expr.renameAll_eq_map]

/-- Reading the variables of a quantifier. -/
lemma quantifiedVariables :
    d.Tracks (List.map (TypedName.rename d.spell)) Reader.quantifiedVariables
      Reader.quantifiedVariables :=
  (d.expect _ _).bind fun _ => (d.typedList _ _).bind fun _ =>
    (d.expect _ _).bind fun _ => Commutes.pure rfl

/-- Reading a condition. -/
lemma condition (budget : Nat) : ∀ temporal,
    d.Tracks (Expr.rename d.spell) (Reader.condition budget temporal)
      (Reader.condition budget temporal) := by
  induction budget with
  | zero => exact fun _ => d.failTooDeep
  | succ budget ih =>
    intro temporal
    refine d.nested ((d.expect _ _).bind fun _ => d.current.bind fun token => ?_)
    rw [kind_token, key_token]
    cases token.kind with
    | closeParen => exact d.advance.bind fun _ => Commutes.pure rfl
    | operator => exact d.comparison (d.numericTerm _) _
    | name =>
      dsimp only
      cases Head.ofKey token.key with
      | conjunction => exact d.advance.bind fun _ => d.conjunction (ih _)
      | disjunction =>
        refine d.advance.bind fun _ => (d.require token _).andThen fun _ => ?_
        refine (d.operands (ih _)).bind fun operands => Commutes.pure ?_
        rw [Expr.rename, Expr.renameAll_eq_map]
      | negation =>
        refine d.advance.bind fun _ => (ih _).bind fun operand => ?_
        exact (d.closeForm token _).andThen fun _ => Commutes.pure rfl
      | quantifier quantifier =>
        refine d.advance.bind fun _ => (d.require token _).andThen fun _ => ?_
        refine d.quantifiedVariables.bind fun vars => (ih _).bind fun operand => ?_
        exact (d.closeForm token _).andThen fun _ => Commutes.pure rfl
      | time =>
        refine d.timeAhead?.andThen fun time => ?_
        cases time with
        | some time => exact d.timed (ih _) _ _ _
        | none => exact d.atomExpr false
      | conditional => exact d.failHere _ (.effectOnly token.text)
      | update op => exact d.failHere _ (.effectOnly token.text)
      | symbol => exact d.atomExpr false
    | _ => exact d.failHere _ _

/-- Reading an update. -/
lemma numericUpdate {term : ReadM Expr} (hterm : d.Tracks (Expr.rename d.spell) term term)
    (op : UpdateOp) :
    d.Tracks (Expr.rename d.spell) (Reader.numericUpdate op term)
      (Reader.numericUpdate op term) := by
  refine d.advance.bind fun token => (d.require token _).andThen fun _ => ?_
  refine d.fluent.bind fun target => hterm.bind fun value => ?_
  exact (d.closeForm token _).andThen fun _ => Commutes.pure rfl

/-- Reading an effect. -/
lemma effect (budget : Nat) : ∀ temporal,
    d.Tracks (Expr.rename d.spell) (Reader.effect budget temporal)
      (Reader.effect budget temporal) := by
  induction budget with
  | zero => exact fun _ => d.failTooDeep
  | succ budget ih =>
    intro temporal
    refine d.nested ((d.expect _ _).bind fun _ => d.current.bind fun token => ?_)
    rw [kind_token, key_token]
    cases token.kind with
    | closeParen => exact d.advance.bind fun _ => Commutes.pure rfl
    | name =>
      dsimp only
      cases Head.ofKey token.key with
      | conjunction => exact d.advance.bind fun _ => d.conjunction (ih _)
      | negation =>
        refine d.advance.bind fun _ => ?_
        refine (d.nested (d.parenthesizedAtom false)).bind fun deleted => ?_
        exact (d.closeForm token _).andThen fun _ => Commutes.pure rfl
      | quantifier quantifier =>
        cases quantifier with
        | universal =>
          refine d.advance.bind fun _ => (d.require token _).andThen fun _ => ?_
          refine d.quantifiedVariables.bind fun vars => (ih _).bind fun operand => ?_
          exact (d.closeForm token _).andThen fun _ => Commutes.pure rfl
        | existential => exact d.failHere _ (.conditionOnly token.text)
      | conditional =>
        refine d.advance.bind fun _ => (d.require token _).andThen fun _ => ?_
        refine (d.condition _ _).bind fun premise => (ih _).bind fun outcome => ?_
        exact (d.closeForm token _).andThen fun _ => Commutes.pure rfl
      | time =>
        refine d.timeAhead?.andThen fun time => ?_
        cases time with
        | some time => exact d.timed (ih _) _ _ _
        | none => exact d.atomExpr false
      | update op => exact d.numericUpdate (d.numericTerm _) _
      | disjunction => exact d.failHere _ (.conditionOnly token.text)
      | symbol => exact d.atomExpr false
    | _ => exact d.failHere _ _

/-- Reading a duration constraint. -/
lemma durationConstraint (budget : Nat) :
    d.Tracks (Expr.rename d.spell) (Reader.durationConstraint budget)
      (Reader.durationConstraint budget) := by
  induction budget with
  | zero => exact d.failTooDeep
  | succ budget ih =>
    refine d.nested ((d.expect _ _).bind fun _ => d.current.bind fun token => ?_)
    rw [kind_token, key_token]
    cases token.kind with
    | closeParen => exact d.advance.bind fun _ => Commutes.pure rfl
    | operator => exact d.comparison (d.numericTerm _) _
    | name =>
      dsimp only
      split
      · refine d.advance.bind fun _ => (d.require token _).andThen fun _ => ?_
        exact d.conjunction ih
      · refine d.timeAhead?.andThen fun time => ?_
        cases time with
        | some time => exact d.timed ih _ _ _
        | none => exact d.failHere _ _
    | _ => exact d.failHere _ _

/-- Reading a numeric term with all of the budget. -/
lemma anyNumericTerm :
    d.Tracks (Expr.rename d.spell) Reader.anyNumericTerm Reader.anyNumericTerm :=
  d.budget.andThen fun _ => d.numericTerm _

/-- Reading a condition with all of the budget. -/
lemma anyCondition (temporal : Bool) :
    d.Tracks (Expr.rename d.spell) (Reader.anyCondition temporal)
      (Reader.anyCondition temporal) :=
  d.budget.andThen fun _ => d.condition _ _

/-- Reading an effect with all of the budget. -/
lemma anyEffect (temporal : Bool) :
    d.Tracks (Expr.rename d.spell) (Reader.anyEffect temporal) (Reader.anyEffect temporal) :=
  d.budget.andThen fun _ => d.effect _ _

/-- Reading a duration constraint with all of the budget. -/
lemma anyDurationConstraint :
    d.Tracks (Expr.rename d.spell) Reader.anyDurationConstraint Reader.anyDurationConstraint :=
  d.budget.andThen fun _ => d.durationConstraint _

/-! ### Actions -/

/-- Reading parameters. -/
lemma parameters :
    d.Tracks (List.map (TypedName.rename d.spell)) Reader.parameters Reader.parameters := by
  refine (d.keyword _).bind fun _ => (d.expect _ _).bind fun _ => ?_
  exact (d.typedList _ _).bind fun _ => (d.expect _ _).bind fun _ => Commutes.pure rfl

/-- Reading a field of an instantaneous action. -/
lemma actionField :
    d.Tracks (ActionField.rename d.spell) Reader.actionField Reader.actionField := by
  refine d.current.bind fun token => ?_
  rw [key_token]
  generalize token.key = key
  split
  · exact d.parameters.bind fun _ => Commutes.pure rfl
  · exact d.advance.bind fun _ => (d.anyCondition _).bind fun _ => Commutes.pure rfl
  · exact d.advance.bind fun _ => (d.anyEffect _).bind fun _ => Commutes.pure rfl
  · exact d.failHere _ _

/-- Reading an instantaneous action. -/
lemma action : d.Tracks (Action.rename d.spell) Reader.action Reader.action := by
  refine (d.keyword _).bind fun _ => (d.name _).bind fun name => ?_
  refine (d.readWhile d.isKeyword_token d.actionField).bind fun fields => ?_
  exact (d.expect _ _).bind fun _ => Commutes.pure (Action.ofFields_rename name fields)

/-- Reading a field of a durative action. -/
lemma durativeActionField :
    d.Tracks (ActionField.rename d.spell) Reader.durativeActionField
      Reader.durativeActionField := by
  refine d.current.bind fun token => ?_
  rw [key_token]
  generalize token.key = key
  split
  · exact d.parameters.bind fun _ => Commutes.pure rfl
  · exact d.advance.bind fun _ => d.anyDurationConstraint.bind fun _ => Commutes.pure rfl
  · exact d.advance.bind fun _ => (d.anyCondition _).bind fun _ => Commutes.pure rfl
  · exact d.advance.bind fun _ => (d.anyEffect _).bind fun _ => Commutes.pure rfl
  · exact d.failHere _ _

/-- Reading a durative action. -/
lemma durativeAction :
    d.Tracks (Action.rename d.spell) Reader.durativeAction Reader.durativeAction := by
  refine (d.keyword _).bind fun opener => (d.require opener _).andThen fun _ => ?_
  refine (d.name _).bind fun name => ?_
  refine (d.readWhile d.isKeyword_token d.durativeActionField).bind fun fields => ?_
  dsimp only
  rw [Action.ofFields_rename, Action.isDurative_rename]
  split
  · exact (d.expect _ _).bind fun _ => Commutes.pure rfl
  · exact d.failHere _ (.missingDuration name)

/-! ### Problems -/

/-- Equality is spelled in one way. -/
lemma isEquality_token (token : Token) :
    decide ((d.token token).text = CompareOp.eq.text) =
      decide (token.text = CompareOp.eq.text) := by
  have hop : CompareOp.ofText? (d.token token).text = CompareOp.ofText? token.text :=
    d.compareOp token.text
  rw [decide_eq_decide, ← CompareOp.ofText?_eq_some_iff, ← CompareOp.ofText?_eq_some_iff, hop]

/-- Reading an element of an initial state. -/
lemma initElement :
    d.Tracks (Expr.rename d.spell) Reader.initElement Reader.initElement := by
  refine d.nested ((d.expect _ _).bind fun _ => d.current.bind fun token => ?_)
  rw [kind_token, key_token, isEquality_token]
  split
  · refine d.advance.bind fun _ => d.fluent.bind fun target => ?_
    refine d.anyNumericTerm.bind fun value => (d.closeForm token _).andThen fun _ => ?_
    exact Commutes.pure rfl
  split
  · refine d.advance.bind fun _ => (d.nested (d.parenthesizedAtom _)).bind fun atom => ?_
    exact (d.closeForm token _).andThen fun _ => Commutes.pure rfl
  · exact d.atomExpr true

/-- Reading a metric. -/
lemma metric : d.Tracks (Metric.rename d.spell) Reader.metric Reader.metric := by
  refine (d.expect _ _).bind fun token => ?_
  rw [key_token]
  cases Direction.ofText? token.key with
  | some direction => exact d.anyNumericTerm.bind fun _ => Commutes.pure rfl
  | none => exact d.failAt token _ _

/-- Reading a section of a problem by its kind. -/
lemma problemSectionOf (kind : ProblemSectionKind) :
    d.Tracks (ProblemSection.rename d.spell) (Reader.problemSectionOf kind)
      (Reader.problemSectionOf kind) := by
  cases kind with
  | domain =>
    refine d.advance.bind fun _ => (d.name _).bind fun _ => ?_
    exact (d.expect _ _).bind fun _ => Commutes.pure rfl
  | requirements => exact d.requirements.andThen fun _ => Commutes.pure rfl
  | objects =>
    refine d.advance.bind fun _ => (d.typedList _ _).bind fun _ => ?_
    exact (d.expect _ _).bind fun _ => Commutes.pure rfl
  | init =>
    exact d.advance.bind fun _ => (d.operands d.initElement).bind fun _ => Commutes.pure rfl
  | goal =>
    refine d.advance.bind fun _ => (d.anyCondition _).bind fun _ => ?_
    exact (d.expect _ _).bind fun _ => Commutes.pure rfl
  | metric =>
    refine d.advance.bind fun _ => d.metric.bind fun _ => ?_
    exact (d.expect _ _).bind fun _ => Commutes.pure rfl

/-- Reading a section of a problem. -/
lemma problemSection :
    d.Tracks (ProblemSection.rename d.spell) Reader.problemSection Reader.problemSection := by
  refine (d.expect _ _).bind fun _ => d.current.bind fun token => ?_
  rw [isKeyword_token, key_token]
  split
  · cases ProblemSectionKind.ofKey? token.key with
    | some kind => exact d.problemSectionOf kind
    | none => exact d.failHere _ _
  · exact d.failHere _ _

/-- Reading a problem. -/
lemma problem : d.Tracks (Problem.rename d.spell) Reader.problem Reader.problem := by
  refine (d.header _ _).bind fun name => (d.note (.problemStarted name)).andThen fun _ => ?_
  refine (d.readWhile (fun _ => rfl) d.problemSection).bind fun sections => ?_
  dsimp only
  rw [ProblemDraft.ofSections_rename]
  obtain ⟨domain, requirements, objects, init, goal, metric⟩ := ProblemDraft.ofSections sections
  cases domain with
  | none => exact d.failHere _ (.missingDomain name)
  | some domain =>
    cases goal with
    | none => exact d.failHere _ (.missingGoal name)
    | some goal =>
      exact (d.expect _ _).bind fun _ => d.endOfDocument.andThen fun _ => Commutes.pure rfl

/-! ### Plans -/

/-- Reading a time. -/
lemma time : d.Tracks id Reader.time Reader.time := by
  refine d.readNumber.andThen fun value => ?_
  cases value.toFloat? with
  | some time => exact Commutes.pure rfl
  | none => exact Commutes.throw rfl

/-- Reading the time of a step. -/
lemma stepTime? : d.Tracks id Reader.stepTime? Reader.stepTime? := by
  refine d.currentKind.andThen fun _ => ?_
  split
  · exact d.time.andThen fun _ => (d.expect _ _).bind fun _ => Commutes.pure rfl
  · exact Commutes.pure rfl

/-- Reading the duration of a step. -/
lemma stepDuration? : d.Tracks id Reader.stepDuration? Reader.stepDuration? := by
  refine d.currentKind.andThen fun _ => ?_
  split
  · refine d.advance.bind fun _ => d.time.andThen fun _ => ?_
    exact (d.expect _ _).bind fun _ => Commutes.pure rfl
  · exact Commutes.pure rfl

/-- Reading a step. -/
lemma planStep (index : Int) :
    d.Tracks (PlanStep.rename d.spell) (Reader.planStep index) (Reader.planStep index) := by
  refine d.stepTime?.andThen fun time => ?_
  refine (d.nested ((d.expect _ _).bind fun _ => d.atomicFormula true)).bind fun action => ?_
  exact d.stepDuration?.andThen fun duration => Commutes.pure rfl

/-- Reading steps. -/
lemma planSteps (fuel : Nat) : ∀ index,
    d.Tracks (List.map (PlanStep.rename d.spell)) (Reader.planSteps fuel index)
      (Reader.planSteps fuel index) := by
  induction fuel with
  | zero => exact fun _ => Commutes.pure rfl
  | succ fuel ih =>
    intro index
    refine d.atEnd.andThen fun done => ?_
    split
    · exact Commutes.pure rfl
    · exact (d.planStep _).bind fun _ => (ih _).bind fun _ => Commutes.pure rfl

/-- Reading a plan. -/
lemma plan : d.Tracks (Plan.rename d.spell) Reader.plan Reader.plan := by
  refine d.rounds.andThen fun fuel => (d.planSteps fuel 0).bind fun steps => ?_
  rw [List.length_map]
  exact (d.note (.planRead steps.length)).andThen fun _ => Commutes.pure rfl

/-! ### Whole texts -/

/-- Two texts have the same tokens in disguise, and end alike. -/
structure Alike (text text' : String) : Prop where
  tokens : (scan text).tokens.map d.token = (scan text').tokens.map d.token
  failure : (scan text).failure.map d.lexical = (scan text').failure.map d.lexical
  endOffset : d.offset text.toList.length = d.offset text'.toList.length

/-- The value or the failure in disguise. -/
def result (value : α → β) (result : Except Failure α) : Except Failure β :=
  (result.map value).mapError d.failure

/-- The report in disguise. -/
def reported (value : α → β) (report : Report α) : Report β :=
  ⟨d.result value report.result, report.log.map d.notice⟩

/-- A run in disguise is reported in disguise. -/
lemma ofOutcome_mapResult {σ : Type} {log : σ → List Notice} {state : σ → σ} {value : α → β}
    (hlog : ∀ s, log (state s) = (log s).map d.notice) (run : EStateM.Result Failure σ α) :
    Report.ofOutcome log (mapResult d.failure state value run) =
      d.reported value (Report.ofOutcome log run) := by
  cases run with
  | ok a s => exact congrArg (Report.mk _) (hlog s)
  | error e s => exact congrArg (Report.mk _) (hlog s)

variable {d}

/-- Of two texts that are alike, both have a first cursor, and the same one in disguise, or both
fail before their first token. -/
lemma Alike.ofText {text text' : String} (h : d.Alike text text') :
    (∃ error error', Cursor.ofText text = .error error ∧ Cursor.ofText text' = .error error' ∧
      d.lexical error = d.lexical error') ∨
    ∃ cursor cursor', Cursor.ofText text = .ok cursor ∧ Cursor.ofText text' = .ok cursor' ∧
      d.cursor cursor = d.cursor cursor' := by
  obtain ⟨htokens, hfailure, hend⟩ := h
  unfold Cursor.ofText
  cases hfirst : (scan text).tokens with
  | cons token rest =>
    rw [hfirst, List.map_cons, eq_comm, List.map_eq_cons_iff] at htokens
    obtain ⟨token', rest', hsecond, htoken, hrest⟩ := htokens
    simp only [hfirst, hsecond]
    refine Or.inr ⟨_, _, rfl, rfl, ?_⟩
    simp only [cursor, htoken, hrest, hfailure, hend, Option.map_none]
  | nil =>
    rw [hfirst, List.map_nil, eq_comm, List.map_eq_nil_iff] at htokens
    simp only [hfirst, htokens]
    cases herror : (scan text).failure with
    | some error =>
      rw [herror, Option.map_some, eq_comm, Option.map_eq_some_iff] at hfailure
      obtain ⟨error', herror', heq⟩ := hfailure
      simp only [herror']
      exact Or.inl ⟨error, error', rfl, rfl, heq.symm⟩
    | none =>
      rw [herror, Option.map_none, eq_comm, Option.map_eq_none_iff] at hfailure
      simp only [hfailure]
      refine Or.inr ⟨_, _, rfl, rfl, ?_⟩
      simp only [cursor, token_atEnd, hend, List.map_nil, Option.map_none]

/-- A reader that commutes with a disguise reports on alike texts alike. -/
lemma Alike.report_run {text text' : String} (h : d.Alike text text') {value : α → β}
    {reader : ReadM α} {reader' : ReadM β} (hreader : d.Tracks value reader reader')
    (c : Reader.Context) :
    d.reported value (Reader.run reader c text) = d.reported value (Reader.run reader c text') := by
  have hrun : ∀ {text cursor}, Cursor.ofText text = .ok cursor →
      d.reported value (Reader.run reader c text) =
        Report.ofOutcome Reader.State.log (reader' c (.ofCursor (d.cursor cursor) [])) := by
    intro text cursor hcursor
    have hstate : d.state (.ofCursor cursor []) = .ofCursor (d.cursor cursor) [] := rfl
    have hlog : ∀ run : EStateM.Result Failure Reader.State α,
        Report.ofOutcome Reader.State.log (mapResult d.failure d.state value run) =
          d.reported value (Report.ofOutcome Reader.State.log run) :=
      d.ofOutcome_mapResult fun _ => rfl
    rw [← hstate, hreader c, hlog, Reader.run_eq_ofOutcome reader c hcursor]
  rcases h.ofText with ⟨error, error', hfirst, hsecond, herror⟩ |
    ⟨cursor, cursor', hfirst, hsecond, hcursor⟩
  · unfold Reader.run
    rw [hfirst, hsecond]
    exact congrArg (fun e => Report.mk (Except.error (Failure.lexical e)) []) herror
  · rw [hrun hfirst, hrun hsecond, hcursor]

/-- A reader that commutes with a disguise reads alike texts alike. -/
lemma Alike.result_run {text text' : String} (h : d.Alike text text') {value : α → β}
    {reader : ReadM α} {reader' : ReadM β} (hreader : d.Tracks value reader reader')
    (c : Reader.Context) :
    d.result value (Reader.run reader c text).result =
      d.result value (Reader.run reader c text').result :=
  congrArg Report.result (h.report_run hreader c)

end Pddl.Disguise
