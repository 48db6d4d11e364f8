import Pddl.Reader.Primitive

/-!
# Readers of expressions

Conditions, effects, numeric terms and duration constraints are read by recursive descent.  The
word after an opening parenthesis decides what is read; words that stand for themselves start an
atom.  Each reader has a budget of expressions that may be open at once.
-/

namespace Pddl

/-- What the first word of a condition or an effect announces. -/
inductive Head
  | conjunction
  | disjunction
  | negation
  | quantifier (quantifier : Quantifier)
  | conditional
  | update (op : UpdateOp)
  | time
  | symbol
deriving DecidableEq, Repr

/-- The head that a folded word is.  `at` and `over` announce a time only together with the word
after them. -/
def Head.ofKey : String → Head
  | "and" => .conjunction
  | "or" => .disjunction
  | "not" => .negation
  | "forall" => .quantifier .universal
  | "exists" => .quantifier .existential
  | "when" => .conditional
  | "assign" => .update .assign
  | "increase" => .update .increase
  | "decrease" => .update .decrease
  | "scale-up" => .update .scaleUp
  | "scale-down" => .update .scaleDown
  | "at" => .time
  | "over" => .time
  | _ => .symbol

namespace Reader

/-! ### Atoms -/

/-- Can the token be an argument of an atom? -/
def isArgument (ground : Bool) (token : Token) : Bool :=
  token.kind = .name || (!ground && token.kind = .var)

/-- Reads an atom from its name through its closing parenthesis.  A ground atom has no
variables. -/
def atomicFormula (ground : Bool) : ReadM Atom := do
  let name ← name "a predicate name"
  let args ← textsWhile (isArgument ground)
  if ground && (← currentKind) = .var then
    failHere "an object name" .variableInGroundAtom
  else
    let _ ← expect .closeParen
      (if ground then "an object name or ')'" else "a variable, an object name, or ')'")
    return ⟨name, args⟩

/-- Reads an atom from its opening parenthesis on. -/
def parenthesizedAtom (ground : Bool) : ReadM Atom := do
  let _ ← openParen
  atomicFormula ground

/-- Reads a fluent: `(name args…)`, or its name alone when it has no arguments. -/
def fluent : ReadM Atom := do
  if (← currentKind) = .name then
    return ⟨(← advance).text, []⟩
  else
    nested do
      let _ ← expect .openParen "a fluent"
      atomicFormula false

/-! ### Numeric terms -/

/-- Reads arithmetic from its operator through its closing parenthesis. -/
def arithmetic (term : ReadM Expr) : ReadM Expr := do
  let token ← current
  match ArithOp.ofText? token.text with
  | none => failHere "an arithmetic operator" .mismatch
  | some op =>
    if ← arithmeticAllowed then
      let _ ← advance
      let operands ← readWhile (fun token => token.kind ≠ .closeParen) term
      if op.accepts operands.length then
        let _ ← advance
        return .arith op operands
      else
        failAt token op.arityText (.operandCount op operands.length)
    else
      failHere "a fluent or a number" .arithmeticUndeclared

/-- Reads a numeric term: a number, a variable or name, a fluent, or arithmetic. -/
def numericTerm : Nat → ReadM Expr
  | 0 => failTooDeep
  | budget + 1 => do
    match ← currentKind with
    | .number => return .number (← number)
    | .var | .name => return .term (← advance).text
    | .openParen =>
      nested do
        let _ ← advance
        match ← currentKind with
        | .minus | .operator => arithmetic (numericTerm budget)
        | .name => return .atom (← atomicFormula false)
        | _ => failHere "a fluent or an arithmetic operator" .mismatch
    | _ => failHere "a numeric expression" .mismatch

/-- Reads a comparison from its operator through its closing parenthesis.  A governed comparison
needs a flag: one for equality if both sides are variables or names, the numeric one otherwise. -/
def comparison (term : ReadM Expr) (governed : Bool) : ReadM Expr := do
  let token ← current
  match CompareOp.ofText? token.text with
  | none => failHere "a comparison operator" .mismatch
  | some op =>
    let _ ← advance
    let left ← term
    let right ← term
    if governed then
      require token
        (if left.isTerm && right.isTerm then Feature.termEquality else Feature.numericComparisons)
    closeForm token "comparisons take exactly two arguments"
    return .compare op left right

/-! ### Shared forms -/

/-- The time specifier that the current token and the next one spell. -/
def timeAhead? : ReadM (Option TimeSpec) := do
  let next ← peek
  if next.kind = .name then
    return TimeSpec.ofWords? (← current).key next.key
  else
    return none

/-- Reads a timed expression from its time specifier through its closing parenthesis.  Effects
cannot be timed by `over all`. -/
def timed (time : TimeSpec) (allowed inEffect : Bool) (operand : ReadM Expr) : ReadM Expr := do
  if allowed then
    let opener ← advance
    let _ ← advance
    if inEffect && time = .overAll then
      failAt opener "`at start` or `at end`" .overAllInEffect
    else
      require opener Feature.timeSpecifiers
      let inner ← operand
      closeForm opener ("`" ++ time.text ++ "` takes exactly one argument")
      return .timed time inner
  else
    failHere "an untimed expression" .timedOutsideDurative

/-- Reads expressions up to and with the closing parenthesis around them. -/
def operands (operand : ReadM Expr) : ReadM (List Expr) := do
  let operands ← readWhile (hasKind .openParen) operand
  let _ ← expect .closeParen "'(' or ')'"
  return operands

/-- Reads the variables of a quantifier. -/
def quantifiedVariables : ReadM (List TypedName) := do
  let _ ← expect .openParen "'(' opening the quantified variables"
  let vars ← typedList .var true
  let _ ← closeParen
  return vars

/-- The feature that a quantifier in a condition is. -/
def quantifierFeature : Quantifier → Feature
  | .universal => Feature.universalConditions
  | .existential => Feature.existentialConditions

/-! ### Conditions -/

/-- Reads a condition; `temporal` says whether it may be timed. -/
def condition : Nat → Bool → ReadM Expr
  | 0, _ => failTooDeep
  | budget + 1, temporal =>
    nested do
      let _ ← expect .openParen "'(' opening a condition"
      let token ← current
      match token.kind with
      | .closeParen =>
        let _ ← advance
        return .trivial
      | .operator => comparison (numericTerm budget) true
      | .name =>
        match Head.ofKey token.key with
        | .conjunction =>
          let _ ← advance
          return .and (← operands (condition budget temporal))
        | .disjunction =>
          let _ ← advance
          require token Feature.disjunctions
          return .or (← operands (condition budget temporal))
        | .negation =>
          let _ ← advance
          let operand ← condition budget temporal
          closeForm token "`not` takes exactly one argument"
          return .not operand
        | .quantifier quantifier =>
          let _ ← advance
          require token (quantifierFeature quantifier)
          let vars ← quantifiedVariables
          let operand ← condition budget temporal
          closeForm token ("`" ++ quantifier.text ++ "` takes exactly one condition")
          return .quantified quantifier vars operand
        | .time =>
          match ← timeAhead? with
          | some time => timed time temporal false (condition budget false)
          | none => return .atom (← atomicFormula false)
        | .conditional | .update _ => failHere "a condition" (.effectOnly token.text)
        | .symbol => return .atom (← atomicFormula false)
      | _ => failHere "a predicate name or logical operator" .mismatch

/-! ### Effects -/

/-- Reads an update from its operator through its closing parenthesis. -/
def numericUpdate (op : UpdateOp) (term : ReadM Expr) : ReadM Expr := do
  let token ← advance
  require token Feature.numericEffects
  let target ← fluent
  let value ← term
  closeForm token ("`" ++ op.text ++ "` takes a fluent and a numeric expression")
  return .update op target value

/-- Reads an effect; `temporal` says whether it may be timed. -/
def effect : Nat → Bool → ReadM Expr
  | 0, _ => failTooDeep
  | budget + 1, temporal =>
    nested do
      let _ ← expect .openParen "'(' opening an effect"
      let token ← current
      match token.kind with
      | .closeParen =>
        let _ ← advance
        return .trivial
      | .name =>
        match Head.ofKey token.key with
        | .conjunction =>
          let _ ← advance
          return .and (← operands (effect budget temporal))
        | .negation =>
          let _ ← advance
          let deleted ← nested (parenthesizedAtom false)
          closeForm token "`not` takes exactly one argument"
          return .not (.atom deleted)
        | .quantifier .universal =>
          let _ ← advance
          require token Feature.universalEffects
          let vars ← quantifiedVariables
          let operand ← effect budget temporal
          closeForm token "`forall` takes exactly one effect"
          return .quantified .universal vars operand
        | .conditional =>
          let _ ← advance
          require token Feature.conditionalEffects
          let premise ← condition budget temporal
          let outcome ← effect budget temporal
          closeForm token "`when` takes a condition and an effect"
          return .when premise outcome
        | .time =>
          match ← timeAhead? with
          | some time => timed time temporal true (effect budget false)
          | none => return .atom (← atomicFormula false)
        | .update op => numericUpdate op (numericTerm budget)
        | .disjunction | .quantifier .existential =>
          failHere "an effect" (.conditionOnly token.text)
        | .symbol => return .atom (← atomicFormula false)
      | _ => failHere "a predicate name or effect operator" .mismatch

/-! ### Duration constraints -/

/-- Reads a constraint on the duration of an action, such as `(= ?duration 5)`. -/
def durationConstraint : Nat → ReadM Expr
  | 0 => failTooDeep
  | budget + 1 =>
    nested do
      let _ ← expect .openParen "'(' opening a duration constraint"
      let token ← current
      match token.kind with
      | .closeParen =>
        let _ ← advance
        return .trivial
      | .operator => comparison (numericTerm budget) false
      | .name =>
        if token.key = "and" then
          let _ ← advance
          require token Feature.durationConjunctions
          return .and (← operands (durationConstraint budget))
        else
          match ← timeAhead? with
          | some time => timed time true true (durationConstraint budget)
          | none => failHere "a duration constraint" .mismatch
      | _ => failHere "a duration constraint" .mismatch

/-! ### With the budget of the context -/

/-- Reads a numeric term with all of the budget. -/
def anyNumericTerm : ReadM Expr := do
  numericTerm (← budget)

/-- Reads a condition with all of the budget. -/
def anyCondition (temporal : Bool) : ReadM Expr := do
  condition (← budget) temporal

/-- Reads an effect with all of the budget. -/
def anyEffect (temporal : Bool) : ReadM Expr := do
  effect (← budget) temporal

/-- Reads a duration constraint with all of the budget. -/
def anyDurationConstraint : ReadM Expr := do
  durationConstraint (← budget)

end Reader

end Pddl
