import Pddl.Proofs.Running
import Pddl.Reader.Plan
import Pddl.Reader.Problem

/-!
# How readers are composed

Readers are composed of a few steps.  A property of readers is `Flat` if it holds of the steps of
readers of lists and headings and passes from parts to what is composed of them, and `Gated` if it
also holds of the other steps on a level of nesting, one of which is whether arithmetic may be read
at all.  It is `Layered` if it also passes from a level to the one above.  Expressions are read with
a budget: a layered property is `Descending` if it holds of failures for want of room, so that it
holds of expressions with any budget, and `Expressive` if it holds of expressions with all of the
budget that there is.  A property is `Stepwise` if it holds of whatever is done after a look at the
flags, `Documentary` if it is stepwise and expressive and holds of declaring flags, and
`Compositional` if it is descending as well.  The other lemmas say that a flat property holds of
every reader of a part without expressions, a gated one of every reader of a part without levels, an
expressive one of every reader of expressions and actions, and a documentary one of every reader of
domains, problems and plans.  So what is to be shown of all of them has to be shown of the steps
only.
-/

namespace Pddl

/-- The failure is for want of room: more expressions are open than can be kept open. -/
def Failure.IsTooDeep : Failure → Prop
  | .grammar error => error.cause = .tooDeep
  | _ => False

namespace Reader

/-- The context with strict or lenient settings. -/
def Context.withStrict (c : Context) (strict : Bool) : Context :=
  { c with settings := { c.settings with strictRequirements := strict } }

/-- The context with the given limit on the nesting of expressions. -/
def Context.withLimit (c : Context) (limit : Option Nat) : Context :=
  { c with settings := { c.settings with maxNestingDepth := limit } }

/-- The context with room for the given number of open expressions. -/
def Context.withCapacity (c : Context) (capacity : Option Nat) : Context :=
  { c with capacity := capacity }

/-- The readers that are repeated for as long as the current token passes the test. -/
inductive Repeated : ∀ {α : Type}, (Token → Bool) → ReadM α → Prop
  | text {test : Token → Bool} : (∀ token, token.kind = .endOfInput → test token = false) →
      Repeated test do return (← Reader.advance).text
  | flag : Repeated isKeyword requirementFlag
  | term (budget : Nat) :
      Repeated (fun token => token.kind ≠ .closeParen) (Reader.numericTerm budget)
  | condition (budget : Nat) (temporal : Bool) :
      Repeated (hasKind .openParen) (Reader.condition budget temporal)
  | effect (budget : Nat) (temporal : Bool) :
      Repeated (hasKind .openParen) (Reader.effect budget temporal)
  | duration (budget : Nat) : Repeated (hasKind .openParen) (Reader.durationConstraint budget)
  | field : Repeated isKeyword Reader.actionField
  | durativeField : Repeated isKeyword Reader.durativeActionField
  | skeleton : Repeated (hasKind .openParen) Assembly.skeleton
  | fact : Repeated (hasKind .openParen) Reader.initElement
  | part : Repeated (hasKind .openParen) Reader.problemSection

/-- The loops whose rounds are counted by the unread tokens. -/
inductive Counted : ∀ {α : Type}, (Nat → ReadM α) → Prop
  | whileFuel {α : Type} {test : Token → Bool} {item : ReadM α} : Repeated test item →
      Counted (Reader.whileFuel test item)
  | typedGroups (kind : Token.Kind) (allowEither : Bool) :
      Counted (Reader.typedGroups kind allowEither)
  | skipRest : Counted fun fuel => Reader.skipRest fuel 0
  | planSteps : Counted fun fuel => Reader.planSteps fuel 0

/-- The readers of expressions, from the number of expressions that may be open at once. -/
inductive Budgeted : (Nat → ReadM Expr) → Prop
  | term : Budgeted Reader.numericTerm
  | condition (temporal : Bool) : Budgeted fun budget => Reader.condition budget temporal
  | effect (temporal : Bool) : Budgeted fun budget => Reader.effect budget temporal
  | duration : Budgeted Reader.durationConstraint

/-- The property holds of the steps of readers of flat parts, such as lists and headings, and passes
from parts to their compositions.  What is done after a look at the state may depend on the current
token only; the unread tokens are counted for loops only.  What is done after a look at the context
may depend on all of it but its strictness, which only reports look at, its limit, which only new
levels look at, and its capacity, which only budgets look at.  Failures for want of room are left to
what spends budgets. -/
structure Flat (R : ∀ {α : Type}, ReadM α → Prop) : Prop where
  pure : ∀ {α : Type} (a : α), R (pure a : ReadM α)
  bind : ∀ {α β : Type} {m : ReadM α} {f : α → ReadM β}, R m → (∀ a, R (f a)) → R (m >>= f)
  look : ∀ {α : Type} {f : State → ReadM α},
    (∀ s s', s.cursor.current = s'.cursor.current → f s = f s') → (∀ s, R (f s)) → R (get >>= f)
  read : ∀ {α : Type} {f : Context → ReadM α}, (∀ c strict, f (c.withStrict strict) = f c) →
    (∀ c limit, f (c.withLimit limit) = f c) →
    (∀ c capacity, f (c.withCapacity capacity) = f c) → (∀ c, R (f c)) → R (read >>= f)
  rounds : ∀ {α : Type} {loop : Nat → ReadM α}, Counted loop → (∀ n, R (loop n)) →
    R (Reader.rounds >>= loop)
  throw : ∀ {α : Type} {failure : Failure}, ¬ failure.IsTooDeep → R (throw failure : ReadM α)
  advance : R Reader.advance
  require : ∀ (token : Token) (feature : Feature), R (Reader.require token feature)
  report : ∀ (token : Token) (breach : Breach), R (Reader.report token breach)
  note : ∀ notice : Notice, notice.level ≠ .warning → R (Reader.note notice)

/-- The property holds of the steps of readers on a level and passes from parts to their
compositions.  Arithmetic is read only if that is allowed. -/
structure Gated (R : ∀ {α : Type}, ReadM α → Prop) : Prop extends Flat R where
  gate : ∀ {body : ReadM Expr}, R body → R do
    if ← Reader.arithmeticAllowed then body
    else Reader.failHere "a fluent or a number" .arithmeticUndeclared
  peek : R Reader.peek

/-- The property is gated and passes from a level to the one above. -/
structure Layered (R : ∀ {α : Type}, ReadM α → Prop) : Prop extends Gated R where
  nested : ∀ {α : Type} {body : ReadM α}, R body → R (Reader.nested body)

/-- The property is layered, and holds of all failures, so that expressions may be read with any
budget. -/
structure Descending (R : ∀ {α : Type}, ReadM α → Prop) : Prop extends Layered R where
  raise : ∀ {α : Type} (failure : Failure), R (MonadExcept.throw failure : ReadM α)
  throw := fun _ => raise _

/-- The property is layered, and holds of readers of expressions with all of the budget. -/
structure Expressive (R : ∀ {α : Type}, ReadM α → Prop) : Prop extends Layered R where
  any : ∀ {reader : Nat → ReadM Expr}, Budgeted reader → R (Reader.budget >>= reader)

/-- The property is gated, and what is done after a look at the state may depend on the declared
flags in any way, as asking for a feature and allowing arithmetic do. -/
structure Stepwise (R : ∀ {α : Type}, ReadM α → Prop) : Prop extends Gated R where
  get : ∀ {α : Type} {f : State → ReadM α},
    (∀ s s', s.cursor.current = s'.cursor.current → s.requirements = s'.requirements →
      f s = f s') → (∀ s, R (f s)) → R (get >>= f)
  look := fun hsame hf => get (fun s s' hcurrent _ => hsame s s' hcurrent) hf
  require := fun _ _ =>
    get (fun _ _ _ hflags => by rw [hflags]) fun s =>
      read (fun _ _ => rfl) (fun _ _ => rfl) (fun _ _ => rfl) fun c => by
        split
        · exact report _ _
        · exact pure _
  gate := fun {body} hbody =>
    bind (get (fun _ _ _ hflags => by rw [hflags]) fun _ =>
      read (fun _ _ => rfl) (fun _ _ => rfl) (fun _ _ => rfl) fun _ => pure _) fun allowed => by
        split
        · exact hbody
        · exact bind (look (fun _ _ hcurrent => by rw [hcurrent]) fun _ => pure _) fun _ =>
            throw nofun

namespace Flat

variable {R : ∀ {α : Type}, ReadM α → Prop} (hR : Flat R)

include hR

/-! ### Tokens and failures -/

/-- A look at the current token. -/
lemma current : R Reader.current :=
  hR.look (fun _ _ hcurrent => by rw [hcurrent]) fun _ => hR.pure _

/-- A look at the current kind. -/
lemma currentKind : R Reader.currentKind :=
  hR.bind hR.current fun _ => hR.pure _

/-- Asking for the end of the input. -/
lemma atEnd : R Reader.atEnd :=
  hR.look (fun _ _ hcurrent => by simp only [Cursor.atEnd, hcurrent]) fun _ => hR.pure _

/-- Failing at the current token. -/
lemma failHere {α : Type} (expected : String) {cause : Cause} (hcause : cause ≠ .tooDeep) :
    R (Reader.failHere expected cause : ReadM α) :=
  hR.bind hR.current fun _ => hR.throw hcause

/-- Failing at a token. -/
lemma failAt {α : Type} (token : Token) (expected : String) {cause : Cause}
    (hcause : cause ≠ .tooDeep) : R (Reader.failAt token expected cause : ReadM α) :=
  hR.throw hcause

/-- Expecting a kind. -/
lemma expect (kind : Token.Kind) (expected : String) : R (Reader.expect kind expected) := by
  refine hR.bind hR.currentKind fun _ => ?_
  split
  · exact hR.advance
  · exact hR.failHere _ nofun

/-- Expecting a text. -/
lemma expectText (kind : Token.Kind) (text expected : String) :
    R (Reader.expectText kind text expected) := by
  refine hR.bind hR.current fun _ => ?_
  split
  · exact hR.advance
  · exact hR.failHere _ nofun

/-- Expecting a keyword. -/
lemma keyword (text : String) : R (Reader.keyword text) := by
  refine hR.bind hR.current fun _ => ?_
  split
  · exact hR.advance
  · exact hR.failHere _ nofun

/-- Closing a form. -/
lemma closeForm (opener : Token) (reason : String) : R (Reader.closeForm opener reason) := by
  refine hR.bind hR.currentKind fun _ => ?_
  split
  · exact hR.bind hR.advance fun _ => hR.pure _
  · exact hR.failHere _ nofun

/-! ### Repetition -/

/-- Repeating a reader. -/
lemma whileFuel {α : Type} {test : Token → Bool} {item : ReadM α} (hitem : R item) (fuel : Nat) :
    R (Reader.whileFuel test item fuel) := by
  induction fuel with
  | zero => exact hR.pure _
  | succ fuel ih =>
    refine hR.bind hR.current fun _ => ?_
    split
    · exact hR.bind hitem fun _ => hR.bind ih fun _ => hR.pure _
    · exact hR.pure _

/-- Repeating a reader as often as there are tokens. -/
lemma readWhile {α : Type} {test : Token → Bool} {item : ReadM α} (hrepeated : Repeated test item)
    (hitem : R item) : R (Reader.readWhile test item) :=
  hR.rounds (.whileFuel hrepeated) fun _ => hR.whileFuel hitem _

/-- Reading texts. -/
lemma textsWhile {test : Token → Bool}
    (htest : ∀ token, token.kind = .endOfInput → test token = false) :
    R (Reader.textsWhile test) :=
  hR.readWhile (.text htest) (hR.bind hR.advance fun _ => hR.pure _)

/-! ### Names, numbers, types and flags -/

/-- Reading a name. -/
lemma name (expected : String) : R (Reader.name expected) :=
  hR.bind (hR.expect _ _) fun _ => hR.pure _

/-- Reading a number. -/
lemma number : R Reader.number := by
  refine hR.bind (hR.expect _ _) fun _ => ?_
  split
  · exact hR.pure _
  · exact hR.throw nofun

/-- Reading a type. -/
lemma typeSpec (allowEither : Bool) : R (Reader.typeSpec allowEither) := by
  refine hR.bind hR.currentKind fun _ => ?_
  split
  · exact hR.bind hR.advance fun _ => hR.pure _
  split
  · refine hR.bind (hR.expect _ _) fun _ => hR.bind (hR.expectText _ _ _) fun _ => ?_
    refine hR.bind (hR.name _) fun _ => ?_
    refine hR.bind (hR.textsWhile fun _ hend => by simp [hasKind, hend]) fun _ => ?_
    exact hR.bind (hR.expect _ _) fun _ => hR.pure _
  · exact hR.failHere _ nofun

/-- Reading groups of typed names. -/
lemma typedGroups (kind : Token.Kind) (allowEither : Bool) (fuel : Nat) :
    R (Reader.typedGroups kind allowEither fuel) := by
  induction fuel with
  | zero => exact hR.pure _
  | succ fuel ih =>
    refine hR.bind (hR.textsWhile fun _ hend => by simp [isListed, hend]) fun _ => ?_
    refine hR.bind hR.currentKind fun _ => ?_
    split
    · exact hR.pure _
    · exact hR.pure _
    · split
      · exact hR.failHere _ nofun
      · refine hR.bind hR.advance fun _ => hR.bind (hR.require _ _) fun _ => ?_
        exact hR.bind (hR.typeSpec _) fun _ => hR.bind ih fun _ => hR.pure _
    · exact hR.failHere _ nofun

/-- Reading a typed list. -/
lemma typedList (kind : Token.Kind) (allowEither : Bool) :
    R (Reader.typedList kind allowEither) :=
  hR.rounds (.typedGroups _ _) fun _ => hR.typedGroups _ _ _

/-- Reading a flag. -/
lemma requirementFlag : R Reader.requirementFlag := by
  refine hR.bind hR.advance fun _ => ?_
  split
  · exact hR.bind (hR.report _ _) fun _ => hR.pure _
  · exact hR.pure _

/-- Reading the start of a document. -/
lemma header (kind expected : String) : R (Reader.header kind expected) := by
  refine hR.bind (hR.expect _ _) fun _ => hR.bind (hR.expectText _ _ _) fun _ => ?_
  refine hR.bind (hR.expect _ _) fun _ => hR.bind (hR.expectText _ _ _) fun _ => ?_
  exact hR.bind (hR.name _) fun _ => hR.bind (hR.expect _ _) fun _ => hR.pure _

/-- Skipping the rest of the input. -/
lemma skipRest (fuel : Nat) : ∀ opened, R (Reader.skipRest fuel opened) := by
  induction fuel with
  | zero => exact fun _ => hR.pure _
  | succ fuel ih =>
    intro opened
    refine hR.bind hR.currentKind fun _ => ?_
    split
    · exact hR.pure _
    · exact hR.failHere _ nofun
    · exact hR.bind hR.advance fun _ => ih _
    · exact hR.bind hR.advance fun _ => ih _
    · exact hR.bind hR.advance fun _ => ih _

/-- Reading what follows a document. -/
lemma endOfDocument : R Reader.endOfDocument := by
  refine hR.bind hR.current fun _ => ?_
  split
  · exact hR.pure _
  · refine hR.read (fun _ _ => rfl) (fun _ _ => rfl) (fun _ _ => rfl) fun _ => ?_
    split
    · exact hR.failHere _ nofun
    · refine hR.bind (hR.note _ (by simp [Notice.level])) fun _ => ?_
      exact hR.rounds .skipRest fun _ => hR.skipRest _ _

/-- Reading the name and the parameters of a predicate or function. -/
lemma skeleton : R Assembly.skeleton := by
  refine hR.bind (hR.expect _ _) fun _ => hR.bind (hR.expect _ _) fun _ => ?_
  exact hR.bind (hR.typedList _ _) fun _ => hR.bind (hR.expect _ _) fun _ => hR.pure _

end Flat

/-- Asking for arithmetic. -/
lemma Stepwise.arithmeticAllowed {R : ∀ {α : Type}, ReadM α → Prop} (hR : Stepwise R) :
    R Reader.arithmeticAllowed :=
  hR.get (fun _ _ _ hflags => by rw [hflags]) fun _ =>
    hR.read (fun _ _ => rfl) (fun _ _ => rfl) (fun _ _ => rfl) fun _ => hR.pure _

namespace Gated

variable {R : ∀ {α : Type}, ReadM α → Prop} (hR : Gated R)

include hR

/-! ### Parts of expressions -/

/-- Reading an atom. -/
lemma atomicFormula (ground : Bool) : R (Reader.atomicFormula ground) := by
  refine hR.bind (hR.name _) fun _ => ?_
  refine hR.bind (hR.textsWhile fun _ hend => by simp [isArgument, hend]) fun _ => ?_
  refine hR.bind hR.currentKind fun _ => ?_
  split
  · exact hR.failHere _ nofun
  · exact hR.bind (hR.expect _ _) fun _ => hR.pure _

/-- Reading an atom with its parentheses. -/
lemma parenthesizedAtom (ground : Bool) : R (Reader.parenthesizedAtom ground) :=
  hR.bind (hR.expect _ _) fun _ => hR.atomicFormula _

/-- Reading arithmetic. -/
lemma arithmetic {term : ReadM Expr}
    (hrepeated : Repeated (fun token => token.kind ≠ .closeParen) term) (hterm : R term) :
    R (Reader.arithmetic term) := by
  refine hR.bind hR.current fun _ => ?_
  split
  · exact hR.failHere _ nofun
  · refine hR.gate (hR.bind hR.advance fun _ => hR.bind (hR.readWhile hrepeated hterm) fun _ => ?_)
    split
    · exact hR.bind hR.advance fun _ => hR.pure _
    · exact hR.failAt _ _ nofun

/-- Reading a comparison. -/
lemma comparison {term : ReadM Expr} (hterm : R term) (governed : Bool) :
    R (Reader.comparison term governed) := by
  refine hR.bind hR.current fun _ => ?_
  split
  · exact hR.failHere _ nofun
  · refine hR.bind hR.advance fun _ => hR.bind hterm fun _ => hR.bind hterm fun _ => ?_
    split
    · refine hR.bind (hR.require _ _) fun _ => ?_
      exact hR.bind (hR.closeForm _ _) fun _ => hR.pure _
    · exact hR.bind (hR.closeForm _ _) fun _ => hR.pure _

/-- Looking for a time specifier. -/
lemma timeAhead? : R Reader.timeAhead? := by
  refine hR.bind hR.peek fun _ => ?_
  split
  · exact hR.bind hR.current fun _ => hR.pure _
  · exact hR.pure _

/-- Reading a timed expression. -/
lemma timed {operand : ReadM Expr} (hoperand : R operand) (time : TimeSpec)
    (allowed inEffect : Bool) : R (Reader.timed time allowed inEffect operand) := by
  unfold Reader.timed
  split
  · refine hR.bind hR.advance fun _ => hR.bind hR.advance fun _ => ?_
    split
    · exact hR.failAt _ _ nofun
    · refine hR.bind (hR.require _ _) fun _ => hR.bind hoperand fun _ => ?_
      exact hR.bind (hR.closeForm _ _) fun _ => hR.pure _
  · exact hR.failHere _ nofun

/-- Reading operands. -/
lemma operands {operand : ReadM Expr} (hrepeated : Repeated (hasKind .openParen) operand)
    (hoperand : R operand) : R (Reader.operands operand) :=
  hR.bind (hR.readWhile hrepeated hoperand) fun _ => hR.bind (hR.expect _ _) fun _ => hR.pure _

/-- Reading the variables of a quantifier. -/
lemma quantifiedVariables : R Reader.quantifiedVariables :=
  hR.bind (hR.expect _ _) fun _ => hR.bind (hR.typedList _ _) fun _ =>
    hR.bind (hR.expect _ _) fun _ => hR.pure _

end Gated

namespace Layered

variable {R : ∀ {α : Type}, ReadM α → Prop} (hR : Layered R)

include hR

/-! ### Fluents and parameters -/

/-- Reading a fluent. -/
lemma fluent : R Reader.fluent := by
  refine hR.bind hR.currentKind fun _ => ?_
  split
  · exact hR.bind hR.advance fun _ => hR.pure _
  · exact hR.nested (hR.bind (hR.expect _ _) fun _ => hR.atomicFormula _)

/-- Reading an update. -/
lemma numericUpdate {term : ReadM Expr} (hterm : R term) (op : UpdateOp) :
    R (Reader.numericUpdate op term) := by
  refine hR.bind hR.advance fun _ => hR.bind (hR.require _ _) fun _ => ?_
  refine hR.bind hR.fluent fun _ => hR.bind hterm fun _ => ?_
  exact hR.bind (hR.closeForm _ _) fun _ => hR.pure _

/-- Reading parameters. -/
lemma parameters : R Reader.parameters := by
  refine hR.bind (hR.keyword _) fun _ => hR.bind (hR.expect _ _) fun _ => ?_
  exact hR.bind (hR.typedList _ _) fun _ => hR.bind (hR.expect _ _) fun _ => hR.pure _

/-! ### Levels of expressions -/

/-- What comes after the opening parenthesis of a condition. -/
lemma condition_succ {budget : Nat} (hterm : R (Reader.numericTerm budget))
    (ih : ∀ temporal, R (Reader.condition budget temporal)) (temporal : Bool) :
    ∃ rest, Reader.condition (budget + 1) temporal =
      Reader.nested (Reader.expect .openParen "'(' opening a condition" >>= fun _ => rest) ∧
        R rest := by
  refine ⟨_, rfl, hR.bind hR.current fun token => ?_⟩
  cases token.kind with
  | closeParen => exact hR.bind hR.advance fun _ => hR.pure _
  | operator => exact hR.comparison hterm _
  | name =>
    cases Head.ofKey token.key with
    | conjunction =>
      refine hR.bind hR.advance fun _ => ?_
      exact hR.bind (hR.operands (.condition _ _) (ih _)) fun _ => hR.pure _
    | disjunction =>
      refine hR.bind hR.advance fun _ => hR.bind (hR.require _ _) fun _ => ?_
      exact hR.bind (hR.operands (.condition _ _) (ih _)) fun _ => hR.pure _
    | negation =>
      refine hR.bind hR.advance fun _ => hR.bind (ih _) fun _ => ?_
      exact hR.bind (hR.closeForm _ _) fun _ => hR.pure _
    | quantifier quantifier =>
      refine hR.bind hR.advance fun _ => hR.bind (hR.require _ _) fun _ => ?_
      refine hR.bind hR.quantifiedVariables fun _ => hR.bind (ih _) fun _ => ?_
      exact hR.bind (hR.closeForm _ _) fun _ => hR.pure _
    | time =>
      refine hR.bind hR.timeAhead? fun time => ?_
      cases time with
      | some time => exact hR.timed (ih _) _ _ _
      | none => exact hR.bind (hR.atomicFormula _) fun _ => hR.pure _
    | conditional | update => exact hR.failHere _ nofun
    | symbol => exact hR.bind (hR.atomicFormula _) fun _ => hR.pure _
  | _ => exact hR.failHere _ nofun

/-- What comes after the opening parenthesis of an effect. -/
lemma effect_succ {budget : Nat} (hterm : R (Reader.numericTerm budget))
    (hcondition : ∀ temporal, R (Reader.condition budget temporal))
    (ih : ∀ temporal, R (Reader.effect budget temporal)) (temporal : Bool) :
    ∃ rest, Reader.effect (budget + 1) temporal =
      Reader.nested (Reader.expect .openParen "'(' opening an effect" >>= fun _ => rest) ∧
        R rest := by
  refine ⟨_, rfl, hR.bind hR.current fun token => ?_⟩
  cases token.kind with
  | closeParen => exact hR.bind hR.advance fun _ => hR.pure _
  | name =>
    cases Head.ofKey token.key with
    | conjunction =>
      refine hR.bind hR.advance fun _ => ?_
      exact hR.bind (hR.operands (.effect _ _) (ih _)) fun _ => hR.pure _
    | negation =>
      refine hR.bind hR.advance fun _ => ?_
      refine hR.bind (hR.nested (hR.parenthesizedAtom _)) fun _ => ?_
      exact hR.bind (hR.closeForm _ _) fun _ => hR.pure _
    | quantifier quantifier =>
      cases quantifier with
      | universal =>
        refine hR.bind hR.advance fun _ => hR.bind (hR.require _ _) fun _ => ?_
        refine hR.bind hR.quantifiedVariables fun _ => hR.bind (ih _) fun _ => ?_
        exact hR.bind (hR.closeForm _ _) fun _ => hR.pure _
      | existential => exact hR.failHere _ nofun
    | conditional =>
      refine hR.bind hR.advance fun _ => hR.bind (hR.require _ _) fun _ => ?_
      refine hR.bind (hcondition _) fun _ => hR.bind (ih _) fun _ => ?_
      exact hR.bind (hR.closeForm _ _) fun _ => hR.pure _
    | time =>
      refine hR.bind hR.timeAhead? fun time => ?_
      cases time with
      | some time => exact hR.timed (ih _) _ _ _
      | none => exact hR.bind (hR.atomicFormula _) fun _ => hR.pure _
    | update op => exact hR.numericUpdate hterm _
    | disjunction => exact hR.failHere _ nofun
    | symbol => exact hR.bind (hR.atomicFormula _) fun _ => hR.pure _
  | _ => exact hR.failHere _ nofun

/-- What comes after the opening parenthesis of a duration constraint. -/
lemma durationConstraint_succ {budget : Nat} (hterm : R (Reader.numericTerm budget))
    (ih : R (Reader.durationConstraint budget)) :
    ∃ rest, Reader.durationConstraint (budget + 1) =
      Reader.nested
        (Reader.expect .openParen "'(' opening a duration constraint" >>= fun _ => rest) ∧
        R rest := by
  refine ⟨_, rfl, hR.bind hR.current fun token => ?_⟩
  cases token.kind with
  | closeParen => exact hR.bind hR.advance fun _ => hR.pure _
  | operator => exact hR.comparison hterm _
  | name =>
    dsimp only
    split
    · refine hR.bind hR.advance fun _ => hR.bind (hR.require _ _) fun _ => ?_
      exact hR.bind (hR.operands (.duration _) ih) fun _ => hR.pure _
    · refine hR.bind hR.timeAhead? fun time => ?_
      cases time with
      | some time => exact hR.timed ih _ _ _
      | none => exact hR.failHere _ nofun
  | _ => exact hR.failHere _ nofun

end Layered

namespace Descending

variable {R : ∀ {α : Type}, ReadM α → Prop} (hR : Descending R)

include hR

/-! ### Expressions -/

/-- Failing for want of room. -/
lemma failTooDeep {α : Type} : R (Reader.failTooDeep : ReadM α) :=
  hR.bind hR.current fun _ => hR.raise _

/-- Reading a numeric term. -/
lemma numericTerm (budget : Nat) : R (Reader.numericTerm budget) := by
  induction budget with
  | zero => exact hR.failTooDeep
  | succ budget ih =>
    refine hR.bind hR.currentKind fun kind => ?_
    cases kind with
    | number => exact hR.bind hR.number fun _ => hR.pure _
    | var | name => exact hR.bind hR.advance fun _ => hR.pure _
    | openParen =>
      refine hR.nested (hR.bind hR.advance fun _ => hR.bind hR.currentKind fun kind => ?_)
      cases kind with
      | minus | operator => exact hR.arithmetic (.term _) ih
      | name => exact hR.bind (hR.atomicFormula _) fun _ => hR.pure _
      | _ => exact hR.failHere _ nofun
    | _ => exact hR.failHere _ nofun

/-- Reading a condition. -/
lemma condition (budget : Nat) : ∀ temporal, R (Reader.condition budget temporal) := by
  induction budget with
  | zero => exact fun _ => hR.failTooDeep
  | succ budget ih =>
    intro temporal
    obtain ⟨rest, hsucc, hrest⟩ := hR.condition_succ (hR.numericTerm budget) ih temporal
    rw [hsucc]
    exact hR.nested (hR.bind (hR.expect _ _) fun _ => hrest)

/-- Reading an effect. -/
lemma effect (budget : Nat) : ∀ temporal, R (Reader.effect budget temporal) := by
  induction budget with
  | zero => exact fun _ => hR.failTooDeep
  | succ budget ih =>
    intro temporal
    obtain ⟨rest, hsucc, hrest⟩ :=
      hR.effect_succ (hR.numericTerm budget) (hR.condition budget) ih temporal
    rw [hsucc]
    exact hR.nested (hR.bind (hR.expect _ _) fun _ => hrest)

/-- Reading a duration constraint. -/
lemma durationConstraint (budget : Nat) : R (Reader.durationConstraint budget) := by
  induction budget with
  | zero => exact hR.failTooDeep
  | succ budget ih =>
    obtain ⟨rest, hsucc, hrest⟩ := hR.durationConstraint_succ (hR.numericTerm budget) ih
    rw [hsucc]
    exact hR.nested (hR.bind (hR.expect _ _) fun _ => hrest)

/-- Reading an expression with any budget. -/
lemma withBudget {reader : Nat → ReadM Expr} (h : Budgeted reader) (n : Nat) : R (reader n) := by
  cases h with
  | term => exact hR.numericTerm _
  | condition temporal => exact hR.condition _ _
  | effect temporal => exact hR.effect _ _
  | duration => exact hR.durationConstraint _

/-- If the property holds of looking at the budget, expressions may be read with all of it. -/
lemma expressive (hbudget : R Reader.budget) : Expressive R where
  toLayered := hR.toLayered
  any := fun h => hR.bind hbudget fun n => hR.withBudget h n

end Descending

namespace Expressive

variable {R : ∀ {α : Type}, ReadM α → Prop} (hR : Expressive R)

include hR

/-! ### Expressions with all of the budget -/

/-- Reading a numeric term with all of the budget. -/
lemma anyNumericTerm : R Reader.anyNumericTerm :=
  hR.any .term

/-- Reading a condition with all of the budget. -/
lemma anyCondition (temporal : Bool) : R (Reader.anyCondition temporal) :=
  hR.any (.condition temporal)

/-- Reading an effect with all of the budget. -/
lemma anyEffect (temporal : Bool) : R (Reader.anyEffect temporal) :=
  hR.any (.effect temporal)

/-- Reading a duration constraint with all of the budget. -/
lemma anyDurationConstraint : R Reader.anyDurationConstraint :=
  hR.any .duration

/-! ### Actions -/

/-- Reading a field of an instantaneous action. -/
lemma actionField : R Reader.actionField := by
  refine hR.bind hR.current fun _ => ?_
  split
  · exact hR.bind hR.parameters fun _ => hR.pure _
  · exact hR.bind hR.advance fun _ => hR.bind (hR.anyCondition _) fun _ => hR.pure _
  · exact hR.bind hR.advance fun _ => hR.bind (hR.anyEffect _) fun _ => hR.pure _
  · exact hR.failHere _ nofun

/-- Reading an instantaneous action. -/
lemma action : R Reader.action := by
  refine hR.bind (hR.keyword _) fun _ => hR.bind (hR.name _) fun _ => ?_
  refine hR.bind (hR.readWhile .field hR.actionField) fun _ => ?_
  exact hR.bind (hR.expect _ _) fun _ => hR.pure _

/-- Reading a field of a durative action. -/
lemma durativeActionField : R Reader.durativeActionField := by
  refine hR.bind hR.current fun _ => ?_
  split
  · exact hR.bind hR.parameters fun _ => hR.pure _
  · exact hR.bind hR.advance fun _ => hR.bind hR.anyDurationConstraint fun _ => hR.pure _
  · exact hR.bind hR.advance fun _ => hR.bind (hR.anyCondition _) fun _ => hR.pure _
  · exact hR.bind hR.advance fun _ => hR.bind (hR.anyEffect _) fun _ => hR.pure _
  · exact hR.failHere _ nofun

/-- Reading a durative action. -/
lemma durativeAction : R Reader.durativeAction := by
  refine hR.bind (hR.keyword _) fun _ => hR.bind (hR.require _ _) fun _ => ?_
  refine hR.bind (hR.name _) fun _ => ?_
  refine hR.bind (hR.readWhile .durativeField hR.durativeActionField) fun _ => ?_
  dsimp only
  split
  · exact hR.bind (hR.expect _ _) fun _ => hR.pure _
  · exact hR.failHere _ nofun

end Expressive

/-- The property is stepwise, holds of readers of expressions with all of the budget, and of
declaring flags. -/
structure Documentary (R : ∀ {α : Type}, ReadM α → Prop) : Prop
    extends Stepwise R, Expressive R where
  declare : ∀ flags : List String, R (modify fun state =>
    { state with requirements := Text.union state.requirements flags } : ReadM Unit)

/-- The property is stepwise, holds of readers of expressions with any budget, and of declaring
flags. -/
structure Compositional (R : ∀ {α : Type}, ReadM α → Prop) : Prop
    extends Documentary R, Descending R where
  budget : R Reader.budget
  any := fun h => bind budget fun n => Descending.withBudget
    ⟨⟨⟨⟨pure, bind, look, read, rounds, throw, advance, require, report, note⟩, gate, peek⟩,
      nested⟩, raise⟩ h n

namespace Documentary

variable {R : ∀ {α : Type}, ReadM α → Prop} (hR : Documentary R)

include hR

/-- Reading a section of requirements. -/
lemma requirements : R Reader.requirements := by
  refine hR.bind (hR.keyword _) fun _ => ?_
  refine hR.bind (hR.readWhile .flag hR.requirementFlag) fun _ => ?_
  refine hR.bind (hR.expect _ _) fun _ => hR.bind (hR.declare _) fun _ => ?_
  exact hR.bind (hR.note _ (by simp [Notice.level])) fun _ => hR.pure _

/-! ### Problems -/

/-- Reading an element of an initial state. -/
lemma initElement : R Reader.initElement := by
  refine hR.nested (hR.bind (hR.expect _ _) fun _ => hR.bind hR.current fun _ => ?_)
  split
  · refine hR.bind hR.advance fun _ => hR.bind hR.fluent fun _ => ?_
    refine hR.bind hR.anyNumericTerm fun _ => hR.bind (hR.closeForm _ _) fun _ => hR.pure _
  split
  · refine hR.bind hR.advance fun _ => hR.bind (hR.nested (hR.parenthesizedAtom _)) fun _ => ?_
    exact hR.bind (hR.closeForm _ _) fun _ => hR.pure _
  · exact hR.bind (hR.atomicFormula _) fun _ => hR.pure _

/-- Reading a metric. -/
lemma metric : R Reader.metric := by
  refine hR.bind (hR.expect _ _) fun _ => ?_
  split
  · exact hR.bind hR.anyNumericTerm fun _ => hR.pure _
  · exact hR.failAt _ _ nofun

/-- Reading a section of a problem by its kind. -/
lemma problemSectionOf (kind : ProblemSectionKind) : R (Reader.problemSectionOf kind) := by
  cases kind with
  | domain =>
    refine hR.bind hR.advance fun _ => hR.bind (hR.name _) fun _ => ?_
    exact hR.bind (hR.expect _ _) fun _ => hR.pure _
  | requirements => exact hR.bind hR.requirements fun _ => hR.pure _
  | objects =>
    refine hR.bind hR.advance fun _ => hR.bind (hR.typedList _ _) fun _ => ?_
    exact hR.bind (hR.expect _ _) fun _ => hR.pure _
  | init =>
    refine hR.bind hR.advance fun _ => ?_
    exact hR.bind (hR.operands .fact hR.initElement) fun _ => hR.pure _
  | goal =>
    refine hR.bind hR.advance fun _ => hR.bind (hR.anyCondition _) fun _ => ?_
    exact hR.bind (hR.expect _ _) fun _ => hR.pure _
  | metric =>
    refine hR.bind hR.advance fun _ => hR.bind hR.metric fun _ => ?_
    exact hR.bind (hR.expect _ _) fun _ => hR.pure _

/-- Reading a section of a problem. -/
lemma problemSection : R Reader.problemSection := by
  refine hR.bind (hR.expect _ _) fun _ => hR.bind hR.current fun _ => ?_
  split
  · split
    · exact hR.problemSectionOf _
    · exact hR.failHere _ nofun
  · exact hR.failHere _ nofun

/-- Reading a problem. -/
lemma problem : R Reader.problem := by
  refine hR.bind (hR.header _ _) fun _ => hR.bind (hR.note _ (by simp [Notice.level])) fun _ => ?_
  refine hR.bind (hR.readWhile .part hR.problemSection) fun _ => ?_
  dsimp only
  split
  · exact hR.failHere _ nofun
  · exact hR.failHere _ nofun
  · exact hR.bind (hR.expect _ _) fun _ => hR.bind hR.endOfDocument fun _ => hR.pure _

/-! ### Plans -/

/-- Reading a time. -/
lemma time : R Reader.time := by
  refine hR.bind hR.number fun _ => ?_
  split
  · exact hR.pure _
  · exact hR.throw nofun

/-- Reading the time of a step. -/
lemma stepTime? : R Reader.stepTime? := by
  refine hR.bind hR.currentKind fun _ => ?_
  split
  · exact hR.bind hR.time fun _ => hR.bind (hR.expect _ _) fun _ => hR.pure _
  · exact hR.pure _

/-- Reading the duration of a step. -/
lemma stepDuration? : R Reader.stepDuration? := by
  refine hR.bind hR.currentKind fun _ => ?_
  split
  · refine hR.bind hR.advance fun _ => hR.bind hR.time fun _ => ?_
    exact hR.bind (hR.expect _ _) fun _ => hR.pure _
  · exact hR.pure _

/-- Reading a step of a plan. -/
lemma planStep (index : Int) : R (Reader.planStep index) := by
  refine hR.bind hR.stepTime? fun _ => ?_
  refine hR.bind (hR.nested (hR.bind (hR.expect _ _) fun _ => hR.atomicFormula _)) fun _ => ?_
  exact hR.bind hR.stepDuration? fun _ => hR.pure _

/-- Reading steps of a plan. -/
lemma planSteps (fuel : Nat) : ∀ index, R (Reader.planSteps fuel index) := by
  induction fuel with
  | zero => exact fun _ => hR.pure _
  | succ fuel ih =>
    intro index
    refine hR.bind hR.atEnd fun _ => ?_
    split
    · exact hR.pure _
    · exact hR.bind (hR.planStep _) fun _ => hR.bind (ih _) fun _ => hR.pure _

/-- Reading a plan. -/
lemma plan : R Reader.plan := by
  have hsteps : R (Reader.rounds >>= fun fuel => Reader.planSteps fuel 0) :=
    hR.rounds .planSteps fun _ => hR.planSteps _ _
  change R ((Reader.rounds >>= fun fuel => Reader.planSteps fuel 0) >>= fun steps => do
    Reader.note (.planRead steps.length)
    return (⟨steps⟩ : Plan))
  exact hR.bind hsteps fun _ => hR.bind (hR.note _ (by simp [Notice.level])) fun _ => hR.pure _

end Documentary

/-! ### Parts of the context -/

/-- Which number the context gets makes no difference to the reader. -/
def Unaffected {α : Type} (change : Option Nat → Context → Context) (m : ReadM α) : Prop :=
  ∀ (c : Context) (n : Option Nat) (s : State), m (change n c) s = m (change none c) s

/-- A look at what the context has besides the number. -/
lemma Unaffected.read {α : Type} {change : Option Nat → Context → Context}
    {f : Context → ReadM α} (hchange : ∀ c n, f (change n c) = f c)
    (hf : ∀ c, Unaffected change (f c)) : Unaffected change (read >>= f) := by
  intro c n s
  rw [bind_of_ok (read_eq_ok.mpr ⟨rfl, rfl⟩), bind_of_ok (read_eq_ok.mpr ⟨rfl, rfl⟩), hchange,
    hchange]
  exact hf c c n s

/-- The limit and the capacity make no difference to readers that enter no level and do not look at
the budget. -/
lemma unaffected_stepwise {change : Option Nat → Context → Context}
    (hchange : ∀ {β : Type} {f : Context → β}, (∀ c limit, f (c.withLimit limit) = f c) →
      (∀ c capacity, f (c.withCapacity capacity) = f c) → ∀ c n, f (change n c) = f c) :
    Stepwise (Unaffected change) where
  pure := fun _ _ _ _ => rfl
  bind := by
    intro α β m f hm hf c n s
    cases hrun : m (change none c) s with
    | ok a s₁ => rw [bind_of_ok hrun, bind_of_ok ((hm c n s).trans hrun), hf a]
    | error failure s₁ => rw [bind_of_error hrun, bind_of_error ((hm c n s).trans hrun)]
  get := fun _ hf c n s => hf s c n s
  read := fun _ hlimit hcapacity => .read (hchange hlimit hcapacity)
  rounds := fun _ hloop c n s => hloop _ c n s
  throw := fun _ _ _ _ => rfl
  peek := fun _ _ _ => rfl
  advance := fun _ _ _ => rfl
  report := by
    have hstrict := @hchange Bool (fun c => c.settings.strictRequirements) (fun _ _ => rfl)
      fun _ _ => rfl
    refine fun token breach => .read (fun c n => by rw [hstrict]) fun c => ?_
    split
    · exact fun _ _ _ => rfl
    · exact fun _ _ _ => rfl
  note := fun _ _ _ _ _ => rfl

end Reader

namespace Assembly

/-- The loops of readers of domains whose rounds are counted by the unread tokens. -/
inductive Counted : (Nat → AssembleM Unit) → Prop
  | predicates : Counted (Assembly.whileFuel (Reader.hasKind .openParen) Assembly.predicate)
  | sections : Counted (Assembly.whileFuel (Reader.hasKind .openParen) do
      let _ ← Reader.openParen
      Assembly.anySection)
  | functionGroups : Counted Assembly.functionGroups

/-- A property of readers of domains holds of their steps and passes from parts to compositions;
readers that leave the declarations alone have it if they have the property `R`. -/
structure Compositional (R : ∀ {α : Type}, ReadM α → Prop) (A : ∀ {α : Type}, AssembleM α → Prop) :
    Prop where
  pure : ∀ {α : Type} (a : α), A (pure a : AssembleM α)
  bind : ∀ {α β : Type} {m : AssembleM α} {f : α → AssembleM β}, A m → (∀ a, A (f a)) →
    A (m >>= f)
  throw : ∀ {α : Type} {failure : Failure}, ¬ failure.IsTooDeep → A (throw failure : AssembleM α)
  ofReader : ∀ {α : Type} {m : ReadM α}, R m → A (Assembly.ofReader m)
  rounds : ∀ {loop : Nat → AssembleM Unit}, Counted loop → (∀ n, A (loop n)) →
    A (Assembly.ofReader Reader.rounds >>= loop)
  declare : ∀ change : Declarations → Declarations, A (Assembly.declare change)
  declared? : A Assembly.declared?

namespace Compositional

variable {R : ∀ {α : Type}, ReadM α → Prop} {A : ∀ {α : Type}, AssembleM α → Prop}
  (hR : Reader.Documentary R) (hA : Compositional R A)

include hA

/-- Making a check. -/
lemma check {α : Type} (outcome : Except Defect α) : A (Assembly.check outcome) := by
  cases outcome with
  | ok value => exact hA.pure _
  | error defect => exact hA.throw nofun

/-- Declaring a predicate. -/
lemma declarePredicate (token : Token) (params : List TypedName) :
    A (Assembly.declarePredicate token params) := by
  refine hA.bind hA.declared? fun _ => ?_
  split
  · exact hA.throw nofun
  · exact hA.declare _

/-- Declaring a function. -/
lemma declareFunction (returns : String) (skeleton : Token × List TypedName) :
    A (Assembly.declareFunction returns skeleton) := by
  refine hA.bind hA.declared? fun _ => ?_
  split
  · exact hA.throw nofun
  · exact hA.declare _

/-- Declaring functions. -/
lemma declareFunctions (returns : String) (skeletons : List (Token × List TypedName)) :
    A (Assembly.declareFunctions returns skeletons) := by
  induction skeletons with
  | nil => exact hA.pure _
  | cons skeleton rest ih => exact hA.bind (hA.declareFunction _ _) fun _ => ih

include hR

/-- Repeating a step. -/
lemma whileFuel {test : Token → Bool} {step : AssembleM Unit} (hstep : A step) (fuel : Nat) :
    A (Assembly.whileFuel test step fuel) := by
  induction fuel with
  | zero => exact hA.pure _
  | succ fuel ih =>
    refine hA.bind (hA.ofReader hR.current) fun _ => ?_
    split
    · exact hA.bind hstep fun _ => ih
    · exact hA.pure _

/-- Repeating a step as often as there are tokens. -/
lemma repeatWhile {test : Token → Bool} {step : AssembleM Unit}
    (hcounted : Counted (Assembly.whileFuel test step)) (hstep : A step) :
    A (Assembly.repeatWhile test step) :=
  hA.rounds hcounted fun _ => whileFuel hR hA hstep _

/-- Reading and declaring a predicate. -/
lemma predicate : A Assembly.predicate :=
  hA.bind (hA.ofReader hR.skeleton) fun _ => hA.declarePredicate _ _

/-- Reading and declaring groups of functions. -/
lemma functionGroups (fuel : Nat) : A (Assembly.functionGroups fuel) := by
  induction fuel with
  | zero => exact hA.pure _
  | succ fuel ih =>
    refine hA.bind (hA.ofReader (hR.readWhile .skeleton hR.skeleton)) fun _ => ?_
    refine hA.bind (hA.ofReader hR.currentKind) fun _ => ?_
    split
    · split
      · exact hA.ofReader (hR.failHere _ nofun)
      · refine hA.bind (hA.ofReader hR.advance) fun _ => ?_
        refine hA.bind (hA.ofReader (hR.name _)) fun _ => ?_
        exact hA.bind (hA.declareFunctions _ _) fun _ => ih
    · exact hA.declareFunctions _ _

/-- Reading and declaring functions. -/
lemma functionList : A Assembly.functionList :=
  hA.rounds .functionGroups fun _ => functionGroups hR hA _

/-- Adding an action. -/
lemma addAction (action : Action) : A (Assembly.addAction action) := by
  refine hA.bind hA.declared? fun _ => hA.bind (hA.check _) fun _ => ?_
  exact hA.bind (hA.declare _) fun _ => hA.ofReader (hR.note _ (by simp [Notice.level]))

/-- Reading types. -/
lemma typesBody : A Assembly.typesBody := by
  refine hA.bind (hA.ofReader (hR.typedList _ _)) fun _ => hA.bind (hA.declare _) fun _ => ?_
  refine hA.bind hA.declared? fun _ => hA.bind (hA.check _) fun _ => ?_
  refine hA.bind (hA.declare _) fun _ => ?_
  exact hA.bind (hA.ofReader (hR.expect _ _)) fun _ => hA.pure _

/-- Reading constants. -/
lemma constantsBody : A Assembly.constantsBody := by
  refine hA.bind (hA.ofReader (hR.typedList _ _)) fun _ => hA.bind (hA.declare _) fun _ => ?_
  exact hA.bind (hA.ofReader (hR.expect _ _)) fun _ => hA.pure _

/-- Reading a section of a domain by its kind. -/
lemma sectionOf (kind : SectionKind) : A (Assembly.sectionOf kind) := by
  cases kind with
  | requirements => exact hA.bind (hA.ofReader hR.requirements) fun _ => hA.declare _
  | types => exact hA.bind (hA.ofReader hR.advance) fun _ => typesBody hR hA
  | constants => exact hA.bind (hA.ofReader hR.advance) fun _ => constantsBody hR hA
  | predicates =>
    refine hA.bind (hA.ofReader hR.advance) fun _ => ?_
    refine hA.bind (repeatWhile hR hA .predicates (predicate hR hA)) fun _ => ?_
    exact hA.bind (hA.ofReader (hR.expect _ _)) fun _ => hA.pure _
  | functions =>
    refine hA.bind (hA.ofReader hR.advance) fun _ => ?_
    refine hA.bind (hA.ofReader (hR.require _ _)) fun _ => ?_
    refine hA.bind (functionList hR hA) fun _ => ?_
    exact hA.bind (hA.ofReader (hR.expect _ _)) fun _ => hA.pure _
  | action => exact hA.bind (hA.ofReader hR.action) fun _ => addAction hR hA _
  | durativeAction => exact hA.bind (hA.ofReader hR.durativeAction) fun _ => addAction hR hA _

/-- Reading a section of a domain. -/
lemma anySection : A Assembly.anySection := by
  refine hA.bind (hA.ofReader hR.current) fun _ => ?_
  split
  · split
    · exact sectionOf hR hA _
    · exact hA.ofReader (hR.failHere _ nofun)
  · exact hA.ofReader (hR.failHere _ nofun)

/-- Reading a domain. -/
lemma domain : A Assembly.domain := by
  refine hA.bind (hA.ofReader (hR.header _ _)) fun _ => ?_
  refine hA.bind (hA.ofReader (hR.note _ (by simp [Notice.level]))) fun _ => ?_
  refine hA.bind (repeatWhile hR hA .sections
    (hA.bind (hA.ofReader (hR.expect _ _)) fun _ => anySection hR hA)) fun _ => ?_
  refine hA.bind (hA.ofReader (hR.expect _ _)) fun _ => ?_
  refine hA.bind (hA.ofReader hR.endOfDocument) fun _ => ?_
  refine hA.bind hA.declared? fun _ => hA.bind (hA.check _) fun _ => ?_
  refine hA.bind (hA.declare _) fun _ => hA.bind hA.declared? fun _ => ?_
  refine hA.bind (hA.check _) fun _ => ?_
  exact hA.bind (hA.ofReader (hR.note _ (by simp [Notice.level]))) fun _ => hA.pure _

end Compositional

end Assembly

end Pddl
