import Pddl.Check.References
import Pddl.Reader.Action
import Pddl.Reader.Report

/-!
# Readers of domains

The sections of a domain may come in any order and several times; each adds to what is declared.
An action may use only what is declared before it.
-/

namespace Pddl

/-- What the sections of a domain have declared so far. -/
structure Declarations where
  requirements : List String
  typeDeclarations : List TypedName
  types : TypeHierarchy
  constants : List TypedName
  predicates : List Predicate
  functions : List Function
  actions : List Action

namespace Declarations

/-- Nothing is declared. -/
def empty : Declarations where
  requirements := []
  typeDeclarations := []
  types := TypeHierarchy.empty
  constants := []
  predicates := []
  functions := []
  actions := []

/-- The domain of the given name with all that is declared. -/
def toDomain (declared : Declarations) (name : String) : Domain where
  name := name
  requirements := declared.requirements
  types := declared.types
  constants := declared.constants
  predicates := declared.predicates
  functions := declared.functions
  actions := declared.actions

end Declarations

/-- The state of a reader together with the declarations of the domain it reads. -/
structure Assembly extends Reader.State where
  declared : Declarations

/-- Readers that can add to the declarations of a domain. -/
abbrev AssembleM := ReaderT Reader.Context (EStateM Failure Assembly)

namespace Assembly

/-- The flags that hold before any are declared. -/
def initialRequirements : List String := [":strips"]

/-- The state before anything is read. -/
def ofCursor (cursor : Cursor) : Assembly where
  toState := Reader.State.ofCursor cursor initialRequirements
  declared := Declarations.empty

/-- A reader that leaves the declarations alone. -/
def ofReader {α : Type} (reader : ReadM α) : AssembleM α := fun context assembly =>
  match reader context assembly.toState with
  | .ok value state => .ok value { assembly with toState := state }
  | .error failure state => .error failure { assembly with toState := state }

instance : MonadLift ReadM AssembleM := ⟨ofReader⟩

/-- Changes the declarations. -/
def declare (change : Declarations → Declarations) : AssembleM Unit := fun _ assembly =>
  .ok () { assembly with declared := change assembly.declared }

/-- What is declared so far. -/
def declared? : AssembleM Declarations := fun _ assembly =>
  .ok assembly.declared assembly

/-- The value of a check, or its defect as a failure. -/
def check {α : Type} : Except Defect α → AssembleM α
  | .ok value => return value
  | .error defect => throw (.invalid defect)

/-- Repeats a step for as long as the current token passes a test, at most `fuel` times. -/
def whileFuel (test : Token → Bool) (step : AssembleM Unit) : Nat → AssembleM Unit
  | 0 => return ()
  | fuel + 1 => do
    if test (← Reader.current) then
      step
      whileFuel test step fuel

/-- Repeats a step, which consumes a token, for as long as the current token passes a test. -/
def repeatWhile (test : Token → Bool) (step : AssembleM Unit) : AssembleM Unit := do
  whileFuel test step (← Reader.rounds)

/-! ### Predicates and functions -/

/-- Reads the name and the parameters of a predicate or function. -/
def skeleton : ReadM (Token × List TypedName) := do
  let _ ← Reader.openParen
  let name ← Reader.expect .name "a predicate or function name"
  let params ← Reader.typedList .var true
  let _ ← Reader.closeParen
  return (name, params)

/-- Declares a predicate under a name that no other predicate has. -/
def declarePredicate (token : Token) (params : List TypedName) : AssembleM Unit := do
  match findPredicate? (← declared?).predicates token.text with
  | some _ => throw (.invalid (.duplicate .predicate token))
  | none =>
    declare fun declared =>
      { declared with predicates := declared.predicates ++ [⟨token.text, params⟩] }

/-- Declares a function under a name that no other function has. -/
def declareFunction (returns : String) (skeleton : Token × List TypedName) : AssembleM Unit := do
  let (token, params) := skeleton
  match findFunction? (← declared?).functions token.text with
  | some _ => throw (.invalid (.duplicate .function token))
  | none =>
    declare fun declared =>
      { declared with functions := declared.functions ++ [⟨token.text, params, returns⟩] }

/-- Declares functions one after the other, all with the same return type. -/
def declareFunctions (returns : String) : List (Token × List TypedName) → AssembleM Unit
  | [] => return ()
  | skeleton :: rest => do
    declareFunction returns skeleton
    declareFunctions returns rest

/-- Reads and declares a predicate. -/
def predicate : AssembleM Unit := do
  let (token, params) ← skeleton
  declarePredicate token params

/-- Reads at most `fuel` groups of functions `s₁ … sₖ - type` and the untyped functions after
them. -/
def functionGroups : Nat → AssembleM Unit
  | 0 => return ()
  | fuel + 1 => do
    let skeletons ← Reader.readWhile (Reader.hasKind .openParen) skeleton
    if (← Reader.currentKind) = .minus then
      if skeletons.isEmpty then
        Reader.failHere Token.Kind.openParen.describe (.strayMinus "the :functions section")
      else
        let _ ← Reader.advance
        let returns ← Reader.name "a function type"
        declareFunctions returns skeletons
        functionGroups fuel
    else
      declareFunctions numberType skeletons

/-- Reads and declares functions.  Functions before a `-` have the type after it; functions after
the last type are numeric. -/
def functionList : AssembleM Unit := do
  functionGroups (← Reader.rounds)

/-! ### Sections -/

/-- Adds an action that uses only what is declared. -/
def addAction (action : Action) : AssembleM Unit := do
  let declared ← declared?
  check (Check.actionReferences declared.types declared.predicates declared.functions action)
  declare fun declared => { declared with actions := declared.actions ++ [action] }
  Reader.note (.actionRead action.name)

/-- The kinds of sections of a domain. -/
inductive SectionKind
  | requirements
  | types
  | constants
  | predicates
  | functions
  | action
  | durativeAction
deriving DecidableEq, Repr

/-- The kind of section that a folded keyword starts. -/
def SectionKind.ofKey? : String → Option SectionKind
  | ":requirements" => some .requirements
  | ":types" => some .types
  | ":constants" => some .constants
  | ":predicates" => some .predicates
  | ":functions" => some .functions
  | ":action" => some .action
  | ":durative-action" => some .durativeAction
  | _ => none

/-- The keywords of all sections, in words. -/
def SectionKind.listText : String :=
  ":requirements, :types, :constants, :predicates, :functions, :action, :durative-action"

/-- Reads the types of a section after its keyword.  The declarations of all such sections together
make up the hierarchy. -/
def typesBody : AssembleM Unit := do
  let listed ← Reader.typedList .name false
  declare fun declared =>
    { declared with typeDeclarations := declared.typeDeclarations ++ listed }
  let types ← check (TypeHierarchy.ofDeclarations (← declared?).typeDeclarations)
  declare fun declared => { declared with types := types }
  let _ ← Reader.closeParen

/-- Reads the constants of a section after its keyword. -/
def constantsBody : AssembleM Unit := do
  let listed ← Reader.typedList .name true
  declare fun declared => { declared with constants := declared.constants ++ listed }
  let _ ← Reader.closeParen

/-- Reads a section of the given kind from its keyword through its closing parenthesis. -/
def sectionOf : SectionKind → AssembleM Unit
  | .requirements => do
    let flags ← Reader.requirements
    declare fun declared =>
      { declared with requirements := Text.union declared.requirements flags }
  | .types => do
    let _ ← Reader.advance
    typesBody
  | .constants => do
    let _ ← Reader.advance
    constantsBody
  | .predicates => do
    let _ ← Reader.advance
    repeatWhile (Reader.hasKind .openParen) predicate
    let _ ← Reader.expect .closeParen "'(' or ')'"
  | .functions => do
    let token ← Reader.advance
    Reader.require token Feature.functions
    functionList
    let _ ← Reader.expect .closeParen "'(', '-', or ')'"
  | .action => do addAction (← Reader.action)
  | .durativeAction => do addAction (← Reader.durativeAction)

/-- Reads a section from its keyword through its closing parenthesis. -/
def anySection : AssembleM Unit := do
  let token ← Reader.current
  if Reader.isKeyword token then
    match SectionKind.ofKey? token.key with
    | some kind => sectionOf kind
    | none =>
      Reader.failHere ("a domain section keyword (" ++ SectionKind.listText ++ ")") .mismatch
  else
    Reader.failHere "a domain section keyword" .mismatch

/-- Reads a domain and what follows it.  The types have to form a valid hierarchy, and the
declarations may use no other types. -/
def domain : AssembleM Domain := do
  let name ← Reader.header "domain" "a domain name"
  Reader.note (.domainStarted name)
  repeatWhile (Reader.hasKind .openParen) do
    let _ ← Reader.openParen
    anySection
  let _ ← Reader.expect .closeParen "'(' opening a section or ')'"
  Reader.endOfDocument
  let types ← check (TypeHierarchy.ofDeclarationsValid (← declared?).typeDeclarations)
  declare fun declared => { declared with types := types }
  let domain := (← declared?).toDomain name
  check (Check.domainTypes domain)
  Reader.note (.domainRead name domain.actions.length)
  return domain

end Assembly

/-- Reads the domain that a text defines. -/
def Domain.parse (settings : Settings) (text : String)
    (capacity : Nat := Reader.documentCapacity) : Report Domain :=
  match Cursor.ofText text with
  | .error error => ⟨.error (.lexical error), []⟩
  | .ok cursor =>
    match Assembly.domain (.document settings true capacity) (Assembly.ofCursor cursor) with
    | .ok domain assembly => ⟨.ok domain, assembly.log⟩
    | .error failure assembly => ⟨.error failure, assembly.log⟩

end Pddl
