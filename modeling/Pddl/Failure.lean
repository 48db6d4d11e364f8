import Pddl.Expr
import Pddl.Feature
import Pddl.Token.Scan

/-!
# Failures

A text can fail to be scanned, fail to follow the grammar, or break a rule of consistency.  Each
failure is kept as its cause; `Failure.message` words it and `Failure.location` places it.
-/

namespace Pddl

/-! ### Grammar -/

/-- Why a token does not fit the grammar. -/
inductive Cause
  | mismatch
  | unclosed (opener reason : String)
  | nestedBeyond (limit : Nat)
  | tooDeep
  | breach (breach : Breach)
  | unmatchedClose
  | strayMinus (place : String)
  | variableInGroundAtom
  | timedOutsideDurative
  | overAllInEffect
  | effectOnly (word : String)
  | conditionOnly (word : String)
  | arithmeticUndeclared
  | operandCount (op : ArithOp) (count : Nat)
  | missingDuration (action : String)
  | missingDomain (problem : String)
  | missingGoal (problem : String)
deriving DecidableEq, Repr

/-- A token that does not fit: what was expected, the token found (none at the end of the input),
and the offset of the failure. -/
structure SyntaxError where
  expected : String
  found : Option Token
  offset : Nat
  cause : Cause
deriving DecidableEq, Repr

namespace SyntaxError

/-- The failure at a token, which counts as found even at the end of the input. -/
def atToken (token : Token) (expected : String) (cause : Cause) : SyntaxError :=
  ⟨expected, some token, token.offset, cause⟩

/-- The failure at the current token; at the end of the input nothing is found. -/
def atCurrent (current : Token) (expected : String) (cause : Cause) : SyntaxError :=
  ⟨expected, if current.kind = .endOfInput then none else some current, current.offset, cause⟩

/-- The token found, as messages show it. -/
def foundText (error : SyntaxError) : String :=
  match error.found with
  | some token => "'" ++ token.text ++ "'"
  | none => "end of input"

/-- The failure in words. -/
def message (error : SyntaxError) : String :=
  match error.cause with
  | .mismatch => "Expected " ++ error.expected ++ " but found " ++ error.foundText ++ "."
  | .unclosed opener reason =>
    "Expected ')' closing `" ++ opener ++ "` but found " ++ error.foundText ++ ": " ++ reason ++ "."
  | .nestedBeyond limit => s!"Expressions are nested more than {limit} levels deep."
  | .tooDeep => "Expressions are nested too deeply to be parsed."
  | .breach breach => breach.message
  | .unmatchedClose => "Unmatched ')': the document was closed before this parenthesis."
  | .strayMinus place => s!"Unexpected '-' in {place}."
  | .variableInGroundAtom => "Ground atoms cannot contain variables."
  | .timedOutsideDurative => "Temporal qualifiers may only appear in durative actions."
  | .overAllInEffect => "Effects cannot be qualified by `over all`."
  | .effectOnly word => s!"`{word}` may only appear in effects."
  | .conditionOnly word => s!"`{word}` may only appear in conditions."
  | .arithmeticUndeclared => "Nested arithmetic requires the :numeric-fluents requirement."
  | .operandCount op count =>
    "`" ++ op.text ++ "` takes " ++ op.arityText ++ s!" but received {count}."
  | .missingDuration action => s!"Durative action '{action}' does not define a :duration."
  | .missingDomain problem => s!"Problem '{problem}' does not name its domain."
  | .missingGoal problem => s!"Problem '{problem}' does not define a goal."

end SyntaxError

/-! ### Consistency -/

/-- The two kinds of declared symbols. -/
inductive SymbolKind
  | predicate
  | function
deriving DecidableEq, Repr

/-- The kind in the middle of a sentence. -/
def SymbolKind.text : SymbolKind → String
  | .predicate => "predicate"
  | .function => "function"

/-- The kind at the start of a sentence. -/
def SymbolKind.capitalText : SymbolKind → String
  | .predicate => "Predicate"
  | .function => "Function"

/-- The part of a document in which a name is used. -/
inductive Site
  | action (name : String)
  | constants (domain : String)
  | predicate (name : String)
  | function (name : String)
  | problem (name : String)
  | initialState (problem : String)
  | goal (problem : String)
  | metric (problem : String)
deriving DecidableEq, Repr

/-- The part of a document in words. -/
def Site.text : Site → String
  | .action name => s!"action '{name}'"
  | .constants domain => s!"the constants of domain '{domain}'"
  | .predicate name => s!"predicate '{name}'"
  | .function name => s!"function '{name}'"
  | .problem name => s!"problem '{name}'"
  | .initialState name => s!"the initial state of problem '{name}'"
  | .goal name => s!"the goal of problem '{name}'"
  | .metric name => s!"the metric of problem '{name}'"

/-- A rule of consistency that a document breaks. -/
inductive Defect
  | duplicate (kind : SymbolKind) (token : Token)
  | rootWithParent
  | eitherParent (type : String) (parent : TypeSpec)
  | conflictingParents (type existing given : String)
  | undeclaredParent (type parent : String)
  | cycle (types : List String)
  | undeclaredType (type entity : String) (site : Site)
  | undeclaredReturnType (type function : String)
  | undeclaredSymbol (kind : SymbolKind) (name : String) (site : Site)
  | wrongArity (kind : SymbolKind) (atom : Atom) (arity : Nat) (site : Site)
  | unboundVariable (name : String) (site : Site)
  | unknownObject (name : String) (site : Site)
  | wrongDomain (problem expected given : String)
deriving DecidableEq, Repr

/-- The broken rule in words. -/
def Defect.message : Defect → String
  | .duplicate kind token => "Duplicate " ++ kind.text ++ " declaration '" ++ token.text ++ "'."
  | .rootWithParent => s!"The root type '{rootType}' cannot have a parent type."
  | .eitherParent type parent =>
    s!"Type '{type}' cannot have an `either` parent type: " ++ parent.text ++ "."
  | .conflictingParents type existing given =>
    s!"Type '{type}' is declared with parent '{existing}' and with parent '{given}'."
  | .undeclaredParent type parent => s!"Type '{type}' has undeclared parent type '{parent}'."
  | .cycle types =>
    "The type hierarchy contains a cycle: " ++ String.intercalate " -> " types ++ "."
  | .undeclaredType type entity site =>
    s!"Undeclared type '{type}' of {entity} in " ++ site.text ++ "."
  | .undeclaredReturnType type function =>
    s!"Undeclared return type '{type}' of function '{function}'."
  | .undeclaredSymbol kind name site =>
    "Undeclared " ++ kind.text ++ s!" '{name}' used in " ++ site.text ++ "."
  | .wrongArity kind atom arity site =>
    kind.capitalText ++ " '" ++ atom.name ++ s!"' takes {arity} argument(s) but is given " ++
      toString atom.args.length ++ " in " ++ site.text ++ ": " ++ atom.text ++ "."
  | .unboundVariable name site => s!"Unbound variable '{name}' used in " ++ site.text ++ "."
  | .unknownObject name site => s!"Unknown object '{name}' used in " ++ site.text ++ "."
  | .wrongDomain problem expected given =>
    s!"Problem '{problem}' is defined for domain '{expected}' but was checked against " ++
      s!"domain '{given}'."

/-! ### All failures -/

/-- Why a text yields no document. -/
inductive Failure
  | lexical (error : LexError)
  | grammar (error : SyntaxError)
  | invalid (defect : Defect)
  /-- An integer has more digits than can be converted. -/
  | integerTooLong
  /-- An integer time is too large for a finite double. -/
  | timeOutOfRange
deriving DecidableEq, Repr

/-- Where a failure is, as far as that is known. -/
structure Location where
  offset : Option Nat
  line : Option Int
  column : Option Int
deriving DecidableEq, Repr

namespace Location

/-- Nothing is known. -/
def unknown : Location := ⟨none, none, none⟩

/-- The location of a token. -/
def ofToken (token : Token) : Location :=
  ⟨some token.offset, some token.line, some token.column⟩

/-- The location of a character. -/
def ofPlace (place : Place) : Location :=
  ⟨some place.offset, some place.line, some place.column⟩

end Location

namespace Failure

/-- Where the failure is. -/
def location : Failure → Location
  | .lexical error => Location.ofPlace error.place
  | .grammar error =>
    match error.found with
    | some token => Location.ofToken token
    | none => ⟨some error.offset, none, none⟩
  | .invalid (.duplicate _ token) => Location.ofToken token
  | .invalid _ => Location.unknown
  | .integerTooLong | .timeOutOfRange => Location.unknown

/-- The failure in words, without its location. -/
def message : Failure → String
  | .lexical error => error.message
  | .grammar error => error.message
  | .invalid defect => defect.message
  | .integerTooLong => s!"An integer has more than {Number.maxDigits} digits."
  | .timeOutOfRange => "A time is too large for a finite number."

/-- The failure in words, after its line and column when they are known. -/
def text (failure : Failure) : String :=
  match failure.location.line, failure.location.column with
  | some line, some column => s!"line {line}, column {column}: " ++ failure.message
  | _, _ => failure.message

end Failure

end Pddl
