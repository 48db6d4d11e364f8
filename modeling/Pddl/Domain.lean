import Pddl.Expr
import Pddl.TypeHierarchy

/-!
# Domains

A domain declares types, constants, predicates and functions, and the actions that use them.
-/

namespace Pddl

/-- A declared predicate. -/
structure Predicate where
  name : String
  params : List TypedName
deriving DecidableEq, Repr

/-- The declaration in words. -/
def Predicate.text (predicate : Predicate) : String :=
  predicate.name ++ "(" ++ TypedName.listText predicate.params ++ ")"

/-- A declared function, which has a type of its own. -/
structure Function where
  name : String
  params : List TypedName
  returns : String
deriving DecidableEq, Repr

/-- The declaration in words. -/
def Function.text (function : Function) : String :=
  function.name ++ "(" ++ TypedName.listText function.params ++ ") - " ++ function.returns

/-- An action.  It is durative if it has a constraint on its duration. -/
structure Action where
  name : String
  params : List TypedName
  duration : Option Expr
  condition : Expr
  effect : Expr

namespace Action

/-- Does the action take time? -/
def isDurative (action : Action) : Bool :=
  action.duration.isSome

/-- The expressions of an action: its condition, its effect and, if it has one, its duration. -/
def bodies (action : Action) : List Expr :=
  action.condition :: action.effect :: action.duration.toList

end Action

/-- A domain.  Its requirements are the folded flags that it lists. -/
structure Domain where
  name : String
  requirements : List String
  types : TypeHierarchy
  constants : List TypedName
  predicates : List Predicate
  functions : List Function
  actions : List Action

/-- The declared predicate of a name, up to case. -/
def findPredicate? (predicates : List Predicate) (name : String) : Option Predicate :=
  predicates.find? fun predicate => fold predicate.name = fold name

/-- The declared function of a name, up to case. -/
def findFunction? (functions : List Function) (name : String) : Option Function :=
  functions.find? fun function => fold function.name = fold name

namespace Domain

/-- A domain has no action of the name that is asked for. -/
structure UnknownAction where
  domain : String
  action : String
deriving DecidableEq, Repr

/-- The missing action in words. -/
def UnknownAction.message (error : UnknownAction) : String :=
  "Domain '" ++ error.domain ++ "' has no action named '" ++ error.action ++ "'."

/-- The first action whose name has the fold of the name that is asked for, which can be any
text. -/
def action [Folding] (domain : Domain) (name : String) : Except UnknownAction Action :=
  match domain.actions.find? fun action => Folding.lower action.name = Folding.lower name with
  | some action => .ok action
  | none => .error ⟨domain.name, name⟩

end Domain

end Pddl
