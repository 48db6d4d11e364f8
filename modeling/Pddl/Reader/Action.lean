import Pddl.Domain
import Pddl.Reader.Expr

/-!
# Readers of actions

An action is a name followed by fields in any order.  Of several fields of one kind the last one
counts, and a missing condition or effect is empty.
-/

namespace Pddl

/-- A field of an action. -/
inductive ActionField
  | params (params : List TypedName)
  | duration (constraint : Expr)
  | condition (condition : Expr)
  | effect (effect : Expr)

namespace Action

/-- An action without any fields. -/
def bare (name : String) : Action where
  name := name
  params := []
  duration := none
  condition := .trivial
  effect := .trivial

/-- The action with a field set. -/
def withField (action : Action) : ActionField → Action
  | .params params => { action with params := params }
  | .duration constraint => { action with duration := some constraint }
  | .condition condition => { action with condition := condition }
  | .effect effect => { action with effect := effect }

/-- The action with the given fields, of which later ones win. -/
def ofFields (name : String) (fields : List ActionField) : Action :=
  fields.foldl withField (bare name)

end Action

namespace Reader

/-- Reads the parameters of an action from their keyword on. -/
def parameters : ReadM (List TypedName) := do
  let _ ← keyword ":parameters"
  let _ ← expect .openParen "'(' opening the parameter list"
  let params ← typedList .var true
  let _ ← closeParen
  return params

/-- Reads a field of an instantaneous action. -/
def actionField : ReadM ActionField := do
  match (← current).key with
  | ":parameters" => return .params (← parameters)
  | ":precondition" =>
    let _ ← advance
    return .condition (← anyCondition false)
  | ":effect" =>
    let _ ← advance
    return .effect (← anyEffect false)
  | _ => failHere "an action field (:parameters, :precondition, or :effect)" .mismatch

/-- Reads an instantaneous action from its keyword through its closing parenthesis. -/
def action : ReadM Action := do
  let _ ← keyword ":action"
  let name ← name "an action name"
  let fields ← readWhile isKeyword actionField
  let _ ← expect .closeParen "an action field or ')'"
  return Action.ofFields name fields

/-- Reads a field of a durative action. -/
def durativeActionField : ReadM ActionField := do
  match (← current).key with
  | ":parameters" => return .params (← parameters)
  | ":duration" =>
    let _ ← advance
    return .duration (← anyDurationConstraint)
  | ":condition" =>
    let _ ← advance
    return .condition (← anyCondition true)
  | ":effect" =>
    let _ ← advance
    return .effect (← anyEffect true)
  | _ =>
    failHere "a durative action field (:parameters, :duration, :condition, or :effect)" .mismatch

/-- Reads a durative action from its keyword through its closing parenthesis.  It has to have a
duration. -/
def durativeAction : ReadM Action := do
  let opener ← keyword ":durative-action"
  require opener Feature.durativeActions
  let name ← name "an action name"
  let fields ← readWhile isKeyword durativeActionField
  let action := Action.ofFields name fields
  if action.isDurative then
    let _ ← expect .closeParen "a durative action field or ')'"
    return action
  else
    failHere "':duration'" (.missingDuration name)

end Reader

end Pddl
