import Pddl.Plan
import Pddl.Reader.Expr
import Pddl.Reader.Report

/-!
# Readers of plans

A plan lists steps such as `1.5: (move robot a b) [2]`.  A step without a time gets its position in
the plan.
-/

namespace Pddl

namespace Reader

/-- Reads a number as a point in time or a length of time. -/
def time : ReadM Float := do
  match (← number).toFloat? with
  | some time => return time
  | none => throw .timeOutOfRange

/-- Reads the time of a step and the colon after it, if the step has a time. -/
def stepTime? : ReadM (Option Float) := do
  if (← currentKind) = .number then
    let time ← time
    let _ ← expect .colon "':' following the step's timestamp"
    return some time
  else
    return none

/-- Reads the duration of a step between brackets, if the step has one. -/
def stepDuration? : ReadM (Option Float) := do
  if (← currentKind) = .openBracket then
    let _ ← advance
    let duration ← time
    let _ ← expect .closeBracket Token.Kind.closeBracket.describe
    return some duration
  else
    return none

/-- Reads the step at the given position. -/
def planStep (index : Int) : ReadM PlanStep := do
  let time ← stepTime?
  let action ← nested do
    let _ ← expect .openParen "'(' opening a plan step"
    atomicFormula true
  let duration ← stepDuration?
  return ⟨time.getD (Float.ofInt index), action.name, action.args, duration⟩

/-- Reads at most `fuel` steps, the first of which has the given position. -/
def planSteps : Nat → Nat → ReadM (List PlanStep)
  | 0, _ => return []
  | fuel + 1, index => do
    if ← atEnd then
      return []
    else
      let step ← planStep index
      let others ← planSteps fuel (index + 1)
      return step :: others

/-- Reads a plan up to the end of the input. -/
def plan : ReadM Plan := do
  let steps ← planSteps (← rounds) 0
  note (.planRead steps.length)
  return ⟨steps⟩

end Reader

/-- Reads the plan that a text lists. -/
def Plan.parse (settings : Settings) (text : String) : Report Plan :=
  Reader.run Reader.plan (.unlimited settings false) text

end Pddl
