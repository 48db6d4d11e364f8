import Pddl.Decimal.Fixed

/-!
# Plans

A plan is a list of ground actions, each at a point in time and perhaps with a duration.
-/

namespace Pddl

/-- A step of a plan. -/
structure PlanStep where
  time : Float
  action : String
  args : List String
  duration : Option Float

namespace PlanStep

/-- Times are shown with three places. -/
def timeText (time : Float) : String :=
  Decimal.fixed 3 time

/-- The action with its arguments. -/
def actionText (step : PlanStep) : String :=
  String.intercalate " " (step.action :: step.args)

/-- The step as a line of a plan. -/
def text (step : PlanStep) : String :=
  let start := timeText step.time ++ ": (" ++ step.actionText ++ ")"
  match step.duration with
  | none => start
  | some duration => start ++ " [" ++ timeText duration ++ "]"

/-- When the step ends.  Without a duration, or with one of zero, zero is added to its time. -/
def endTime (step : PlanStep) : Float :=
  match step.duration with
  | none => step.time + 0.0
  | some duration => step.time + (if duration == 0.0 then 0.0 else duration)

end PlanStep

/-- A plan, as the list of its steps. -/
structure Plan where
  steps : List PlanStep

/-- When the last step of the plan ends: the first of the greatest end times, and zero for the
empty plan. -/
def Plan.makespan (plan : Plan) : Float :=
  match plan.steps.map PlanStep.endTime with
  | [] => 0.0
  | first :: others =>
    others.foldl (fun latest time => if time > latest then time else latest) first

end Pddl
