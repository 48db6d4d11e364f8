import Pddl.Expr

/-!
# Problems

A problem has objects, an initial state, a goal and perhaps a metric, all for a domain that it
names.
-/

namespace Pddl

/-- Which way a metric is to go. -/
inductive Direction
  | minimize
  | maximize
deriving DecidableEq, Repr

namespace Direction

/-- The direction as it is written. -/
def text : Direction → String
  | .minimize => "minimize"
  | .maximize => "maximize"

/-- The direction that a folded word spells. -/
def ofText? : String → Option Direction
  | "minimize" => some .minimize
  | "maximize" => some .maximize
  | _ => none

end Direction

/-- A numeric term that plans are measured by. -/
structure Metric where
  direction : Direction
  expression : Expr

/-- A problem. -/
structure Problem where
  name : String
  domain : String
  requirements : List String
  objects : List TypedName
  init : List Expr
  goal : Expr
  metric : Option Metric

end Pddl
