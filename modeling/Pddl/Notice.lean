import Pddl.Feature
import Pddl.Text.Order
import Pddl.Text.Quoted

/-!
# Notices

While it is read, a document leaves notices: warnings about breaches of its requirements, and
records of what was read.
-/

namespace Pddl

/-- How important a notice is. -/
inductive Level
  | debug
  | warning
deriving DecidableEq, Repr

/-- The level in front of a notice. -/
def Level.text : Level → String
  | .debug => "DEBUG"
  | .warning => "WARNING"

/-- Something worth telling about a document. -/
inductive Notice
  | warning (line : Int) (breach : Breach)
  | requirementsRead (flags : List String)
  | trailingInput (line : Int)
  | domainStarted (name : String)
  | actionRead (name : String)
  | domainRead (name : String) (actions : Nat)
  | problemStarted (name : String)
  | planRead (steps : Nat)
deriving DecidableEq, Repr

namespace Notice

/-- Breaches are warnings. -/
def level : Notice → Level
  | .warning _ _ => .warning
  | _ => .debug

/-- The notice in words. -/
def message : Notice → String
  | .warning line breach => s!"Line {line}: " ++ breach.message
  | .requirementsRead flags => "Parsed requirements: " ++ Text.quotedList (Text.sorted flags)
  | .trailingInput line => s!"Ignoring trailing input starting on line {line}."
  | .domainStarted name => s!"Parsing domain '{name}'."
  | .actionRead name => s!"Parsed action '{name}'."
  | .domainRead name actions => s!"Parsed domain '{name}' with {actions} action(s)."
  | .problemStarted name => s!"Parsing problem '{name}'."
  | .planRead steps => s!"Parsed a plan with {steps} step(s)."

/-- The notice on a line of its own. -/
def text (notice : Notice) : String :=
  notice.level.text ++ ": " ++ notice.message

end Notice

end Pddl
