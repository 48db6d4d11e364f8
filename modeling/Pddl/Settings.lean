/-!
# Settings

How strictly a document is read.  The defaults are lenient.
-/

namespace Pddl

/-- The options of reading.  `maxNestingDepth` limits how deep expressions may be nested. -/
structure Settings where
  strictRequirements : Bool
  requireEndOfInput : Bool
  maxNestingDepth : Option Nat
deriving DecidableEq, Repr

namespace Settings

/-- Unknown flags and undeclared features are reported and accepted, input after the document is
skipped, and expressions may be nested to any depth. -/
def lenient : Settings where
  strictRequirements := false
  requireEndOfInput := false
  maxNestingDepth := none

end Settings

end Pddl
