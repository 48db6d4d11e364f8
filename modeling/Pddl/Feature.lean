/-!
# Features that need a flag

A domain that uses a feature without declaring any of its flags breaches its requirements.  A
breach is a warning or, under strict settings, an error; both have the same message.
-/

namespace Pddl

/-- A feature and the flags any one of which permits it. -/
structure Feature where
  name : String
  flags : List String
deriving DecidableEq, Repr

namespace Feature

/-- Names with a type after `-`. -/
def typedLists : Feature := ⟨"Typed lists", [":typing"]⟩

/-- The connective `or`. -/
def disjunctions : Feature := ⟨"Disjunctions", [":disjunctive-preconditions"]⟩

/-- The quantifier `forall` in a condition. -/
def universalConditions : Feature := ⟨"Universal conditions", [":universal-preconditions"]⟩

/-- The quantifier `exists` in a condition. -/
def existentialConditions : Feature := ⟨"Existential conditions", [":existential-preconditions"]⟩

/-- The quantifier `forall` in an effect. -/
def universalEffects : Feature := ⟨"Universal effects", [":conditional-effects"]⟩

/-- Effects under `when`. -/
def conditionalEffects : Feature := ⟨"Conditional effects", [":conditional-effects"]⟩

/-- Time specifiers. -/
def timeSpecifiers : Feature := ⟨"Temporal qualifiers", [":durative-actions"]⟩

/-- Updates of fluents. -/
def numericEffects : Feature := ⟨"Numeric effects", [":numeric-fluents", ":action-costs"]⟩

/-- Comparisons of two terms. -/
def termEquality : Feature := ⟨"Equality between terms", [":equality"]⟩

/-- Comparisons in which a number or a fluent takes part. -/
def numericComparisons : Feature := ⟨"Numeric comparisons", [":numeric-fluents"]⟩

/-- Several duration constraints at once. -/
def durationConjunctions : Feature :=
  ⟨"Conjunctive duration constraints", [":durative-inequalities"]⟩

/-- The section of functions. -/
def functions : Feature := ⟨"Functions", [":numeric-fluents", ":action-costs"]⟩

/-- Actions that take time. -/
def durativeActions : Feature := ⟨"Durative actions", [":durative-actions"]⟩

end Feature

/-- A way to disagree with the declared requirements. -/
inductive Breach
  | undeclaredFeature (feature : Feature)
  | unknownFlag (flag : String)
deriving DecidableEq, Repr

namespace Breach

/-- The breach in words. -/
def message : Breach → String
  | .undeclaredFeature feature =>
    feature.name ++ " used without declaring " ++ String.intercalate " or " feature.flags ++ "."
  | .unknownFlag flag => s!"Unknown requirement flag '{flag}'."

/-- What would have been in order. -/
def expected : Breach → String
  | .undeclaredFeature feature => "the " ++ feature.flags.headD "" ++ " requirement"
  | .unknownFlag _ => "a recognized requirement flag"

end Breach

end Pddl
