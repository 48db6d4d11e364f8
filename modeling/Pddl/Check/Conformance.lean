import Pddl.Check.Arity
import Pddl.Problem

/-!
# A problem and its domain

A problem is made for one domain and uses the types, predicates, functions and objects that are
known there.
-/

namespace Pddl.Check

/-- The fluents that need no declaration, folded. -/
def builtinFluents : List String := ["total-time"]

/-- Checks that the arguments of an atom that are no variables are known objects. -/
def knownObjects (objects : List String) (site : Site) (atom : Atom) : Except Defect Unit :=
  each
    (fun arg =>
      if isVariable arg || objects.contains (fold arg) then .ok ()
      else .error (.unknownObject arg site))
    atom.args

/-- Checks an atom of a problem: that it is declared, its arity, and its objects. -/
def problemReference (domain : Domain) (objects : List String) (site : Site)
    (reference : Atom × Bool) : Except Defect Unit :=
  let (atom, numeric) := reference
  if numeric then
    if builtinFluents.contains (fold atom.name) then
      .ok ()
    else
      match findFunction? domain.functions atom.name with
      | none => .error (.undeclaredSymbol .function atom.name site)
      | some function => do
        arity .function function.params.length site atom
        knownObjects objects site atom
  else
    match findPredicate? domain.predicates atom.name with
    | none => .error (.undeclaredSymbol .predicate atom.name site)
    | some predicate => do
      arity .predicate predicate.params.length site atom
      knownObjects objects site atom

/-- The expressions of a problem, each with its place and whether it stands in a numeric
position. -/
def problemParts (problem : Problem) : List (Site × Bool × Expr) :=
  problem.init.map (fun literal => (Site.initialState problem.name, false, literal)) ++
    (Site.goal problem.name, false, problem.goal) ::
      (problem.metric.toList.map fun metric => (Site.metric problem.name, true, metric.expression))

/-- The folded names of the objects of a problem and the constants of its domain. -/
def objectKeys (domain : Domain) (problem : Problem) : List String :=
  (domain.constants ++ problem.objects).map fun entity => fold entity.name

/-- Checks a problem against a domain. -/
def problemAgainst (domain : Domain) (problem : Problem) : Except Defect Unit := do
  if fold problem.domain ≠ fold domain.name then
    throw (.wrongDomain problem.name problem.domain domain.name)
  declaredTypes domain.types (.problem problem.name) problem.objects
  each
    (fun (site, numeric, part) =>
      each (problemReference domain (objectKeys domain problem) site) (part.references numeric))
    (problemParts problem)

end Pddl.Check
