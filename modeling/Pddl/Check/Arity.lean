import Pddl.Check.References

/-!
# Arities and bound variables

Atoms of actions have as many arguments as their declarations have parameters, and their variables
are bound.
-/

namespace Pddl.Check

/-- Checks that an atom has `arity` arguments. -/
def arity (kind : SymbolKind) (arity : Nat) (site : Site) (atom : Atom) : Except Defect Unit :=
  if atom.args.length = arity then .ok () else .error (.wrongArity kind atom arity site)

/-- Checks the arity of an atom if it is declared. -/
def referenceArity (domain : Domain) (site : Site) (reference : Atom × Bool) :
    Except Defect Unit :=
  let (atom, numeric) := reference
  if numeric then
    match findFunction? domain.functions atom.name with
    | some function => arity .function function.params.length site atom
    | none => .ok ()
  else
    match findPredicate? domain.predicates atom.name with
    | some predicate => arity .predicate predicate.params.length site atom
    | none => .ok ()

/-- Checks that a variable is in scope. -/
def boundVariable (site : Site) (use : String × List String) : Except Defect Unit :=
  if use.1 ∈ use.2 then .ok () else .error (.unboundVariable use.1 site)

/-- The variables that are bound everywhere in an action: its parameters, and the duration of a
durative one. -/
def actionScope (action : Action) : List String :=
  action.params.map (fun param => fold param.name) ++
    (if action.isDurative then ["?duration"] else [])

/-- Checks the arities and then the variables of each expression of an action. -/
def actionArities (domain : Domain) (action : Action) : Except Defect Unit :=
  let site := Site.action action.name
  each
    (fun body => do
      each (referenceArity domain site) (body.references false)
      each (boundVariable site) (body.uses (actionScope action)))
    action.bodies

/-- Checks the arities and variables of all actions of a domain. -/
def domainArities (domain : Domain) : Except Defect Unit :=
  each (actionArities domain) domain.actions

end Pddl.Check
