import Pddl.Domain
import Pddl.Expr.Traversal

/-!
# Declared names

Every type, predicate and function that a domain uses has to be declared.
-/

namespace Pddl.Check

/-- The first error of a list of checks. -/
def each {α : Type} (check : α → Except Defect Unit) : List α → Except Defect Unit
  | [] => .ok ()
  | x :: rest => do
    check x
    each check rest

/-- Checks that the types of an entity are in the hierarchy. -/
def entityTypes (types : TypeHierarchy) (site : Site) (entity : TypedName) : Except Defect Unit :=
  each
    (fun type =>
      if types.contains type then .ok () else .error (.undeclaredType type entity.name site))
    entity.type.options

/-- Checks that the types of all entities are in the hierarchy. -/
def declaredTypes (types : TypeHierarchy) (site : Site) (entities : List TypedName) :
    Except Defect Unit :=
  each (entityTypes types site) entities

/-- Checks the types of the variables of a quantifier. -/
def quantifierTypes (types : TypeHierarchy) (site : Site) : Expr → Except Defect Unit
  | .quantified _ vars _ => declaredTypes types site vars
  | _ => .ok ()

/-- Checks that an atom names a declared function in a numeric position and a declared predicate
elsewhere. -/
def reference (predicates : List Predicate) (functions : List Function) (site : Site)
    (reference : Atom × Bool) : Except Defect Unit :=
  let (atom, numeric) := reference
  if numeric then
    match findFunction? functions atom.name with
    | some _ => .ok ()
    | none => .error (.undeclaredSymbol .function atom.name site)
  else
    match findPredicate? predicates atom.name with
    | some _ => .ok ()
    | none => .error (.undeclaredSymbol .predicate atom.name site)

/-- Checks an action against the declarations before it: the types of its parameters and, in its
condition, its effect and its duration, the types of quantified variables and then the atoms. -/
def actionReferences (types : TypeHierarchy) (predicates : List Predicate)
    (functions : List Function) (action : Action) : Except Defect Unit := do
  let site := Site.action action.name
  declaredTypes types site action.params
  each
    (fun body => do
      each (quantifierTypes types site) body.walk
      each (reference predicates functions site) (body.references false))
    action.bodies

/-- Checks the return type of a function. -/
def returnType (types : TypeHierarchy) (function : Function) : Except Defect Unit :=
  if function.returns = numberType || function.returns = rootType ||
      types.contains function.returns then
    .ok ()
  else
    .error (.undeclaredReturnType function.returns function.name)

/-- Checks the types of the constants, predicates and functions of a domain. -/
def domainTypes (domain : Domain) : Except Defect Unit := do
  declaredTypes domain.types (.constants domain.name) domain.constants
  each (fun predicate => declaredTypes domain.types (.predicate predicate.name) predicate.params)
    domain.predicates
  each
    (fun function => do
      declaredTypes domain.types (.function function.name) function.params
      returnType domain.types function)
    domain.functions

end Pddl.Check
