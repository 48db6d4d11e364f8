import Pddl.Check.Conformance
import Pddl.Proofs.Scoping

/-!
# Problems that pass against their domain

A problem that passes the check against a domain has objects of declared types only, and its atoms
are about known objects.  What stands outside of atoms is not looked at: terms and the types of
quantified variables can be replaced by anything without a change of the verdict
(`problemAgainst_knows_arguments`).  So a problem can pass whose goal uses a type and an object that
nobody declares (`exists_unknown_names`).
-/

namespace Pddl

/-! ### Types of domains that are read -/

namespace Domain

/-- The types of a domain that is read are the valid hierarchy of its declarations. -/
lemma exists_declarations_of_parse {settings : Settings} {text : String} {capacity : Nat}
    {domain : Domain} (h : (parse settings text capacity).result = .ok domain) :
    ∃ declarations, TypeHierarchy.ofDeclarationsValid declarations = .ok domain.types := by
  obtain ⟨cursor, a', -, hrun⟩ := parse_eq_ok.mp h
  simp only [Assembly.domain_eq, Reader.bind_eq_ok] at hrun
  obtain ⟨name, a₁, -, _, a₂, -, _, a₃, -, hconclude⟩ := hrun
  obtain ⟨types, htypes, rfl, -⟩ := Assembly.conclude_eq_ok.mp hconclude
  exact ⟨_, htypes⟩

/-- A type that is found in a domain that is read is the root or declared. -/
lemma knows_of_contains {settings : Settings} {text : String} {capacity : Nat} {domain : Domain}
    (h : (parse settings text capacity).result = .ok domain) {type : String}
    (htype : domain.types.contains type = true) : domain.types.Knows type := by
  obtain ⟨declarations, hdeclarations⟩ := exists_declarations_of_parse h
  obtain ⟨htypes, htree⟩ := TypeHierarchy.ofDeclarationsValid_eq_ok hdeclarations
  exact TypeHierarchy.knows_of_contains htypes htree htype

end Domain

/-! ### Names of a problem -/

namespace Problem

/-- The atom occurs in the initial state, the goal or the metric of the problem.  All positions of a
metric are numeric. -/
inductive HasAtom (problem : Problem) : Atom → Bool → Prop
  | init {fact : Expr} {atom : Atom} {numeric : Bool} : fact ∈ problem.init →
      fact.HasAtom atom numeric → HasAtom problem atom numeric
  | goal {atom : Atom} {numeric : Bool} : problem.goal.HasAtom atom numeric →
      HasAtom problem atom numeric
  | metric {metric : Metric} {atom : Atom} {numeric : Bool} : problem.metric = some metric →
      metric.expression.HasAtom atom numeric → HasAtom problem atom true

/-- The name is that of an object of the problem or of a constant of the domain. -/
def KnowsObject (problem : Problem) (domain : Domain) (name : String) : Prop :=
  (∃ object ∈ problem.objects, fold object.name = fold name) ∨
    ∃ constant ∈ domain.constants, fold constant.name = fold name

/-- The keys of objects are those of known ones. -/
lemma mem_objectKeys {problem : Problem} {domain : Domain} {name : String} :
    fold name ∈ Check.objectKeys domain problem ↔ problem.KnowsObject domain name := by
  rw [Check.objectKeys, List.map_append, List.mem_append, List.mem_map, List.mem_map]
  exact or_comm

/-- The atoms of a problem are listed for its parts. -/
lemma HasAtom.mem_references {problem : Problem} {atom : Atom} {numeric : Bool}
    (h : problem.HasAtom atom numeric) :
    ∃ part ∈ Check.problemParts problem, (atom, numeric) ∈ part.2.2.references part.2.1 := by
  unfold Check.problemParts
  cases h with
  | @init fact _ _ hfact hatom =>
    exact ⟨_, List.mem_append_left _ (List.mem_map_of_mem hfact), by
      simpa using hatom.mem_references false⟩
  | goal hatom =>
    exact ⟨_, List.mem_append_right _ List.mem_cons_self, by
      simpa using hatom.mem_references false⟩
  | @metric metric _ _ hmetric hatom =>
    refine ⟨(.metric problem.name, true, metric.expression), ?_, by
      simpa using hatom.mem_references true⟩
    rw [hmetric]
    exact List.mem_append_right _ (List.mem_cons_of_mem _ List.mem_cons_self)

/-- The problem with other terms, and other types of quantified variables, in its expressions. -/
def recast (term : String → String) (type : TypeSpec → TypeSpec) (problem : Problem) : Problem :=
  { problem with
    init := problem.init.map (Expr.recast term type)
    goal := problem.goal.recast term type
    metric := problem.metric.map fun metric =>
      ⟨metric.direction, metric.expression.recast term type⟩ }

/-- The parts of a problem are recast one by one and keep their places. -/
lemma parts_recast (term : String → String) (type : TypeSpec → TypeSpec) (problem : Problem) :
    Check.problemParts (problem.recast term type) =
      (Check.problemParts problem).map fun part =>
        (part.1, part.2.1, part.2.2.recast term type) := by
  obtain ⟨name, domain, requirements, objects, init, goal, metric⟩ := problem
  cases metric <;> simp [Check.problemParts, recast, Function.comp_def]

end Problem

/-! ### The check -/

namespace Check

/-- The check of a problem compares the domains first, and looks at the objects and the atoms of the
problem only if they are the same. -/
lemma problemAgainst_eq (domain : Domain) (problem : Problem) :
    problemAgainst domain problem =
      if fold problem.domain = fold domain.name then do
        declaredTypes domain.types (.problem problem.name) problem.objects
        each (fun part => each (problemReference domain (objectKeys domain problem) part.1)
          (part.2.2.references part.2.1)) (problemParts problem)
      else .error (.wrongDomain problem.name problem.domain domain.name) := by
  unfold problemAgainst
  rw [ite_not]
  rfl

/-- The check of a problem succeeds exactly when it is made for the domain, the types of its objects
are in the hierarchy and each of its atoms passes. -/
lemma problemAgainst_eq_ok {domain : Domain} {problem : Problem} :
    problemAgainst domain problem = .ok () ↔
      fold problem.domain = fold domain.name ∧
        (∀ object ∈ problem.objects, ∀ type ∈ object.type.options,
          domain.types.contains type = true) ∧
        ∀ part ∈ problemParts problem, ∀ reference ∈ part.2.2.references part.2.1,
          problemReference domain (objectKeys domain problem) part.1 reference = .ok () := by
  rw [problemAgainst_eq]
  split_ifs with hname
  · simp only [bind_eq_ok, each_eq_ok, hname, true_and]
    constructor
    · rintro ⟨_, htypes, hparts⟩
      exact ⟨declaredTypes_eq_ok.mp htypes, hparts⟩
    · rintro ⟨htypes, hparts⟩
      exact ⟨(), declaredTypes_eq_ok.mpr htypes, hparts⟩
  · simp [hname]

/-- The objects of an atom are known if the atom passes, unless it is a fluent that needs no
declaration. -/
lemma knownObjects_of_problemReference {domain : Domain} {objects : List String} {site : Site}
    {atom : Atom} {numeric : Bool}
    (h : problemReference domain objects site (atom, numeric) = .ok ())
    (hdeclared : numeric = true → fold atom.name ∉ builtinFluents) :
    knownObjects objects site atom = .ok () := by
  cases numeric with
  | true =>
    have hbuiltin : builtinFluents.contains (fold atom.name) = false := by
      simpa using hdeclared rfl
    simp only [problemReference, if_true, hbuiltin, Bool.false_eq_true, if_false] at h
    cases hfind : findFunction? domain.functions atom.name with
    | none =>
      simp only [hfind] at h
      cases h
    | some function =>
      simp only [hfind] at h
      obtain ⟨_, -, hobjects⟩ := bind_eq_ok.mp h
      exact hobjects
  | false =>
    simp only [problemReference, Bool.false_eq_true, if_false] at h
    cases hfind : findPredicate? domain.predicates atom.name with
    | none =>
      simp only [hfind] at h
      cases h
    | some predicate =>
      simp only [hfind] at h
      obtain ⟨_, -, hobjects⟩ := bind_eq_ok.mp h
      exact hobjects

/-- The arguments of an atom are known objects exactly if those are that are no variables. -/
lemma knownObjects_eq_ok {objects : List String} {site : Site} {atom : Atom} :
    knownObjects objects site atom = .ok () ↔
      ∀ arg ∈ atom.args, isVariable arg = false → fold arg ∈ objects := by
  rw [knownObjects, each_eq_ok]
  refine forall₂_congr fun arg _ => ?_
  cases isVariable arg <;> simp

end Check

namespace Problem

/-- If a problem passes the check against a domain that was read, its objects have declared types,
and all objects among the arguments of its atoms are known, at any depth of its initial state, goal
and metric; only the arguments of a fluent that needs no declaration are free.  Of terms and of the
types of quantified variables the check knows nothing: the verdict stays the same, defect included,
whatever is put in their place. -/
theorem problemAgainst_knows_arguments (settings : Settings) (text : String) (capacity : Nat)
    (domain : Domain) (h : (Domain.parse settings text capacity).result = .ok domain)
    (problem : Problem) :
    (Check.problemAgainst domain problem = .ok () →
      (∀ object ∈ problem.objects, object.IsKnown domain.types) ∧
      ∀ atom numeric, problem.HasAtom atom numeric →
        (numeric = true → fold atom.name ∉ Check.builtinFluents) →
        ∀ arg ∈ atom.args, isVariable arg = false → problem.KnowsObject domain arg) ∧
    ∀ (term : String → String) (type : TypeSpec → TypeSpec),
      Check.problemAgainst domain (problem.recast term type) =
        Check.problemAgainst domain problem := by
  constructor
  · intro hpasses
    obtain ⟨-, htypes, hparts⟩ := Check.problemAgainst_eq_ok.mp hpasses
    constructor
    · intro object hobject type htype
      exact Domain.knows_of_contains h (htypes object hobject type htype)
    · intro atom numeric hatom hdeclared arg harg hobject
      obtain ⟨part, hpart, hreference⟩ := hatom.mem_references
      have hknown := Check.knownObjects_of_problemReference
        (hparts part hpart (atom, numeric) hreference) hdeclared
      exact mem_objectKeys.mp (Check.knownObjects_eq_ok.mp hknown arg harg hobject)
  · intro term type
    rw [Check.problemAgainst_eq, Check.problemAgainst_eq, parts_recast, Check.each_map_congr]
    · rfl
    · intro part _
      rw [Expr.references_recast]
      rfl

/-- A domain with a type, a constant and a predicate. -/
def depotText : String :=
  "(define (domain depot) (:types crate - thing thing) (:constants Dock - thing) " ++
    "(:predicates (at ?x ?y)))"

/-- A problem of that domain whose goal is about an object and a constant, below a quantifier. -/
def depotProblem : Problem where
  name := "stack"
  domain := "Depot"
  requirements := []
  objects := [⟨"box", .named "Crate"⟩]
  init := [.atom ⟨"at", ["box", "dock"]⟩]
  goal := .quantified .existential [.untyped "?x"] (.atom ⟨"at", ["BOX", "?x"]⟩)
  metric := none

/-- The problem passes, so the object in its goal is known, in other letters. -/
theorem problemAgainst_knows_arguments_depot :
    ∃ domain, (Domain.parse .lenient depotText).result = .ok domain ∧
      Check.problemAgainst domain depotProblem = .ok () ∧
      depotProblem.HasAtom ⟨"at", ["BOX", "?x"]⟩ false ∧ depotProblem.KnowsObject domain "BOX" := by
  have hread : (Domain.parse .lenient depotText).result.toOption.map (fun domain =>
      (Check.problemAgainst domain depotProblem).toOption) = some (some ()) := by
    decide +kernel
  obtain ⟨domain, hdomain, hpasses⟩ := Option.map_eq_some_iff.mp hread
  have hdomain := Check.toOption_eq_some.mp hdomain
  have hpasses := Check.toOption_eq_some.mp hpasses
  have hatom : depotProblem.HasAtom ⟨"at", ["BOX", "?x"]⟩ false :=
    .goal (.inside List.mem_cons_self (.self _))
  refine ⟨domain, hdomain, hpasses, hatom, ?_⟩
  exact ((problemAgainst_knows_arguments .lenient depotText _ domain hdomain depotProblem).1
    hpasses).2 _ _ hatom (by simp) _ List.mem_cons_self (by decide)

/-- A problem whose goal quantifies over a type and compares with an object that nobody declares. -/
def unknownNamesText : String :=
  "(define (problem q) (:domain d) (:goal (forall (?x - boat) (= ?x a))))"

/-- A problem can be read and pass against a domain that was read although its goal has a quantified
variable of an unknown type, and a term that is neither a variable nor known in any way. -/
theorem exists_unknown_names :
    ∃ domain problem, (Domain.parse .lenient "(define (domain d))").result = .ok domain ∧
      (Problem.parse .lenient unknownNamesText).result = .ok problem ∧
      Check.problemAgainst domain problem = .ok () ∧
      (∃ part ∈ problem.goal.walk, ∃ var ∈ part.binders, ¬ var.IsKnown domain.types) ∧
      ∃ name, Expr.term name ∈ problem.goal.walk ∧ isVariable name = false ∧
        ¬ problem.KnowsObject domain name ∧
        (∀ function ∈ domain.functions, fold function.name ≠ fold name) ∧
        fold name ∉ Check.builtinFluents := by
  have hread : (Domain.parse .lenient "(define (domain d))").result.toOption.bind (fun domain =>
      (Problem.parse .lenient unknownNamesText).result.toOption.map fun problem =>
        decide ((Check.problemAgainst domain problem).toOption = some () ∧
          problem.goal.binders = [⟨"?x", .named "boat"⟩] ∧
          problem.goal.children.map (fun part => part.children.map Expr.termName?) =
            [[some "?x", some "a"]] ∧
          Check.objectKeys domain problem = [] ∧ domain.types.parents = [] ∧
          domain.functions.isEmpty)) = some true := by
    decide +kernel
  obtain ⟨domain, hdomain, hproblem⟩ := Option.bind_eq_some_iff.mp hread
  obtain ⟨problem, hproblem, hshape⟩ := Option.map_eq_some_iff.mp hproblem
  obtain ⟨hpasses, hbinders, hterms, hobjects, htypes, hfunctions⟩ := of_decide_eq_true hshape
  obtain ⟨part, hparts, hterms⟩ := List.map_eq_singleton_iff.mp hterms
  have hterm : Expr.term "a" ∈ problem.goal.walk := by
    have hmem : Expr.term "a" ∈ part.children := by
      refine Expr.term_mem_of_termName? ?_
      rw [hterms]
      exact List.mem_cons_of_mem _ List.mem_cons_self
    refine Expr.mem_walk_of_child (by rw [hparts]; exact List.mem_cons_self) ?_
    exact Expr.mem_walk_of_child hmem (Expr.self_mem_walk _)
  refine ⟨domain, problem, Check.toOption_eq_some.mp hdomain, Check.toOption_eq_some.mp hproblem,
    Check.toOption_eq_some.mp hpasses, ⟨problem.goal, Expr.self_mem_walk _, ⟨"?x", .named "boat"⟩,
      by rw [hbinders]; exact List.mem_cons_self, ?_⟩, "a", hterm, by decide, ?_, ?_, by decide⟩
  · intro hknown
    have hboat := hknown "boat" List.mem_cons_self
    unfold TypeHierarchy.Knows at hboat
    rw [htypes] at hboat
    exact absurd hboat (by decide)
  · rw [← mem_objectKeys, hobjects]
    exact List.not_mem_nil
  · rw [List.isEmpty_iff.mp hfunctions]
    exact fun _ h => absurd h List.not_mem_nil

end Problem

end Pddl
