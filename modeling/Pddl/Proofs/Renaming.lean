import Pddl.Proofs.Grammar
import Pddl.Reader.Domain
import Pddl.Reader.Plan
import Pddl.Reader.Problem

/-!
# Renaming

A document is renamed by a change of all the names that are written in it: of types, variables,
objects, predicates, functions, actions, and of the document itself.  Keys and flags are no such
names, since they are folded when they are read.  Putting documents together commutes with renaming
(`Action.ofFields_rename`, `ProblemDraft.ofSections_rename`), and so do the traversals of
expressions (`Expr.walk_rename`, `Expr.references_rename`).
-/

namespace Pddl

variable {f : String → String}

/-! ### Types and expressions -/

/-- The type with its names changed. -/
def TypeSpec.rename (f : String → String) : TypeSpec → TypeSpec
  | .named name => .named (f name)
  | .either options => .either (options.map f)

/-- The names of a renamed type. -/
@[simp] lemma TypeSpec.options_rename (type : TypeSpec) :
    (type.rename f).options = type.options.map f := by
  cases type <;> rfl

/-- The typed name with its names changed. -/
def TypedName.rename (f : String → String) (typed : TypedName) : TypedName :=
  ⟨f typed.name, typed.type.rename f⟩

/-- The atom with its names changed. -/
def Atom.rename (f : String → String) (atom : Atom) : Atom :=
  ⟨f atom.name, atom.args.map f⟩

/-- The name of a renamed atom. -/
@[simp] lemma Atom.name_rename (atom : Atom) : (atom.rename f).name = f atom.name := rfl

/-- The arguments of a renamed atom. -/
@[simp] lemma Atom.args_rename (atom : Atom) : (atom.rename f).args = atom.args.map f := rfl

namespace Expr

mutual

/-- The expression with its names changed. -/
def rename (f : String → String) : Expr → Expr
  | .atom formula => .atom (formula.rename f)
  | .term name => .term (f name)
  | .number value => .number value
  | .not operand => .not (operand.rename f)
  | .and operands => .and (renameAll f operands)
  | .or operands => .or (renameAll f operands)
  | .timed time operand => .timed time (operand.rename f)
  | .compare op left right => .compare op (left.rename f) (right.rename f)
  | .arith op operands => .arith op (renameAll f operands)
  | .update op fluent value => .update op (fluent.rename f) (value.rename f)
  | .quantified quantifier vars operand =>
    .quantified quantifier (vars.map (TypedName.rename f)) (operand.rename f)
  | .when condition effect => .when (condition.rename f) (effect.rename f)

/-- Several expressions with their names changed. -/
def renameAll (f : String → String) : List Expr → List Expr
  | [] => []
  | e :: es => e.rename f :: renameAll f es

end

/-- Several expressions are renamed one by one. -/
@[simp] lemma renameAll_eq_map (es : List Expr) : renameAll f es = es.map (rename f) := by
  induction es with
  | nil => rfl
  | cons e rest ih => rw [renameAll, ih, List.map_cons]

/-- A renamed expression is a term if the expression is one. -/
@[simp] lemma isTerm_rename (e : Expr) : (e.rename f).isTerm = e.isTerm := by
  cases e <;> rfl

/-- The direct parts are renamed. -/
@[simp] lemma children_rename (e : Expr) : (e.rename f).children = e.children.map (rename f) := by
  cases e <;> simp [rename, children]

/-- All parts are renamed. -/
lemma walk_rename (e : Expr) : (e.rename f).walk = e.walk.map (rename f) := by
  have hfrom : ∀ es : List Expr, walkFrom (es.map (rename f)) = (walkFrom es).map (rename f) := by
    intro es
    fun_induction walkFrom es with
    | case1 => rw [List.map_nil, walkFrom]
    | case2 e waiting ih =>
      rw [List.map_cons, walkFrom, children_rename, ← List.map_append, ih, List.map_cons]
  exact hfrom [e]

mutual

/-- The atoms are renamed and keep their positions. -/
lemma references_rename (numeric : Bool) : ∀ e : Expr,
    (e.rename f).references numeric =
      (e.references numeric).map fun reference => (reference.1.rename f, reference.2)
  | .atom _ | .term _ | .number _ => rfl
  | .not operand | .timed _ operand | .quantified _ _ operand => references_rename numeric operand
  | .and operands | .or operands => referencesAll_rename numeric operands
  | .arith _ operands => referencesAll_rename true operands
  | .compare _ left right => by
    simp only [rename, references, List.map_append, references_rename true left,
      references_rename true right]
  | .update _ fluent value => by
    simp only [rename, references, List.map_cons, references_rename true value]
  | .when condition effect => by
    simp only [rename, references, List.map_append, references_rename numeric condition,
      references_rename numeric effect]

/-- The atoms of several expressions are renamed and keep their positions. -/
lemma referencesAll_rename (numeric : Bool) : ∀ es : List Expr,
    referencesAll numeric (renameAll f es) =
      (referencesAll numeric es).map fun reference => (reference.1.rename f, reference.2)
  | [] => rfl
  | e :: es => by
    simp only [renameAll, referencesAll, List.map_append, references_rename numeric e,
      referencesAll_rename numeric es]

end

end Expr

/-! ### Domains -/

/-- The predicate with its names changed. -/
def Predicate.rename (f : String → String) (predicate : Predicate) : Predicate :=
  ⟨f predicate.name, predicate.params.map (TypedName.rename f)⟩

/-- The function with its names changed. -/
def Function.rename (f : String → String) (function : Function) : Function :=
  ⟨f function.name, function.params.map (TypedName.rename f), f function.returns⟩

namespace Action

/-- The action with its names changed. -/
def rename (f : String → String) (action : Action) : Action where
  name := f action.name
  params := action.params.map (TypedName.rename f)
  duration := action.duration.map (Expr.rename f)
  condition := action.condition.rename f
  effect := action.effect.rename f

/-- A renamed action takes time if the action does. -/
@[simp] lemma isDurative_rename (action : Action) :
    (action.rename f).isDurative = action.isDurative := by
  simp [isDurative, rename]

/-- The expressions of an action are renamed. -/
@[simp] lemma bodies_rename (action : Action) :
    (action.rename f).bodies = action.bodies.map (Expr.rename f) := by
  obtain ⟨name, params, duration, condition, effect⟩ := action
  cases duration <;> rfl

end Action

/-- The field with its names changed. -/
def ActionField.rename (f : String → String) : ActionField → ActionField
  | .params listed => .params (listed.map (TypedName.rename f))
  | .duration body => .duration (body.rename f)
  | .condition body => .condition (body.rename f)
  | .effect body => .effect (body.rename f)

/-- An action of renamed fields is the renamed action of the fields. -/
lemma Action.ofFields_rename (name : String) (fields : List ActionField) :
    ofFields (f name) (fields.map (ActionField.rename f)) = (ofFields name fields).rename f := by
  have hfold : ∀ (fields : List ActionField) (action : Action),
      (fields.map (ActionField.rename f)).foldl withField (action.rename f) =
        (fields.foldl withField action).rename f := by
    intro fields
    induction fields with
    | nil => exact fun _ => rfl
    | cons field rest ih =>
      intro action
      have hfield : (action.rename f).withField (field.rename f) =
          (action.withField field).rename f := by
        cases field <;> rfl
      rw [List.map_cons, List.foldl_cons, hfield, ih, List.foldl_cons]
  exact hfold fields (bare name)

/-- The table with its values changed. -/
def Table.mapValues {α : Type} (f : α → α) (table : Table α) : Table α :=
  table.map fun entry => (entry.1, f entry.2)

/-- The hierarchy with the spellings of its keys changed. -/
def TypeHierarchy.rename (f : String → String) (types : TypeHierarchy) : TypeHierarchy :=
  ⟨types.parents, types.spellings.mapValues f⟩

/-- The domain with its names changed. -/
def Domain.rename (f : String → String) (domain : Domain) : Domain where
  name := f domain.name
  requirements := domain.requirements
  types := domain.types.rename f
  constants := domain.constants.map (TypedName.rename f)
  predicates := domain.predicates.map (Predicate.rename f)
  functions := domain.functions.map (Function.rename f)
  actions := domain.actions.map (Action.rename f)

/-- The declarations with their names changed. -/
def Declarations.rename (f : String → String) (declared : Declarations) : Declarations where
  requirements := declared.requirements
  typeDeclarations := declared.typeDeclarations.map (TypedName.rename f)
  types := declared.types.rename f
  constants := declared.constants.map (TypedName.rename f)
  predicates := declared.predicates.map (Predicate.rename f)
  functions := declared.functions.map (Function.rename f)
  actions := declared.actions.map (Action.rename f)

/-! ### Problems and plans -/

/-- The metric with its names changed. -/
def Metric.rename (f : String → String) (metric : Metric) : Metric :=
  ⟨metric.direction, metric.expression.rename f⟩

/-- The problem with its names changed. -/
def Problem.rename (f : String → String) (problem : Problem) : Problem where
  name := f problem.name
  domain := f problem.domain
  requirements := problem.requirements
  objects := problem.objects.map (TypedName.rename f)
  init := problem.init.map (Expr.rename f)
  goal := problem.goal.rename f
  metric := problem.metric.map (Metric.rename f)

/-- The section with its names changed. -/
def ProblemSection.rename (f : String → String) : ProblemSection → ProblemSection
  | .domain name => .domain (f name)
  | .requirements flags => .requirements flags
  | .objects listed => .objects (listed.map (TypedName.rename f))
  | .init facts => .init (facts.map (Expr.rename f))
  | .goal body => .goal (body.rename f)
  | .metric measure => .metric (measure.rename f)

namespace ProblemDraft

/-- The draft with its names changed. -/
def rename (f : String → String) (draft : ProblemDraft) : ProblemDraft where
  domain := draft.domain.map f
  requirements := draft.requirements
  objects := draft.objects.map (TypedName.rename f)
  init := draft.init.map (Expr.rename f)
  goal := draft.goal.map (Expr.rename f)
  metric := draft.metric.map (Metric.rename f)

/-- Renamed sections add up to the renamed draft. -/
lemma ofSections_rename (sections : List ProblemSection) :
    ofSections (sections.map (ProblemSection.rename f)) = (ofSections sections).rename f := by
  have hfold : ∀ (sections : List ProblemSection) (draft : ProblemDraft),
      (sections.map (ProblemSection.rename f)).foldl add (draft.rename f) =
        (sections.foldl add draft).rename f := by
    intro sections
    induction sections with
    | nil => exact fun _ => rfl
    | cons part rest ih =>
      intro draft
      have hpart : (draft.rename f).add (part.rename f) = (draft.add part).rename f := by
        cases part <;> simp [add, rename, ProblemSection.rename]
      rw [List.map_cons, List.foldl_cons, hpart, ih, List.foldl_cons]
  exact hfold sections empty

end ProblemDraft

/-- The step with its names changed. -/
def PlanStep.rename (f : String → String) (step : PlanStep) : PlanStep :=
  { step with action := f step.action, args := step.args.map f }

/-- The plan with its names changed. -/
def Plan.rename (f : String → String) (plan : Plan) : Plan :=
  ⟨plan.steps.map (PlanStep.rename f)⟩

/-! ### Renaming to the same names -/

/-- A type with the same names. -/
@[simp] lemma TypeSpec.rename_id (type : TypeSpec) : type.rename id = type := by
  cases type <;> simp [rename]

/-- A typed name with the same names. -/
@[simp] lemma TypedName.rename_id (typed : TypedName) : typed.rename id = typed := by
  simp [rename]

/-- An atom with the same names. -/
@[simp] lemma Atom.rename_id (atom : Atom) : atom.rename id = atom := by
  simp [rename]

namespace Expr

mutual

/-- An expression with the same names. -/
@[simp] lemma rename_id : ∀ e : Expr, e.rename id = e
  | .atom _ | .term _ | .number _ => by simp [rename]
  | .not operand | .timed _ operand => by rw [rename, rename_id operand]
  | .and operands | .or operands | .arith _ operands => by rw [rename, renameAll_id operands]
  | .compare _ left right => by rw [rename, rename_id left, rename_id right]
  | .update _ fluent value => by rw [rename, Atom.rename_id, rename_id value]
  | .quantified _ vars operand => by
    rw [rename, List.map_id'' TypedName.rename_id, rename_id operand]
  | .when condition effect => by rw [rename, rename_id condition, rename_id effect]

/-- Several expressions with the same names. -/
@[simp] lemma renameAll_id : ∀ es : List Expr, renameAll id es = es
  | [] => rfl
  | e :: es => by rw [renameAll, rename_id e, renameAll_id es]

end

end Expr

/-- A predicate with the same names. -/
lemma Predicate.rename_id (predicate : Predicate) : predicate.rename id = predicate := by
  simp [rename, List.map_id'' TypedName.rename_id]

/-- A function with the same names. -/
lemma Function.rename_id (function : Function) : function.rename id = function := by
  simp [rename, List.map_id'' TypedName.rename_id]

/-- An action with the same names. -/
lemma Action.rename_id (action : Action) : action.rename id = action := by
  obtain ⟨name, params, duration, condition, effect⟩ := action
  cases duration <;> simp [rename, List.map_id'' TypedName.rename_id]

/-- A hierarchy with the same spellings. -/
lemma TypeHierarchy.rename_id (types : TypeHierarchy) : types.rename id = types := by
  simp [rename, Table.mapValues]

/-- A domain with the same names. -/
lemma Domain.rename_id (domain : Domain) : domain.rename id = domain := by
  simp only [rename, id_eq, TypeHierarchy.rename_id, List.map_id'' TypedName.rename_id,
    List.map_id'' Predicate.rename_id, List.map_id'' Function.rename_id,
    List.map_id'' Action.rename_id]

/-- A problem with the same names. -/
lemma Problem.rename_id (problem : Problem) : problem.rename id = problem := by
  have hmetric : ∀ metric : Metric, metric.rename id = metric := by
    simp [Metric.rename]
  obtain ⟨name, domain, requirements, objects, init, goal, metric⟩ := problem
  cases metric <;>
    simp [rename, hmetric, List.map_id'' Expr.rename_id, List.map_id'' TypedName.rename_id]

/-- A plan with the same names. -/
lemma Plan.rename_id (plan : Plan) : plan.rename id = plan := by
  have hstep : ∀ step : PlanStep, step.rename id = step := by
    simp [PlanStep.rename]
  simp [rename, List.map_id'' hstep]

/-! ### Failures and notices -/

/-- The breach with the written flag changed. -/
def Breach.rename (f : String → String) : Breach → Breach
  | .undeclaredFeature feature => .undeclaredFeature feature
  | .unknownFlag flag => .unknownFlag (f flag)

/-- What would have been in order does not depend on names. -/
@[simp] lemma Breach.expected_rename (breach : Breach) :
    (breach.rename f).expected = breach.expected := by
  cases breach <;> rfl

/-- The cause with its names changed. -/
def Cause.rename (f : String → String) : Cause → Cause
  | .unclosed opener reason => .unclosed (f opener) reason
  | .breach found => .breach (found.rename f)
  | .effectOnly word => .effectOnly (f word)
  | .conditionOnly word => .conditionOnly (f word)
  | .missingDuration action => .missingDuration (f action)
  | .missingDomain problem => .missingDomain (f problem)
  | .missingGoal problem => .missingGoal (f problem)
  | cause => cause

/-- The part of a document with its name changed. -/
def Site.rename (f : String → String) : Site → Site
  | .action name => .action (f name)
  | .constants name => .constants (f name)
  | .predicate name => .predicate (f name)
  | .function name => .function (f name)
  | .problem name => .problem (f name)
  | .initialState name => .initialState (f name)
  | .goal name => .goal (f name)
  | .metric name => .metric (f name)

/-- A part of a document with the same name. -/
@[simp] lemma Site.rename_id (site : Site) : site.rename id = site := by
  cases site <;> rfl

/-- A breach with the same flag. -/
@[simp] lemma Breach.rename_id (breach : Breach) : breach.rename id = breach := by
  cases breach <;> rfl

/-- A cause with the same names. -/
@[simp] lemma Cause.rename_id (cause : Cause) : cause.rename id = cause := by
  cases cause <;> simp [rename]

end Pddl
