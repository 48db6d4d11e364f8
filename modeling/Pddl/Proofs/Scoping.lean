import Pddl.Check.Arity
import Pddl.Proofs.Closedness

/-!
# Variables in scope

A variable can stand in an expression as an argument of an atom or as a term of its own, and
`HasVariable` says where, and below which quantifiers.  The check of arities also checks variables,
but it finds them through atoms: arguments are bound in every domain that passes, while terms can be
replaced by anything without a change of the verdict (`domainArities_binds_arguments`).  So a domain
can pass in which a term is not bound (`exists_unbound_term`).
-/

namespace Pddl

/-! ### Occurrences of variables -/

namespace Expr

/-- How a variable is used: as an argument of an atom, or as a term of its own. -/
inductive Usage
  | argument
  | term
deriving DecidableEq, Repr

/-- The variables that the expression binds in its direct parts. -/
def binders : Expr → List TypedName
  | .quantified _ vars _ => vars
  | _ => []

/-- The variable occurs in the expression, used as given, below quantifiers that together bind
`bound`, the outermost first. -/
inductive HasVariable : Expr → Usage → String → List TypedName → Prop
  | argument {atom : Atom} {var : String} : var ∈ atom.args → isVariable var = true →
      HasVariable (.atom atom) .argument var []
  | term {var : String} : isVariable var = true → HasVariable (.term var) .term var []
  | inside {e part : Expr} {usage : Usage} {var : String} {bound : List TypedName} :
      part ∈ e.children → HasVariable part usage var bound →
      HasVariable e usage var (e.binders ++ bound)

/-- The name of a term. -/
def termName? : Expr → Option String
  | .term name => some name
  | _ => none

/-- Only a term has the name of one. -/
lemma term_mem_of_termName? {parts : List Expr} {name : String}
    (h : some name ∈ parts.map termName?) : .term name ∈ parts := by
  obtain ⟨e, he, hname⟩ := List.mem_map.mp h
  cases e with
  | term found =>
    rw [← Option.some.inj hname]
    exact he
  | _ => cases hname

/-- The variables of several expressions are those of each of them. -/
lemma mem_usesAll {scope : List String} {es : List Expr} {use : String × List String} :
    use ∈ usesAll scope es ↔ ∃ e ∈ es, use ∈ uses scope e := by
  induction es with
  | nil => simp [usesAll]
  | cons e rest ih =>
    rw [usesAll, List.mem_append, ih]
    simp

/-- The variables of a direct part are listed, with the binders of the expression in scope. -/
lemma mem_uses_of_child {scope : List String} {e part : Expr} {use : String × List String}
    (hpart : part ∈ e.children)
    (h : use ∈ part.uses (scope ++ e.binders.map fun var => fold var.name)) :
    use ∈ e.uses scope := by
  cases e with
  | atom formula | term name | number value => cases hpart
  | quantified quantifier vars operand =>
    rw [List.mem_singleton.mp hpart] at h
    exact h
  | not operand | timed time operand =>
    rw [List.mem_singleton.mp hpart] at h
    simp only [binders, List.map_nil, List.append_nil] at h
    exact h
  | and operands | or operands | arith op operands =>
    simp only [binders, List.map_nil, List.append_nil] at h
    exact mem_usesAll.mpr ⟨part, hpart, h⟩
  | compare op left right | when left right | update op fluent value =>
    simp only [binders, List.map_nil, List.append_nil] at h
    simp only [children, List.mem_cons, List.not_mem_nil, or_false] at hpart
    rcases hpart with rfl | rfl
    · exact List.mem_append_left _ h
    · exact List.mem_append_right _ h

/-- A variable among the arguments of an atom is listed with all that is in scope there. -/
lemma HasVariable.mem_uses {e : Expr} {usage : Usage} {var : String} {bound : List TypedName}
    (h : e.HasVariable usage var bound) (husage : usage = .argument) :
    ∀ scope, (fold var, scope ++ bound.map fun binder => fold binder.name) ∈ e.uses scope := by
  -- On the way down the scope grows by what the quantifiers bind, so it is not fixed.
  induction h with
  | argument hmem hvar =>
    intro scope
    rw [List.map_nil, List.append_nil]
    exact List.mem_map.mpr ⟨_, List.mem_filter.mpr ⟨hmem, hvar⟩, rfl⟩
  | term hvar => cases husage
  | inside hpart _ ih =>
    intro scope
    refine mem_uses_of_child hpart ?_
    rw [List.map_append, ← List.append_assoc]
    exact ih husage _

/-! ### Other terms and other types -/

mutual

/-- The expression with its terms changed by `term` and the types of its quantified variables by
`type`.  Atoms stay, and so do the names of quantified variables. -/
def recast (term : String → String) (type : TypeSpec → TypeSpec) : Expr → Expr
  | .atom formula => .atom formula
  | .term name => .term (term name)
  | .number value => .number value
  | .not operand => .not (operand.recast term type)
  | .and operands => .and (recastAll term type operands)
  | .or operands => .or (recastAll term type operands)
  | .timed time operand => .timed time (operand.recast term type)
  | .compare op left right => .compare op (left.recast term type) (right.recast term type)
  | .arith op operands => .arith op (recastAll term type operands)
  | .update op fluent value => .update op fluent (value.recast term type)
  | .quantified quantifier vars operand =>
    .quantified quantifier (vars.map fun var => ⟨var.name, type var.type⟩)
      (operand.recast term type)
  | .when condition effect => .when (condition.recast term type) (effect.recast term type)

/-- Several expressions with their terms and types changed. -/
def recastAll (term : String → String) (type : TypeSpec → TypeSpec) : List Expr → List Expr
  | [] => []
  | e :: es => e.recast term type :: recastAll term type es

end

variable (term : String → String) (type : TypeSpec → TypeSpec)

mutual

/-- Other terms and types leave the atoms and their positions alone. -/
lemma references_recast (numeric : Bool) :
    ∀ e : Expr, (e.recast term type).references numeric = e.references numeric
  | .atom _ | .term _ | .number _ => rfl
  | .not operand | .timed _ operand | .quantified _ _ operand => references_recast numeric operand
  | .and operands | .or operands => referencesAll_recast numeric operands
  | .arith _ operands => referencesAll_recast true operands
  | .compare _ left right => by
    simp only [recast, references, references_recast true left, references_recast true right]
  | .update _ fluent value => by
    simp only [recast, references, references_recast true value]
  | .when condition effect => by
    simp only [recast, references, references_recast numeric condition,
      references_recast numeric effect]

/-- Other terms and types leave the atoms of several expressions alone. -/
lemma referencesAll_recast (numeric : Bool) :
    ∀ es : List Expr, referencesAll numeric (recastAll term type es) = referencesAll numeric es
  | [] => rfl
  | e :: es => by
    simp only [recastAll, referencesAll, references_recast numeric e,
      referencesAll_recast numeric es]

end

mutual

/-- Other terms and types leave the variables of atoms and their scopes alone. -/
lemma uses_recast : ∀ (scope : List String) (e : Expr),
    (e.recast term type).uses scope = e.uses scope
  | _, .atom _ | _, .term _ | _, .number _ => rfl
  | scope, .not operand | scope, .timed _ operand => uses_recast scope operand
  | scope, .quantified _ vars operand => by
    simp only [recast, uses, List.map_map, Function.comp_def, uses_recast _ operand]
  | scope, .and operands | scope, .or operands | scope, .arith _ operands =>
    usesAll_recast scope operands
  | scope, .compare _ left right => by
    simp only [recast, uses, uses_recast scope left, uses_recast scope right]
  | scope, .update _ fluent value => by
    simp only [recast, uses, uses_recast scope value]
  | scope, .when condition effect => by
    simp only [recast, uses, uses_recast scope condition, uses_recast scope effect]

/-- Other terms and types leave the variables of atoms of several expressions alone. -/
lemma usesAll_recast : ∀ (scope : List String) (es : List Expr),
    usesAll scope (recastAll term type es) = usesAll scope es
  | _, [] => rfl
  | scope, e :: es => by
    simp only [recastAll, usesAll, uses_recast scope e, usesAll_recast scope es]

end

end Expr

/-- A list of checks says the same of other values if each of them does. -/
lemma Check.each_map_congr {α β : Type} {value : α → β} {check : α → Except Defect Unit}
    {check' : β → Except Defect Unit} {xs : List α} (h : ∀ x ∈ xs, check' (value x) = check x) :
    each check' (xs.map value) = each check xs := by
  induction xs with
  | nil => rfl
  | cons x rest ih =>
    rw [List.forall_mem_cons] at h
    rw [List.map_cons, each, each, h.1, ih h.2]

/-! ### Actions -/

namespace Action

/-- The variable is a parameter of the action, one of the variables that quantifiers bind, or the
duration of a durative action. -/
def Binds (action : Action) (bound : List TypedName) (var : String) : Prop :=
  (∃ param ∈ action.params, fold param.name = fold var) ∨
    (∃ binder ∈ bound, fold binder.name = fold var) ∨
      (action.duration ≠ none ∧ fold var = "?duration")

/-- What is in scope in an action is what it binds. -/
lemma mem_scope_iff_binds {action : Action} {bound : List TypedName} {var : String} :
    fold var ∈ Check.actionScope action ++ bound.map (fun binder => fold binder.name) ↔
      action.Binds bound var := by
  have hduration : fold var ∈ (if action.isDurative then ["?duration"] else []) ↔
      action.duration ≠ none ∧ fold var = "?duration" := by
    cases hcase : action.duration <;> simp [isDurative, hcase]
  rw [Check.actionScope, List.mem_append, List.mem_append, List.mem_map, List.mem_map, hduration]
  exact or_right_comm.trans or_assoc

/-- The action with other terms, and other types of quantified variables, in its expressions. -/
def recast (term : String → String) (type : TypeSpec → TypeSpec) (action : Action) : Action :=
  { action with
    duration := action.duration.map (Expr.recast term type)
    condition := action.condition.recast term type
    effect := action.effect.recast term type }

/-- The expressions of an action are recast one by one. -/
lemma bodies_recast (term : String → String) (type : TypeSpec → TypeSpec) (action : Action) :
    (action.recast term type).bodies = action.bodies.map (Expr.recast term type) := by
  obtain ⟨name, params, duration, condition, effect⟩ := action
  cases duration <;> rfl

/-- Other terms and types bind the same variables everywhere in an action. -/
lemma scope_recast (term : String → String) (type : TypeSpec → TypeSpec) (action : Action) :
    Check.actionScope (action.recast term type) = Check.actionScope action := by
  obtain ⟨name, params, duration, condition, effect⟩ := action
  cases duration <;> rfl

end Action

namespace Domain

/-- The domain with other terms, and other types of quantified variables, in its actions. -/
def recast (term : String → String) (type : TypeSpec → TypeSpec) (domain : Domain) : Domain :=
  { domain with actions := domain.actions.map (Action.recast term type) }

/-- The check of an action depends neither on its terms nor on the types of quantified variables. -/
lemma actionArities_recast (term : String → String) (type : TypeSpec → TypeSpec) (domain : Domain)
    (action : Action) :
    Check.actionArities (domain.recast term type) (action.recast term type) =
      Check.actionArities domain action := by
  unfold Check.actionArities
  rw [Action.bodies_recast, Action.scope_recast]
  refine Check.each_map_congr fun body _ => ?_
  rw [Expr.references_recast, Expr.uses_recast]
  rfl

/-- In every domain that passes the check, all variables among the arguments of atoms are bound, at
any depth of any expression of any action.  Of terms the check knows nothing: the verdict stays the
same, defect included, whatever terms and types of quantified variables are put in their place. -/
theorem domainArities_binds_arguments (domain : Domain) :
    (Check.domainArities domain = .ok () →
      ∀ action ∈ domain.actions, ∀ body ∈ action.bodies, ∀ var bound,
        body.HasVariable .argument var bound → action.Binds bound var) ∧
    ∀ (term : String → String) (type : TypeSpec → TypeSpec),
      Check.domainArities (domain.recast term type) = Check.domainArities domain := by
  constructor
  · intro h action haction body hbody var bound hvar
    have hcheck := Check.each_eq_ok.mp (Check.each_eq_ok.mp h action haction) body hbody
    obtain ⟨_, -, huses⟩ := Check.bind_eq_ok.mp hcheck
    have huse := Check.each_eq_ok.mp huses _ (hvar.mem_uses rfl (Check.actionScope action))
    refine Action.mem_scope_iff_binds.mp ?_
    unfold Check.boundVariable at huse
    split_ifs at huse with hmem
    exact hmem
  · intro term type
    exact Check.each_map_congr fun action _ => actionArities_recast term type domain action

/-- An action in which the variable of a quantifier is an argument below a conditional effect. -/
def swapAction : Action where
  name := "swap"
  params := [.untyped "?x"]
  duration := none
  condition := .trivial
  effect := .quantified .universal [.untyped "?y"]
    (.when (.atom ⟨"on", ["?x", "?Y"]⟩) (.not (.atom ⟨"on", ["?y", "?X"]⟩)))

/-- A domain with that action. -/
def swapDomain : Domain where
  name := "swaps"
  requirements := []
  types := TypeHierarchy.empty
  constants := []
  predicates := [⟨"on", [.untyped "?a", .untyped "?b"]⟩]
  functions := []
  actions := [swapAction]

/-- The domain passes the check, so the variable of its quantifier is bound where it is used, in
other letters. -/
theorem domainArities_binds_arguments_swap :
    Check.domainArities swapDomain = .ok () ∧
      swapAction.effect.HasVariable .argument "?Y" [.untyped "?y"] ∧
        swapAction.Binds [.untyped "?y"] "?Y" := by
  have hpasses : Check.domainArities swapDomain = .ok () :=
    Check.toOption_eq_some.mp (by decide +kernel)
  have hatom : (Expr.atom ⟨"on", ["?x", "?Y"]⟩).HasVariable .argument "?Y" [] :=
    .argument (List.mem_cons_of_mem _ List.mem_cons_self) (by decide)
  have hwhen := Expr.HasVariable.inside (e := .when (.atom ⟨"on", ["?x", "?Y"]⟩)
    (.not (.atom ⟨"on", ["?y", "?X"]⟩))) List.mem_cons_self hatom
  have huse := Expr.HasVariable.inside (e := swapAction.effect) List.mem_cons_self hwhen
  refine ⟨hpasses, huse, ?_⟩
  exact (domainArities_binds_arguments swapDomain).1 hpasses swapAction List.mem_cons_self _
    (List.mem_cons_of_mem _ List.mem_cons_self) _ _ huse

/-- A domain whose action compares its parameter with a variable that nothing binds. -/
def unboundTermText : String :=
  "(define (domain d) (:action a :parameters (?x) :precondition (= ?x ?y)))"

/-- A domain can be read and pass the check although a variable of its action is not bound. -/
theorem exists_unbound_term :
    ∃ domain, (parse .lenient unboundTermText).result = .ok domain ∧
      Check.domainArities domain = .ok () ∧
      ∃ action ∈ domain.actions, ∃ body ∈ action.bodies, ∃ bound,
        body.HasVariable .term "?y" bound ∧ ¬ action.Binds bound "?y" := by
  have hread : (parse .lenient unboundTermText).result.toOption.map (fun domain =>
      ((Check.domainArities domain).toOption, domain.actions.map fun action =>
        (Check.actionScope action ++ action.condition.binders.map fun binder => fold binder.name,
          action.condition.children.map Expr.termName?))) =
      some (some (), [(["?x"], [some "?x", some "?y"])]) := by
    decide +kernel
  obtain ⟨domain, hdomain, hshape⟩ := Option.map_eq_some_iff.mp hread
  obtain ⟨hpasses, hactions⟩ := Prod.mk.inj hshape
  obtain ⟨action, haction, hshape⟩ := List.map_eq_singleton_iff.mp hactions
  obtain ⟨hscope, hterms⟩ := Prod.mk.inj hshape
  have hy : Expr.term "?y" ∈ action.condition.children := by
    refine Expr.term_mem_of_termName? ?_
    rw [hterms]
    exact List.mem_cons_of_mem _ List.mem_cons_self
  refine ⟨domain, Check.toOption_eq_some.mp hdomain, Check.toOption_eq_some.mp hpasses, action,
    by rw [haction]; exact List.mem_cons_self, action.condition, List.mem_cons_self, _,
    .inside hy (.term (by decide)), ?_⟩
  rw [← Action.mem_scope_iff_binds, List.append_nil, hscope]
  decide

end Domain

end Pddl
