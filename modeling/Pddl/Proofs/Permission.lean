import Pddl.Proofs.Composition
import Pddl.Proofs.Consumption
import Pddl.Proofs.Invariants

/-!
# Features are used with permission

Many features of the language need a flag.  Which flags the nodes of an expression need is said by
`Expr.Licensed`, and an expression is `Permitted` if all of its parts are licensed, wherever they
stand.  Under strict settings every reader of a domain returns permitted expressions: this is shown
for each reader with the rules of `Upholds`, where `HasFlags` is the invariant, as no reader of a
part of an action declares flags.
-/

namespace Pddl

/-! ### Flags that features need -/

/-- What the parts of an action are for. -/
inductive Role
  | condition
  | effect
  | duration
deriving DecidableEq, Repr

/-- Names with a type other than the root need the flag for types. -/
def TypesLicensed (flags : List String) (listed : List TypedName) : Prop :=
  ∀ typed ∈ listed, typed.type ≠ .named rootType → ":typing" ∈ flags

namespace Expr

/-- The flags have what the expression needs for itself, apart from its parts. -/
def Licensed (flags : List String) (role : Role) : Expr → Prop
  | .or _ => ":disjunctive-preconditions" ∈ flags
  | .quantified .existential vars _ =>
    ":existential-preconditions" ∈ flags ∧ TypesLicensed flags vars
  | .quantified .universal vars _ =>
    (if role = .effect then ":conditional-effects" else ":universal-preconditions") ∈ flags ∧
      TypesLicensed flags vars
  | .when _ _ => ":conditional-effects" ∈ flags
  | .update _ _ _ => ":numeric-fluents" ∈ flags ∨ ":action-costs" ∈ flags
  | .timed _ _ => ":durative-actions" ∈ flags
  | .compare _ left right =>
    role ≠ .duration →
      (if left.isTerm && right.isTerm then ":equality" else ":numeric-fluents") ∈ flags
  | .and operands => role = .duration → operands ≠ [] → ":durative-inequalities" ∈ flags
  | .atom _ | .term _ | .number _ | .not _ | .arith _ _ => True

/-- The direct parts of an expression, each with what it is for: the premise of a conditional effect
is a condition, and everything else is for what the expression is for. -/
def parts (role : Role) : Expr → List (Role × Expr)
  | .when premise outcome => [(.condition, premise), (role, outcome)]
  | e => e.children.map fun part => (role, part)

/-- The part occurs in an expression, at any depth, and is for the given role. -/
inductive Occurs (part : Expr) (purpose : Role) : Role → Expr → Prop
  | self : Occurs part purpose purpose part
  | inside {role inner : Role} {e child : Expr} : (inner, child) ∈ e.parts role →
      Occurs part purpose inner child → Occurs part purpose role e

/-- The flags have what all parts of the expression need. -/
def Permitted (flags : List String) (role : Role) (e : Expr) : Prop :=
  ∀ part purpose, Occurs part purpose role e → part.Licensed flags purpose

variable {flags flags' : List String} {role : Role} {e : Expr}

/-- An expression is permitted if it is licensed and its direct parts are permitted. -/
lemma Permitted.of_parts (hself : e.Licensed flags role)
    (hparts : ∀ inner child, (inner, child) ∈ e.parts role → child.Permitted flags inner) :
    e.Permitted flags role := by
  intro part purpose hoccurs
  cases hoccurs with
  | self => exact hself
  | inside hchild hinside => exact hparts _ _ hchild part purpose hinside

/-- The direct parts of an expression other than a conditional effect are for the same. -/
lemma Permitted.of_children (hself : e.Licensed flags role)
    (hparts : e.parts role = e.children.map fun part => (role, part))
    (hchildren : ∀ child ∈ e.children, child.Permitted flags role) : e.Permitted flags role := by
  refine .of_parts hself fun inner child hchild => ?_
  rw [hparts] at hchild
  obtain ⟨found, hfound, heq⟩ := List.mem_map.mp hchild
  cases heq
  exact hchildren child hfound

/-- An expression with one part, which is for the same. -/
lemma Permitted.of_operand {operand : Expr} (hself : e.Licensed flags role)
    (hparts : e.parts role = [(role, operand)]) (hoperand : operand.Permitted flags role) :
    e.Permitted flags role := by
  refine .of_parts hself fun inner child hchild => ?_
  rw [hparts] at hchild
  cases List.mem_singleton.mp hchild
  exact hoperand

end Expr

/-- More flags license more types. -/
lemma TypesLicensed.mono {flags flags' : List String} {listed : List TypedName}
    (h : TypesLicensed flags listed) (hsub : flags ⊆ flags') : TypesLicensed flags' listed :=
  fun typed htyped hne => hsub (h typed htyped hne)

/-- More flags license more expressions. -/
lemma Expr.Licensed.mono {flags flags' : List String} {role : Role} {e : Expr}
    (h : e.Licensed flags role) (hsub : flags ⊆ flags') : e.Licensed flags' role := by
  cases e with
  | quantified quantifier vars operand =>
    cases quantifier with
    | universal => exact ⟨hsub h.1, h.2.mono hsub⟩
    | existential => exact ⟨hsub h.1, h.2.mono hsub⟩
  | or => exact hsub h
  | when => exact hsub h
  | update => exact h.imp (fun hflag => hsub hflag) fun hflag => hsub hflag
  | timed => exact hsub h
  | compare => exact fun hrole => hsub (h hrole)
  | and => exact fun hrole hne => hsub (h hrole hne)
  | atom | term | number | not | arith => exact True.intro

/-- More flags permit more expressions. -/
lemma Expr.Permitted.mono {flags flags' : List String} {role : Role} {e : Expr}
    (h : e.Permitted flags role) (hsub : flags ⊆ flags') : e.Permitted flags' role :=
  fun part purpose hoccurs => (h part purpose hoccurs).mono hsub

namespace Reader

/-! ### Readers that declare no flags -/

variable {c : Context} {flags : List String}

/-- The flags are those that are declared. -/
def HasFlags (flags : List String) (s : State) : Prop :=
  s.requirements = flags

/-- A step of the cursor declares no flags. -/
lemma Upholds.onCursor {α : Type} {step : CursorM α} :
    Upholds c (HasFlags flags) (Reader.onCursor step) fun _ => True := by
  intro s a s' hs h
  obtain ⟨cursor, -, rfl⟩ := onCursor_eq_ok.mp h
  exact ⟨hs, True.intro⟩

/-- A look at the budget declares no flags. -/
lemma upholds_budget : Upholds c (HasFlags flags) budget fun _ => True := by
  intro s n s' hs h
  obtain ⟨m, hm⟩ := budget_run (c := c) (s := s)
  rw [hm] at h
  cases h
  exact ⟨hs, True.intro⟩

/-- Readers on one level declare no flags. -/
lemma upholds_stepwise (c : Context) (flags : List String) :
    Stepwise fun m => Upholds c (HasFlags flags) m fun _ => True where
  pure := fun _ => .pure True.intro
  bind := fun hm hf => hm.bind fun a _ => hf a
  get := fun _ hf s a s' hs h => hf s s a s' hs h
  read := fun _ _ _ hf s a s' hs h => hf c s a s' hs h
  rounds := fun _ hloop s a s' hs h => hloop _ s a s' hs h
  throw := fun _ => .throw _
  peek := .onCursor
  advance := .onCursor
  report := by
    intro token breach s u s' hs h
    obtain ⟨-, rfl⟩ := report_eq_ok.mp h
    exact ⟨hs, True.intro⟩
  note := by
    intro notice _ s u s' hs h
    cases h
    exact ⟨hs, True.intro⟩

/-- A level declares no flags if what is read on it does not. -/
lemma Upholds.nested {α : Type} {body : ReadM α} {P : α → Prop}
    (h : Upholds c (HasFlags flags) body P) :
    Upholds c (HasFlags flags) (Reader.nested body) P := by
  intro s a s' hs hrun
  obtain ⟨-, s₁, hbody, rfl⟩ := nested_eq_ok.mp hrun
  exact h s.deeper a s₁ hs hbody

/-- Features need a flag in the context, and a missing flag is a failure. -/
structure Context.Enforces (c : Context) : Prop where
  strict : c.settings.strictRequirements = true
  governs : c.governs = true

/-- Where flags are enforced, a feature that is required has one of its flags. -/
lemma Upholds.require (hc : c.Enforces) (token : Token) (feature : Feature) :
    Upholds c (HasFlags flags) (Reader.require token feature) fun _ =>
      ∃ flag ∈ feature.flags, flag ∈ flags := by
  intro s u s' hs h
  simp only [Reader.require, bind_eq_ok, get_eq_ok, read_eq_ok] at h
  obtain ⟨t, s₁, ⟨rfl, rfl⟩, d, s₂, ⟨rfl, rfl⟩, h⟩ := h
  split_ifs at h with hnone
  · have hlenient := (report_eq_ok.mp h).1
    rw [hc.strict] at hlenient
    cases hlenient
  · obtain ⟨-, rfl⟩ := pure_eq_ok.mp h
    refine ⟨hs, ?_⟩
    rw [← hs]
    simpa [hc.governs] using hnone

/-! ### Typed lists -/

/-- Where the flag for types is declared, all types are licensed. -/
lemma typesLicensed_of_mem {listed : List TypedName} (h : ":typing" ∈ flags) :
    TypesLicensed flags listed :=
  fun _ _ _ => h

section Enforced

variable (hc : c.Enforces)

include hc

/-- A typed list has licensed types. -/
lemma typedGroups_permitted (kind : Token.Kind) (allowEither : Bool) (fuel : Nat) :
    Upholds c (HasFlags flags) (typedGroups kind allowEither fuel) (TypesLicensed flags) := by
  have hS := upholds_stepwise c flags
  have huntyped (names : List String) :
      TypesLicensed flags (names.map TypedName.untyped) := by
    intro typed htyped hne
    obtain ⟨name, -, rfl⟩ := List.mem_map.mp htyped
    exact absurd rfl hne
  induction fuel with
  | zero => exact .pure (fun _ htyped => absurd htyped (List.not_mem_nil))
  | succ fuel ih =>
    refine .bind (hS.textsWhile fun _ hend => by simp [isListed, hend]) fun names _ => ?_
    refine .bind hS.currentKind fun _ _ => ?_
    split
    · exact .pure (huntyped names)
    · exact .pure (huntyped names)
    · split
      · exact .failHere
      · refine .bind hS.advance fun minus _ => .bind (.require hc minus _) fun _ hflag => ?_
        have htyping : ":typing" ∈ flags := by simpa [Feature.typedLists] using hflag
        refine .bind (hS.typeSpec _) fun type _ => .bind ih fun others _ => ?_
        exact .pure (typesLicensed_of_mem htyping)
    · exact .failHere

/-- A typed list has licensed types. -/
lemma typedList_permitted (kind : Token.Kind) (allowEither : Bool) :
    Upholds c (HasFlags flags) (typedList kind allowEither) (TypesLicensed flags) :=
  fun s listed s' hs h => typedGroups_permitted hc kind allowEither _ s listed s' hs h

/-- The variables of a quantifier have licensed types. -/
lemma quantifiedVariables_permitted :
    Upholds c (HasFlags flags) quantifiedVariables (TypesLicensed flags) := by
  have hS := upholds_stepwise c flags
  refine .bind (hS.expect _ _) fun _ _ => .bind (typedList_permitted hc _ _) fun vars hvars => ?_
  exact .bind (hS.expect _ _) fun _ _ => .pure hvars

end Enforced

/-! ### Expressions -/

/-- A fluent declares no flags. -/
lemma fluent_upholds : Upholds c (HasFlags flags) fluent fun _ => True := by
  have hS := upholds_stepwise c flags
  refine .bind hS.currentKind fun _ _ => ?_
  split
  · exact .bind hS.advance fun _ _ => .pure True.intro
  · exact .nested (.bind (hS.expect _ _) fun _ _ => hS.atomicFormula _)

/-- An expression without parts that needs nothing. -/
lemma permitted_of_leaf {role : Role} {e : Expr} (hself : e.Licensed flags role)
    (hparts : e.parts role = []) : e.Permitted flags role :=
  .of_parts hself fun inner child hchild => by
    rw [hparts] at hchild
    cases hchild

/-- A numeric term is permitted wherever it stands. -/
lemma numericTerm_permitted (budget : Nat) :
    Upholds c (HasFlags flags) (numericTerm budget) fun e => ∀ role, e.Permitted flags role := by
  have hS := upholds_stepwise c flags
  have hleaf {e : Expr} (hself : ∀ role, e.Licensed flags role)
      (hparts : ∀ role, e.parts role = []) (role : Role) : e.Permitted flags role :=
    permitted_of_leaf (hself role) (hparts role)
  induction budget with
  | zero => exact .failHere
  | succ budget ih =>
    have harithmetic : Upholds c (HasFlags flags) (arithmetic (numericTerm budget)) fun e =>
        ∀ role, e.Permitted flags role := by
      refine .bind hS.current fun _ _ => ?_
      split
      · exact .failHere
      · refine .bind hS.arithmeticAllowed fun _ _ => ?_
        split
        · refine .bind hS.advance fun _ _ => .bind (.readWhile ih) fun operands hoperands => ?_
          split
          · refine .bind hS.advance fun _ _ => .pure fun role => ?_
            exact .of_children True.intro rfl fun child hchild => hoperands child hchild role
          · exact .failAt
        · exact .failHere
    refine .bind hS.currentKind fun kind _ => ?_
    cases kind with
    | number => exact .bind hS.number fun _ _ => .pure (hleaf (fun _ => True.intro) fun _ => rfl)
    | var | name =>
      exact .bind hS.advance fun _ _ => .pure (hleaf (fun _ => True.intro) fun _ => rfl)
    | openParen =>
      refine .nested (.bind hS.advance fun _ _ => .bind hS.currentKind fun kind _ => ?_)
      cases kind with
      | minus | operator => exact harithmetic
      | name =>
        exact .bind (hS.atomicFormula _) fun _ _ =>
          .pure (hleaf (fun _ => True.intro) fun _ => rfl)
      | _ => exact .failHere
    | _ => exact .failHere

/-- An atom is permitted wherever it stands. -/
lemma atom_permitted (atom : Atom) (role : Role) : (Expr.atom atom).Permitted flags role :=
  permitted_of_leaf True.intro rfl

/-- An atom that is read is permitted wherever it stands. -/
lemma atomicFormula_permitted (role : Role) :
    Upholds c (HasFlags flags) (do return Expr.atom (← atomicFormula false) : ReadM Expr) fun e =>
      e.Permitted flags role :=
  .bind ((upholds_stepwise c flags).atomicFormula _) fun _ _ => .pure (atom_permitted _ _)

/-- The empty expression is permitted wherever it stands. -/
lemma trivial_permitted (role : Role) : Expr.trivial.Permitted flags role :=
  permitted_of_leaf (fun _ hne => absurd rfl hne) rfl

/-- Operands are permitted if each of them is. -/
lemma operands_upholds {operand : ReadM Expr} {P : Expr → Prop}
    (h : Upholds c (HasFlags flags) operand P) :
    Upholds c (HasFlags flags) (operands operand) fun es => ∀ e ∈ es, P e := by
  refine .bind (.readWhile h) fun es hes => ?_
  exact .bind ((upholds_stepwise c flags).expect _ _) fun _ _ => .pure hes

/-- An expression that was read is permitted when its form is closed. -/
lemma closeForm_permitted {e : Expr} {role : Role} (opener : Token) (reason : String)
    (h : e.Permitted flags role) :
    Upholds c (HasFlags flags) (do
      closeForm opener reason
      return e) fun e => e.Permitted flags role :=
  .bind ((upholds_stepwise c flags).closeForm _ _) fun _ _ => .pure h

section Enforced

variable (hc : c.Enforces)

include hc

/-- A quantified expression is permitted if its operand is. -/
lemma quantified_permitted {quantifier : Quantifier} {feature : Feature} {operand : ReadM Expr}
    {role : Role} (token : Token) (reason : String)
    (hlicensed : ∀ vars e, (∃ flag ∈ feature.flags, flag ∈ flags) → TypesLicensed flags vars →
      (Expr.quantified quantifier vars e).Licensed flags role)
    (hoperand : Upholds c (HasFlags flags) operand fun e => e.Permitted flags role) :
    Upholds c (HasFlags flags) (do
      let _ ← advance
      require token feature
      let vars ← quantifiedVariables
      let e ← operand
      closeForm token reason
      return Expr.quantified quantifier vars e) fun e => e.Permitted flags role := by
  have hS := upholds_stepwise c flags
  refine .bind hS.advance fun _ _ => .bind (.require hc _ _) fun _ hflag => ?_
  refine .bind (quantifiedVariables_permitted hc) fun vars hvars => .bind hoperand fun e he => ?_
  exact closeForm_permitted _ _ (.of_operand (hlicensed vars e hflag hvars) rfl he)

/-- A comparison is permitted if it is governed or constrains a duration. -/
lemma comparison_permitted (budget : Nat) {governed : Bool} {role : Role}
    (h : governed = true ∨ role = .duration) :
    Upholds c (HasFlags flags) (comparison (numericTerm budget) governed) fun e =>
      e.Permitted flags role := by
  have hS := upholds_stepwise c flags
  have hterm : Upholds c (HasFlags flags) (numericTerm budget) fun e =>
      ∀ role, e.Permitted flags role := numericTerm_permitted budget
  refine .bind hS.current fun token _ => ?_
  split
  · exact .failHere
  · rename_i op _
    refine .bind hS.advance fun _ _ => .bind hterm fun left hleft => ?_
    refine .bind hterm fun right hright => ?_
    have hwhole (hself : (Expr.compare op left right).Licensed flags role) :
        (Expr.compare op left right).Permitted flags role := by
      refine .of_children hself rfl fun e he => ?_
      rcases List.mem_pair.mp he with rfl | rfl
      · exact hleft role
      · exact hright role
    split
    · refine .bind (.require hc _ _) fun _ hflag => closeForm_permitted _ _ (hwhole fun _ => ?_)
      split_ifs at hflag ⊢ <;> simpa [Feature.termEquality, Feature.numericComparisons] using hflag
    · rename_i hgoverned
      exact closeForm_permitted _ _ (hwhole fun hrole => absurd (h.resolve_left hgoverned) hrole)

/-- A timed expression is permitted if its operand is. -/
lemma timed_permitted {operand : ReadM Expr} {role : Role} (time : TimeSpec)
    (allowed inEffect : Bool)
    (h : Upholds c (HasFlags flags) operand fun e => e.Permitted flags role) :
    Upholds c (HasFlags flags) (timed time allowed inEffect operand) fun e =>
      e.Permitted flags role := by
  have hS := upholds_stepwise c flags
  unfold timed
  split
  · refine .bind hS.advance fun _ _ => .bind hS.advance fun _ _ => ?_
    split
    · exact .failAt
    · refine .bind (.require hc _ _) fun _ hflag => .bind h fun e he => ?_
      have hdurative : ":durative-actions" ∈ flags := by
        simpa [Feature.timeSpecifiers] using hflag
      exact closeForm_permitted _ _ (.of_operand hdurative rfl he)
  · exact .failHere

/-- Conditions are permitted. -/
lemma condition_permitted (budget : Nat) : ∀ temporal,
    Upholds c (HasFlags flags) (condition budget temporal) fun e =>
      e.Permitted flags .condition := by
  have hS := upholds_stepwise c flags
  induction budget with
  | zero => exact fun _ => .failHere
  | succ budget ih =>
    intro temporal
    refine .nested (.bind (hS.expect _ _) fun _ _ => .bind hS.current fun token _ => ?_)
    cases token.kind with
    | closeParen => exact .bind hS.advance fun _ _ => .pure (trivial_permitted _)
    | operator => exact comparison_permitted hc budget (Or.inl rfl)
    | name =>
      cases Head.ofKey token.key with
      | conjunction =>
        refine .bind hS.advance fun _ _ => .bind (operands_upholds (ih _)) fun es hes => ?_
        exact .pure (.of_children (fun hrole => by cases hrole) rfl hes)
      | disjunction =>
        refine .bind hS.advance fun _ _ => .bind (.require hc _ _) fun _ hflag => ?_
        have hor : ":disjunctive-preconditions" ∈ flags := by
          simpa [Feature.disjunctions] using hflag
        exact .bind (operands_upholds (ih _)) fun es hes => .pure (.of_children hor rfl hes)
      | negation =>
        refine .bind hS.advance fun _ _ => .bind (ih _) fun e he => ?_
        exact closeForm_permitted _ _ (.of_operand True.intro rfl he)
      | quantifier quantifier =>
        refine quantified_permitted hc _ _ (fun vars e hflag hvars => ?_) (ih _)
        cases quantifier with
        | universal =>
          exact ⟨by simpa [quantifierFeature, Feature.universalConditions] using hflag, hvars⟩
        | existential =>
          exact ⟨by simpa [quantifierFeature, Feature.existentialConditions] using hflag, hvars⟩
      | time =>
        refine .bind hS.timeAhead? fun time _ => ?_
        cases time with
        | some time => exact timed_permitted hc _ _ _ (ih false)
        | none => exact atomicFormula_permitted _
      | conditional | update => exact .failHere
      | symbol => exact atomicFormula_permitted _
    | _ => exact .failHere

/-- Effects are permitted. -/
lemma effect_permitted (budget : Nat) : ∀ temporal,
    Upholds c (HasFlags flags) (effect budget temporal) fun e => e.Permitted flags .effect := by
  have hS := upholds_stepwise c flags
  induction budget with
  | zero => exact fun _ => .failHere
  | succ budget ih =>
    intro temporal
    refine .nested (.bind (hS.expect _ _) fun _ _ => .bind hS.current fun token _ => ?_)
    cases token.kind with
    | closeParen => exact .bind hS.advance fun _ _ => .pure (trivial_permitted _)
    | name =>
      cases Head.ofKey token.key with
      | conjunction =>
        refine .bind hS.advance fun _ _ => .bind (operands_upholds (ih _)) fun es hes => ?_
        exact .pure (.of_children (fun hrole => by cases hrole) rfl hes)
      | negation =>
        refine .bind hS.advance fun _ _ => .bind (.nested (hS.parenthesizedAtom _)) fun atom _ => ?_
        exact closeForm_permitted _ _ (.of_operand True.intro rfl (atom_permitted _ _))
      | quantifier quantifier =>
        cases quantifier with
        | universal =>
          refine quantified_permitted hc _ _ (fun vars e hflag hvars => ?_) (ih _)
          exact ⟨by simpa [Feature.universalEffects] using hflag, hvars⟩
        | existential => exact .failHere
      | conditional =>
        refine .bind hS.advance fun _ _ => .bind (.require hc _ _) fun _ hflag => ?_
        have hwhen : ":conditional-effects" ∈ flags := by
          simpa [Feature.conditionalEffects] using hflag
        refine .bind (condition_permitted hc _ _) fun premise hpremise => ?_
        refine .bind (ih _) fun outcome houtcome => closeForm_permitted _ _ ?_
        refine .of_parts hwhen fun inner child hchild => ?_
        rcases List.mem_pair.mp hchild with heq | heq
        · cases heq
          exact hpremise
        · cases heq
          exact houtcome
      | time =>
        refine .bind hS.timeAhead? fun time _ => ?_
        cases time with
        | some time => exact timed_permitted hc _ _ _ (ih false)
        | none => exact atomicFormula_permitted _
      | update op =>
        refine .bind hS.advance fun _ _ => .bind (.require hc _ _) fun _ hflag => ?_
        have hupdate : ":numeric-fluents" ∈ flags ∨ ":action-costs" ∈ flags := by
          simpa [Feature.numericEffects] using hflag
        refine .bind fluent_upholds fun target _ => ?_
        refine .bind (numericTerm_permitted _) fun value hvalue => closeForm_permitted _ _ ?_
        refine .of_children hupdate rfl fun child hchild => ?_
        rcases List.mem_pair.mp hchild with rfl | rfl
        · exact atom_permitted _ _
        · exact hvalue .effect
      | disjunction => exact .failHere
      | symbol => exact atomicFormula_permitted _
    | _ => exact .failHere

/-- Constraints on durations are permitted. -/
lemma durationConstraint_permitted (budget : Nat) :
    Upholds c (HasFlags flags) (durationConstraint budget) fun e =>
      e.Permitted flags .duration := by
  have hS := upholds_stepwise c flags
  induction budget with
  | zero => exact .failHere
  | succ budget ih =>
    refine .nested (.bind (hS.expect _ _) fun _ _ => .bind hS.current fun token _ => ?_)
    cases token.kind with
    | closeParen => exact .bind hS.advance fun _ _ => .pure (trivial_permitted _)
    | operator => exact comparison_permitted hc budget (Or.inr rfl)
    | name =>
      dsimp only
      split
      · refine .bind hS.advance fun _ _ => .bind (.require hc _ _) fun _ hflag => ?_
        have hand : ":durative-inequalities" ∈ flags := by
          simpa [Feature.durationConjunctions] using hflag
        exact .bind (operands_upholds ih) fun es hes =>
          .pure (.of_children (fun _ _ => hand) rfl hes)
      · refine .bind hS.timeAhead? fun time _ => ?_
        cases time with
        | some time => exact timed_permitted hc _ _ _ ih
        | none => exact .failHere
    | _ => exact .failHere

end Enforced

end Reader

/-! ### Actions -/

/-- The flags have what all parts of the action need. -/
structure Action.Permitted (flags : List String) (action : Action) : Prop where
  params : TypesLicensed flags action.params
  durative : action.isDurative = true → ":durative-actions" ∈ flags
  condition : action.condition.Permitted flags .condition
  effect : action.effect.Permitted flags .effect
  duration : ∀ constraint ∈ action.duration, constraint.Permitted flags .duration

/-- The flags have what the field of an action needs. -/
def ActionField.Permitted (flags : List String) : ActionField → Prop
  | .params listed => TypesLicensed flags listed
  | .duration constraint => ":durative-actions" ∈ flags ∧ constraint.Permitted flags .duration
  | .condition e => e.Permitted flags .condition
  | .effect e => e.Permitted flags .effect

section Fields

variable {flags flags' : List String} {action : Action} {field : ActionField}

/-- More flags permit more actions. -/
lemma Action.Permitted.mono (h : action.Permitted flags) (hsub : flags ⊆ flags') :
    action.Permitted flags' where
  params := h.params.mono hsub
  durative := fun hdurative => hsub (h.durative hdurative)
  condition := h.condition.mono hsub
  effect := h.effect.mono hsub
  duration := fun constraint hconstraint => (h.duration constraint hconstraint).mono hsub

/-- An action with a permitted field set. -/
lemma Action.Permitted.withField (h : action.Permitted flags) (hfield : field.Permitted flags) :
    (action.withField field).Permitted flags := by
  cases field with
  | params params => exact { h with params := hfield }
  | duration constraint =>
    refine { h with durative := fun _ => hfield.1, duration := fun found hfound => ?_ }
    rw [← Option.some.inj hfound]
    exact hfield.2
  | condition condition => exact { h with condition := hfield }
  | effect effect => exact { h with effect := hfield }

/-- An action with permitted fields. -/
lemma Action.permitted_ofFields (name : String) {fields : List ActionField}
    (hfields : ∀ field ∈ fields, field.Permitted flags) :
    (Action.ofFields name fields).Permitted flags := by
  have hfold (fields : List ActionField) (hfields : ∀ field ∈ fields, field.Permitted flags) :
      ∀ action : Action, action.Permitted flags →
        (fields.foldl Action.withField action).Permitted flags := by
    induction fields with
    | nil => exact fun _ h => h
    | cons field rest ih =>
      rw [List.forall_mem_cons] at hfields
      exact fun action h => ih hfields.2 _ (h.withField hfields.1)
  refine hfold fields hfields _ ?_
  exact {
    params := fun _ htyped => absurd htyped (List.not_mem_nil)
    durative := fun h => by cases h
    condition := Reader.trivial_permitted _
    effect := Reader.trivial_permitted _
    duration := fun _ h => by cases h }

end Fields

namespace Reader

variable {c : Context} {flags : List String} (hc : c.Enforces)

include hc

/-- Parameters have licensed types. -/
lemma parameters_permitted : Upholds c (HasFlags flags) parameters (TypesLicensed flags) := by
  have hS := upholds_stepwise c flags
  refine .bind (hS.keyword _) fun _ _ => .bind (hS.expect _ _) fun _ _ => ?_
  refine .bind (typedList_permitted hc _ _) fun params hparams => ?_
  exact .bind (hS.expect _ _) fun _ _ => .pure hparams

/-- A condition that is read with all of the budget is permitted. -/
lemma anyCondition_permitted (temporal : Bool) :
    Upholds c (HasFlags flags) (anyCondition temporal) fun e => e.Permitted flags .condition :=
  .bind upholds_budget fun _ _ => condition_permitted hc _ _

/-- An effect that is read with all of the budget is permitted. -/
lemma anyEffect_permitted (temporal : Bool) :
    Upholds c (HasFlags flags) (anyEffect temporal) fun e => e.Permitted flags .effect :=
  .bind upholds_budget fun _ _ => effect_permitted hc _ _

/-- A constraint that is read with all of the budget is permitted. -/
lemma anyDurationConstraint_permitted :
    Upholds c (HasFlags flags) anyDurationConstraint fun e => e.Permitted flags .duration :=
  .bind upholds_budget fun _ _ => durationConstraint_permitted hc _

/-- Fields of instantaneous actions are permitted. -/
lemma actionField_permitted :
    Upholds c (HasFlags flags) actionField fun field => field.Permitted flags := by
  have hS := upholds_stepwise c flags
  refine .bind hS.current fun _ _ => ?_
  split
  · exact .bind (parameters_permitted hc) fun _ h => .pure h
  · exact .bind hS.advance fun _ _ => .bind (anyCondition_permitted hc _) fun _ h => .pure h
  · exact .bind hS.advance fun _ _ => .bind (anyEffect_permitted hc _) fun _ h => .pure h
  · exact .failHere

/-- Instantaneous actions are permitted. -/
lemma action_permitted :
    Upholds c (HasFlags flags) action fun action => action.Permitted flags := by
  have hS := upholds_stepwise c flags
  refine .bind (hS.keyword _) fun _ _ => .bind (hS.name _) fun _ _ => ?_
  refine .bind (.readWhile (actionField_permitted hc)) fun fields hfields => ?_
  exact .bind (hS.expect _ _) fun _ _ => .pure (Action.permitted_ofFields _ hfields)

/-- Fields of durative actions are permitted where such actions are. -/
lemma durativeActionField_permitted (hdurative : ":durative-actions" ∈ flags) :
    Upholds c (HasFlags flags) durativeActionField fun field => field.Permitted flags := by
  have hS := upholds_stepwise c flags
  refine .bind hS.current fun _ _ => ?_
  split
  · exact .bind (parameters_permitted hc) fun _ h => .pure h
  · exact .bind hS.advance fun _ _ =>
      .bind (anyDurationConstraint_permitted hc) fun _ h => .pure ⟨hdurative, h⟩
  · exact .bind hS.advance fun _ _ => .bind (anyCondition_permitted hc _) fun _ h => .pure h
  · exact .bind hS.advance fun _ _ => .bind (anyEffect_permitted hc _) fun _ h => .pure h
  · exact .failHere

/-- Durative actions are permitted. -/
lemma durativeAction_permitted :
    Upholds c (HasFlags flags) durativeAction fun action => action.Permitted flags := by
  have hS := upholds_stepwise c flags
  refine .bind (hS.keyword _) fun _ _ => .bind (.require hc _ _) fun _ hflag => ?_
  have hdurative : ":durative-actions" ∈ flags := by simpa [Feature.durativeActions] using hflag
  refine .bind (hS.name _) fun _ _ => ?_
  refine .bind (.readWhile (durativeActionField_permitted hc hdurative)) fun fields hfields => ?_
  dsimp only
  split
  · exact .bind (hS.expect _ _) fun _ _ => .pure (Action.permitted_ofFields _ hfields)
  · exact .failHere

/-- The parameters of a predicate or function have licensed types. -/
lemma skeleton_permitted :
    Upholds c (HasFlags flags) Assembly.skeleton fun skeleton =>
      TypesLicensed flags skeleton.2 := by
  have hS := upholds_stepwise c flags
  refine .bind (hS.expect _ _) fun _ _ => .bind (hS.expect _ _) fun _ _ => ?_
  refine .bind (typedList_permitted hc _ _) fun params hparams => ?_
  exact .bind (hS.expect _ _) fun _ _ => .pure hparams

end Reader

end Pddl
