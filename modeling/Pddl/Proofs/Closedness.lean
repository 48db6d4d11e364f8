import Pddl.Proofs.Composition
import Pddl.Proofs.Invariants
import Pddl.Proofs.Soundness
import Pddl.Proofs.TypeForest

/-!
# Accepted domains are closed

A domain is `Closed` if everything it uses is declared in it: types, predicates and functions, at
any depth of its actions.  Every domain that is read from a text is closed (`parse_closed`).
Actions are checked while the declarations grow, the rest at the end; the invariant
`Declarations.Sound` carries what was checked before over to larger declarations.
-/

namespace Pddl

/-! ### Occurrences of atoms -/

namespace Expr

/-- Do the parts of the expression stand in a numeric position? -/
def makesNumeric : Expr → Bool
  | .compare _ _ _ | .arith _ _ | .update _ _ _ => true
  | _ => false

/-- The atom occurs in the expression, under a comparison, arithmetic or an update if `numeric`
holds and under none of them if not. -/
inductive HasAtom : Expr → Atom → Bool → Prop
  | self (atom : Atom) : HasAtom (.atom atom) atom false
  | inside {e part : Expr} {atom : Atom} {numeric : Bool} : part ∈ e.children →
      HasAtom part atom numeric → HasAtom e atom (e.makesNumeric || numeric)

/-- The atoms of several expressions are those of each of them. -/
lemma mem_referencesAll {numeric : Bool} {es : List Expr} {reference : Atom × Bool} :
    reference ∈ referencesAll numeric es ↔ ∃ e ∈ es, reference ∈ references numeric e := by
  induction es with
  | nil => simp [referencesAll]
  | cons e rest ih =>
    rw [referencesAll, List.mem_append, ih]
    simp

/-- The atoms that occur in an expression are listed with their positions. -/
lemma HasAtom.mem_references {e : Expr} {atom : Atom} {numeric : Bool}
    (h : e.HasAtom atom numeric) : ∀ outer, (atom, outer || numeric) ∈ e.references outer := by
  induction h with
  | self atom =>
    intro outer
    rw [Bool.or_false]
    exact List.mem_cons_self
  | @inside e part atom numeric hpart h ih =>
    intro outer
    cases e with
    | atom formula | term name | number value => cases hpart
    | not operand | timed time operand | quantified quantifier vars operand =>
      rw [List.mem_singleton.mp hpart] at ih
      exact ih outer
    | and operands | or operands => exact mem_referencesAll.mpr ⟨part, hpart, ih outer⟩
    | arith op operands =>
      rw [makesNumeric, Bool.true_or, Bool.or_true]
      exact mem_referencesAll.mpr ⟨part, hpart, ih true⟩
    | compare op left right =>
      rw [makesNumeric, Bool.true_or, Bool.or_true]
      simp only [children, List.mem_cons, List.not_mem_nil, or_false] at hpart
      rcases hpart with rfl | rfl
      · exact List.mem_append_left _ (ih true)
      · exact List.mem_append_right _ (ih true)
    | update op fluent value =>
      rw [makesNumeric, Bool.true_or, Bool.or_true]
      simp only [children, List.mem_cons, List.not_mem_nil, or_false] at hpart
      rcases hpart with rfl | rfl
      · have hfluent := List.mem_singleton.mp (ih true)
        rw [Bool.true_or] at hfluent
        rw [hfluent]
        exact List.mem_cons_self
      · exact List.mem_cons_of_mem _ (ih true)
    | when premise outcome =>
      simp only [children, List.mem_cons, List.not_mem_nil, or_false] at hpart
      rcases hpart with rfl | rfl
      · exact List.mem_append_left _ (ih outer)
      · exact List.mem_append_right _ (ih outer)

end Expr

/-! ### Checks -/

namespace Check

/-- A list of checks succeeds exactly when each of them does. -/
lemma each_eq_ok {α : Type} {check : α → Except Defect Unit} {xs : List α} :
    each check xs = .ok () ↔ ∀ x ∈ xs, check x = .ok () := by
  induction xs with
  | nil => simp [each]
  | cons x rest ih =>
    rw [each, bind_eq_ok, List.forall_mem_cons, ← ih]
    constructor
    · rintro ⟨_, hx, hrest⟩
      exact ⟨hx, hrest⟩
    · rintro ⟨hx, hrest⟩
      exact ⟨(), hx, hrest⟩

/-- The check of types succeeds exactly when all types are in the hierarchy. -/
lemma declaredTypes_eq_ok {types : TypeHierarchy} {site : Site} {entities : List TypedName} :
    declaredTypes types site entities = .ok () ↔
      ∀ entity ∈ entities, ∀ type ∈ entity.type.options, types.contains type = true := by
  rw [declaredTypes, each_eq_ok]
  refine forall₂_congr fun entity _ => ?_
  rw [entityTypes, each_eq_ok]
  refine forall₂_congr fun type _ => ?_
  cases htype : types.contains type with
  | true => simp
  | false => simp

/-- An atom in a numeric position has to name a declared function, another one a declared
predicate. -/
def IsDeclared (predicates : List Predicate) (functions : List Function) (atom : Atom)
    (numeric : Bool) : Prop :=
  if numeric then ∃ function ∈ functions, fold function.name = fold atom.name
  else ∃ predicate ∈ predicates, fold predicate.name = fold atom.name

/-- The check of a reference succeeds for declared names only. -/
lemma isDeclared_of_reference {predicates : List Predicate} {functions : List Function}
    {site : Site} {atom : Atom} {numeric : Bool}
    (h : reference predicates functions site (atom, numeric) = .ok ()) :
    IsDeclared predicates functions atom numeric := by
  unfold IsDeclared
  cases numeric with
  | true =>
    rw [if_pos rfl]
    cases hfind : findFunction? functions atom.name with
    | none =>
      simp only [reference, if_true, hfind] at h
      cases h
    | some function =>
      exact ⟨function, List.mem_of_find?_eq_some hfind, by simpa using List.find?_some hfind⟩
  | false =>
    rw [if_neg (by decide)]
    cases hfind : findPredicate? predicates atom.name with
    | none =>
      simp only [reference, hfind] at h
      cases h
    | some predicate =>
      exact ⟨predicate, List.mem_of_find?_eq_some hfind, by simpa using List.find?_some hfind⟩

end Check

/-! ### Closed domains -/

/-- All types of the entity are the root or declared. -/
def TypedName.IsKnown (types : TypeHierarchy) (entity : TypedName) : Prop :=
  ∀ type ∈ entity.type.options, types.Knows type

/-- Everything that a domain uses is declared in it, and declared only once where it has to be. -/
structure Domain.Closed (domain : Domain) : Prop where
  /-- Predicates have different names. -/
  predicates_nodup : (domain.predicates.map fun predicate => fold predicate.name).Nodup
  /-- Functions have different names. -/
  functions_nodup : (domain.functions.map fun function => fold function.name).Nodup
  /-- Parents are declared, and following them leads to the root. -/
  types_tree : domain.types.IsTree
  /-- Types of constants are declared. -/
  constants_known : ∀ constant ∈ domain.constants, constant.IsKnown domain.types
  /-- Types of the parameters of predicates are declared. -/
  predicates_known : ∀ predicate ∈ domain.predicates, ∀ param ∈ predicate.params,
    param.IsKnown domain.types
  /-- Types of the parameters of functions are declared. -/
  functions_known : ∀ function ∈ domain.functions, ∀ param ∈ function.params,
    param.IsKnown domain.types
  /-- Types of the values of functions are declared. -/
  returns_known : ∀ function ∈ domain.functions,
    function.returns = numberType ∨ domain.types.Knows function.returns
  /-- Types of the parameters of actions are declared. -/
  actions_known : ∀ action ∈ domain.actions, ∀ param ∈ action.params, param.IsKnown domain.types
  /-- Types of quantified variables in actions are declared. -/
  quantified_known : ∀ action ∈ domain.actions, ∀ body ∈ action.bodies,
    ∀ quantifier vars operand, Expr.quantified quantifier vars operand ∈ body.walk →
    ∀ var ∈ vars, var.IsKnown domain.types
  /-- Atoms in actions name declared functions and predicates. -/
  atoms_declared : ∀ action ∈ domain.actions, ∀ body ∈ action.bodies, ∀ atom numeric,
    body.HasAtom atom numeric →
    Check.IsDeclared domain.predicates domain.functions atom numeric
  /-- Only durative actions have timed parts. -/
  timed_durative : ∀ action ∈ domain.actions, ∀ body ∈ action.bodies, ∀ part ∈ body.walk,
    part.IsTimed → action.duration ≠ none

/-! ### Declarations under way -/

/-- Timed parts occur in the action only if it is durative. -/
def Action.TimedIfDurative (action : Action) : Prop :=
  ∀ body ∈ action.bodies, ∀ part ∈ body.walk, part.IsTimed → action.duration ≠ none

namespace Declarations

/-- The action uses only what is declared so far. -/
structure Admits (declared : Declarations) (action : Action) : Prop where
  params : ∀ param ∈ action.params, ∀ type ∈ param.type.options,
    declared.types.contains type = true
  quantified : ∀ body ∈ action.bodies, ∀ quantifier vars operand,
    Expr.quantified quantifier vars operand ∈ body.walk →
    ∀ var ∈ vars, ∀ type ∈ var.type.options, declared.types.contains type = true
  atoms : ∀ body ∈ action.bodies, ∀ atom numeric, body.HasAtom atom numeric →
    Check.IsDeclared declared.predicates declared.functions atom numeric
  timed : action.TimedIfDurative

/-- The types are those of all declarations so far, the names of predicates and of functions are
different, and the actions use only what is declared. -/
structure Sound (declared : Declarations) : Prop where
  types : TypeHierarchy.ofDeclarations declared.typeDeclarations = .ok declared.types
  predicates : (declared.predicates.map fun predicate => fold predicate.name).Nodup
  functions : (declared.functions.map fun function => fold function.name).Nodup
  actions : ∀ action ∈ declared.actions, declared.Admits action

/-- Nothing declared is sound. -/
lemma empty_sound : empty.Sound where
  types := rfl
  predicates := List.nodup_nil
  functions := List.nodup_nil
  actions := fun _ h => absurd h List.not_mem_nil

/-- An action that uses only what is declared does so when more is declared. -/
lemma Admits.mono {declared more : Declarations} {action : Action} (h : declared.Admits action)
    (htypes : ∀ type, declared.types.contains type = true → more.types.contains type = true)
    (hpredicates : declared.predicates ⊆ more.predicates)
    (hfunctions : declared.functions ⊆ more.functions) : more.Admits action where
  params := fun param hparam type htype => htypes type (h.params param hparam type htype)
  quantified := fun body hbody quantifier vars operand hpart var hvar type htype =>
    htypes type (h.quantified body hbody quantifier vars operand hpart var hvar type htype)
  atoms := by
    intro body hbody atom numeric hatom
    have hdeclared := h.atoms body hbody atom numeric hatom
    unfold Check.IsDeclared at hdeclared ⊢
    split_ifs at hdeclared ⊢
    · obtain ⟨function, hfunction, hname⟩ := hdeclared
      exact ⟨function, hfunctions hfunction, hname⟩
    · obtain ⟨predicate, hpredicate, hname⟩ := hdeclared
      exact ⟨predicate, hpredicates hpredicate, hname⟩
  timed := h.timed

/-- Names stay different when one is added that is not found among them. -/
lemma nodup_append {names : List String} {name : String} (h : names.Nodup) (hname : name ∉ names) :
    (names ++ [name]).Nodup := by
  rw [List.nodup_append]
  refine ⟨h, by simp, ?_⟩
  intro first hfirst second hsecond heq
  rw [List.mem_singleton.mp hsecond] at heq
  exact hname (heq ▸ hfirst)

/-- The names of predicates stay different when one of a new name is added. -/
lemma nodup_addPredicate {predicates : List Predicate} {name : String} (params : List TypedName)
    (h : (predicates.map fun predicate => fold predicate.name).Nodup)
    (hnew : findPredicate? predicates name = none) :
    ((predicates ++ [Predicate.mk name params]).map fun predicate =>
      fold predicate.name).Nodup := by
  rw [List.map_append]
  refine nodup_append h ?_
  intro hmem
  obtain ⟨predicate, hpredicate, heq⟩ := List.mem_map.mp hmem
  have hne := List.find?_eq_none.mp hnew predicate hpredicate
  exact hne (by simpa using heq)

/-- The names of functions stay different when one of a new name is added. -/
lemma nodup_addFunction {functions : List Function} {name : String} (params : List TypedName)
    (returns : String) (h : (functions.map fun function => fold function.name).Nodup)
    (hnew : findFunction? functions name = none) :
    ((functions ++ [Function.mk name params returns]).map
      fun function => fold function.name).Nodup := by
  rw [List.map_append]
  refine nodup_append h ?_
  intro hmem
  obtain ⟨function, hfunction, heq⟩ := List.mem_map.mp hmem
  have hne := List.find?_eq_none.mp hnew function hfunction
  exact hne (by simpa using heq)

/-- A predicate of a new name can be declared. -/
lemma Sound.addPredicate {declared : Declarations} (h : declared.Sound) {name : String}
    (params : List TypedName) (hnew : findPredicate? declared.predicates name = none) :
    Sound { declared with predicates := declared.predicates ++ [⟨name, params⟩] } where
  types := h.types
  predicates := nodup_addPredicate params h.predicates hnew
  functions := h.functions
  actions := fun action haction =>
    (h.actions action haction).mono (fun _ h => h) (List.subset_append_left _ _)
      (List.Subset.refl _)

/-- A function of a new name can be declared. -/
lemma Sound.addFunction {declared : Declarations} (h : declared.Sound) {name : String}
    (params : List TypedName) (returns : String)
    (hnew : findFunction? declared.functions name = none) :
    Sound { declared with functions := declared.functions ++ [⟨name, params, returns⟩] } where
  types := h.types
  predicates := h.predicates
  functions := nodup_addFunction params returns h.functions hnew
  actions := fun action haction =>
    (h.actions action haction).mono (fun _ h => h) (List.Subset.refl _)
      (List.subset_append_left _ _)

/-- More types can be declared, if together they make up a hierarchy. -/
lemma Sound.addTypes {declared : Declarations} (h : declared.Sound) {listed : List TypedName}
    {types : TypeHierarchy}
    (htypes : TypeHierarchy.ofDeclarations (declared.typeDeclarations ++ listed) = .ok types) :
    Sound { declared with
      typeDeclarations := declared.typeDeclarations ++ listed, types := types } where
  types := htypes
  predicates := h.predicates
  functions := h.functions
  actions := fun action haction =>
    (h.actions action haction).mono
      (fun _ htype => TypeHierarchy.contains_of_append h.types htypes htype)
      (List.Subset.refl _) (List.Subset.refl _)

/-- An action that passes the check of its references uses only what is declared. -/
lemma admits_of_references {declared : Declarations} {action : Action}
    (h : Check.actionReferences declared.types declared.predicates declared.functions action =
      .ok ()) (htimed : action.TimedIfDurative) : declared.Admits action := by
  obtain ⟨_, hparams, hbodies⟩ := Check.bind_eq_ok.mp h
  refine ⟨Check.declaredTypes_eq_ok.mp hparams, ?_, ?_, htimed⟩
  · intro body hbody quantifier vars operand hpart
    obtain ⟨_, hquantified, -⟩ := Check.bind_eq_ok.mp (Check.each_eq_ok.mp hbodies body hbody)
    exact Check.declaredTypes_eq_ok.mp (Check.each_eq_ok.mp hquantified _ hpart)
  · intro body hbody atom numeric hatom
    obtain ⟨_, -, hreferences⟩ := Check.bind_eq_ok.mp (Check.each_eq_ok.mp hbodies body hbody)
    have hmem := hatom.mem_references false
    rw [Bool.false_or] at hmem
    exact Check.isDeclared_of_reference (Check.each_eq_ok.mp hreferences _ hmem)

/-- An action that uses only what is declared can be added. -/
lemma Sound.addAction {declared : Declarations} (h : declared.Sound) {action : Action}
    (haction : declared.Admits action) :
    Sound { declared with actions := declared.actions ++ [action] } where
  types := h.types
  predicates := h.predicates
  functions := h.functions
  actions := by
    intro other hother
    have hother : declared.Admits other := by
      rcases List.mem_append.mp hother with hother | hother
      · exact h.actions other hother
      · rw [List.mem_singleton.mp hother]
        exact haction
    exact hother.mono (fun _ h => h) (List.Subset.refl _) (List.Subset.refl _)

end Declarations

/-- The check of a return type succeeds for numbers and for types of the hierarchy. -/
lemma Check.returnType_eq_ok {types : TypeHierarchy} {function : Function}
    (h : returnType types function = .ok ()) :
    function.returns = numberType ∨ function.returns = rootType ∨
      types.contains function.returns = true := by
  unfold returnType at h
  split_ifs at h with hreturns
  simpa [or_assoc] using hreturns

/-- The types that pass the checks at the end are those that sound declarations have already. -/
lemma Declarations.Sound.types_eq {declared : Declarations} (h : declared.Sound)
    {types : TypeHierarchy}
    (htypes : TypeHierarchy.ofDeclarationsValid declared.typeDeclarations = .ok types) :
    declared.types = types ∧ types.IsTree := by
  obtain ⟨hsame, htree⟩ := TypeHierarchy.ofDeclarationsValid_eq_ok htypes
  rw [h.types] at hsame
  exact ⟨Except.ok.inj hsame, htree⟩

/-- Sound declarations whose types and entities pass the last checks make up a closed domain. -/
lemma Declarations.Sound.closed {declared : Declarations} (h : declared.Sound) {name : String}
    {types : TypeHierarchy}
    (htypes : TypeHierarchy.ofDeclarationsValid declared.typeDeclarations = .ok types)
    (hcheck : Check.domainTypes (toDomain { declared with types := types } name) = .ok ()) :
    (toDomain { declared with types := types } name).Closed := by
  obtain ⟨rfl, htree⟩ := h.types_eq htypes
  have hknows : ∀ type, declared.types.contains type = true → declared.types.Knows type :=
    fun type htype => TypeHierarchy.knows_of_contains h.types htree htype
  obtain ⟨_, hconstants, hcheck⟩ := Check.bind_eq_ok.mp hcheck
  obtain ⟨_, hpredicates, hfunctions⟩ := Check.bind_eq_ok.mp hcheck
  have hfunction : ∀ function ∈ declared.functions,
      (∀ param ∈ function.params, param.IsKnown declared.types) ∧
        (function.returns = numberType ∨ declared.types.Knows function.returns) := by
    intro function hmem
    obtain ⟨_, hparams, hreturns⟩ :=
      Check.bind_eq_ok.mp (Check.each_eq_ok.mp hfunctions function hmem)
    refine ⟨fun param hparam type htype =>
      hknows type (Check.declaredTypes_eq_ok.mp hparams param hparam type htype), ?_⟩
    rcases Check.returnType_eq_ok hreturns with hnumber | hroot | hcontains
    · exact Or.inl hnumber
    · exact Or.inr (Or.inl (by rw [hroot]; decide))
    · exact Or.inr (hknows _ hcontains)
  exact
    { predicates_nodup := h.predicates
      functions_nodup := h.functions
      types_tree := htree
      constants_known := fun constant hmem type htype =>
        hknows type (Check.declaredTypes_eq_ok.mp hconstants constant hmem type htype)
      predicates_known := fun predicate hmem param hparam type htype =>
        hknows type (Check.declaredTypes_eq_ok.mp (Check.each_eq_ok.mp hpredicates predicate hmem)
          param hparam type htype)
      functions_known := fun function hmem => (hfunction function hmem).1
      returns_known := fun function hmem => (hfunction function hmem).2
      actions_known := fun action hmem param hparam type htype =>
        hknows type ((h.actions action hmem).params param hparam type htype)
      quantified_known := fun action hmem body hbody quantifier vars operand hpart var hvar type
        htype => hknows type
          ((h.actions action hmem).quantified body hbody quantifier vars operand hpart var hvar type
            htype)
      atoms_declared := fun action hmem => (h.actions action hmem).atoms
      timed_durative := fun action hmem => (h.actions action hmem).timed }

/-! ### Valid cursors -/

namespace Reader

/-- Whenever the reader succeeds on a valid cursor, it leaves a valid one. -/
def KeepsValid {α : Type} (m : ReadM α) : Prop :=
  ∀ c s a s', s.cursor.Valid → m c s = .ok a s' → s'.cursor.Valid

/-- All readers keep cursors valid. -/
lemma keepsValid_compositional : Compositional KeepsValid where
  pure := by
    intro α a c s b s' hv h
    obtain ⟨-, rfl⟩ := pure_eq_ok.mp h
    exact hv
  bind := by
    intro α β m f hm hf c s b s' hv h
    obtain ⟨a, s₁, hrun, hrest⟩ := bind_eq_ok.mp h
    exact hf a c s₁ b s' (hm c s a s₁ hv hrun) hrest
  get := by
    intro α f _ hf c s a s' hv h
    simp only [bind_eq_ok, get_eq_ok] at h
    obtain ⟨t, s₁, ⟨rfl, rfl⟩, h⟩ := h
    exact hf s c s a s' hv h
  read := by
    intro α f _ _ _ hf c s a s' hv h
    simp only [bind_eq_ok, read_eq_ok] at h
    obtain ⟨d, s₁, ⟨rfl, rfl⟩, h⟩ := h
    exact hf c c s a s' hv h
  rounds := fun _ hloop c s a s' hv h => hloop _ c s a s' hv h
  budget := by
    intro c s a s' hv h
    obtain ⟨n, hn⟩ := budget_run (c := c) (s := s)
    rw [hn] at h
    cases h
    exact hv
  raise := by
    intro α failure c s a s' _ h
    exact absurd h (by simp)
  peek := by
    intro c s t s' hv h
    obtain ⟨cursor, hstep, rfl⟩ := onCursor_eq_ok.mp h
    exact hv.of_peek hstep
  advance := by
    intro c s t s' hv h
    obtain ⟨cursor, hstep, rfl⟩ := onCursor_eq_ok.mp h
    exact (hv.advance_eq_ok hstep).2.1
  report := fun token breach c s u s' hv h => (report_consumes hv h).2.valid
  note := by
    intro notice _ c s u s' hv h
    cases h
    exact hv
  declare := by
    intro flags c s u s' hv h
    cases h
    exact hv
  nested := by
    intro α body hbody c s a s' hv h
    obtain ⟨-, s₁, hrun, rfl⟩ := nested_eq_ok.mp h
    exact hbody c s.deeper a s₁ hv hrun

/-- Counting the unread tokens keeps cursors valid. -/
lemma keepsValid_rounds : KeepsValid rounds := by
  intro c s n s' hv h
  obtain ⟨-, rfl⟩ := rounds_eq_ok.mp h
  exact hv

/-- Whenever the reader succeeds on a valid cursor, it leaves a valid one, and its result has the
property. -/
def Ensures {α : Type} (m : ReadM α) (P : α → Prop) : Prop :=
  ∀ c s a s', s.cursor.Valid → m c s = .ok a s' → s'.cursor.Valid ∧ P a

/-- A reader that keeps cursors valid ensures as much. -/
lemma KeepsValid.ensures {α : Type} {m : ReadM α} (h : KeepsValid m) :
    Ensures m (fun _ => True) :=
  fun c s a s' hv hrun => ⟨h c s a s' hv hrun, True.intro⟩

/-- A returned value has the property that it has. -/
lemma Ensures.pure {α : Type} {a : α} {P : α → Prop} (h : P a) : Ensures (pure a : ReadM α) P :=
  fun _ => Upholds.pure h

/-- A sequence ensures what its second part does, given what its first part ensures. -/
lemma Ensures.bind {α β : Type} {m : ReadM α} {f : α → ReadM β} {P : α → Prop} {Q : β → Prop}
    (hm : Ensures m P) (hf : ∀ a, P a → Ensures (f a) Q) : Ensures (m >>= f) Q :=
  fun c => Upholds.bind (hm c) fun a ha => hf a ha c

/-- A failure ensures anything. -/
lemma Ensures.failHere {α : Type} {expected : String} {cause : Cause} {P : α → Prop} :
    Ensures (Reader.failHere expected cause : ReadM α) P :=
  fun _ => Upholds.failHere

/-- All items of a repetition have what the reader of items ensures. -/
lemma Ensures.readWhile {α : Type} {test : Token → Bool} {item : ReadM α} {P : α → Prop}
    (hitem : Ensures item P) : Ensures (Reader.readWhile test item) (fun as => ∀ a ∈ as, P a) :=
  fun c => Upholds.readWhile (hitem c)

end Reader

/-! ### Actions -/

/-- No expression of the field is timed, and the field is no duration. -/
def ActionField.Untimed : ActionField → Prop
  | .params _ => True
  | .duration _ => False
  | .condition e => ∀ part ∈ e.walk, ¬ part.IsTimed
  | .effect e => ∀ part ∈ e.walk, ¬ part.IsTimed

/-- An action of untimed fields has no timed parts. -/
lemma Action.ofFields_untimed {name : String} {fields : List ActionField}
    (h : ∀ field ∈ fields, field.Untimed) : (Action.ofFields name fields).TimedIfDurative := by
  have hfold : ∀ (fields : List ActionField) (action : Action),
      (∀ field ∈ fields, field.Untimed) →
      (action.duration = none ∧ (∀ part ∈ action.condition.walk, ¬ part.IsTimed) ∧
        ∀ part ∈ action.effect.walk, ¬ part.IsTimed) →
      (fields.foldl withField action).duration = none ∧
        (∀ part ∈ (fields.foldl withField action).condition.walk, ¬ part.IsTimed) ∧
        ∀ part ∈ (fields.foldl withField action).effect.walk, ¬ part.IsTimed := by
    intro fields
    induction fields with
    | nil => exact fun action _ h => h
    | cons field rest ih =>
      intro action hfields haction
      obtain ⟨hfield, hrest⟩ := List.forall_mem_cons.mp hfields
      refine ih (action.withField field) hrest ?_
      cases field with
      | params params => exact haction
      | duration constraint => exact hfield.elim
      | condition e => exact ⟨haction.1, hfield, haction.2.2⟩
      | effect e => exact ⟨haction.1, haction.2.1, hfield⟩
  have htrivial : ∀ part ∈ Expr.trivial.walk, ¬ part.IsTimed :=
    fun part hpart => (Expr.isCondition_trivial false).not_isTimed hpart
  obtain ⟨hduration, hcondition, heffect⟩ :=
    hfold fields (bare name) h ⟨rfl, htrivial, htrivial⟩
  intro body hbody part hpart htimed
  rw [bodies, show (ofFields name fields).duration = none from hduration] at hbody
  simp only [Option.toList_none, List.mem_cons, List.not_mem_nil, or_false] at hbody
  rcases hbody with rfl | rfl
  · exact absurd htimed (hcondition part hpart)
  · exact absurd htimed (heffect part hpart)

namespace Reader

/-- What is read as a condition is one. -/
lemma anyCondition_ensures (temporal : Bool) :
    Ensures (anyCondition temporal) (fun e => e.IsCondition temporal) := by
  intro c s e s' hv h
  obtain ⟨n, hn⟩ : ∃ n, Position.readWithin n (.condition temporal) c s = .ok e s' :=
    reader_eq_ok h
  obtain ⟨hclass, ts, hc, -⟩ := readWithin_sound (.condition temporal) n hv hn
  exact ⟨hc.valid, hclass⟩

/-- What is read as an effect is one. -/
lemma anyEffect_ensures (temporal : Bool) :
    Ensures (anyEffect temporal) (fun e => e.IsEffect temporal) := by
  intro c s e s' hv h
  obtain ⟨n, hn⟩ : ∃ n, Position.readWithin n (.effect temporal) c s = .ok e s' := reader_eq_ok h
  obtain ⟨hclass, ts, hc, -⟩ := readWithin_sound (.effect temporal) n hv hn
  exact ⟨hc.valid, hclass⟩

/-- The fields of an instantaneous action are untimed. -/
lemma actionField_ensures : Ensures actionField ActionField.Untimed := by
  refine .bind keepsValid_compositional.current.ensures fun _ _ => ?_
  split
  · exact .bind keepsValid_compositional.parameters.ensures fun _ _ => .pure True.intro
  · refine .bind keepsValid_compositional.advance.ensures fun _ _ => ?_
    refine .bind (anyCondition_ensures false) fun e he => .pure ?_
    exact fun part hpart => he.not_isTimed hpart
  · refine .bind keepsValid_compositional.advance.ensures fun _ _ => ?_
    refine .bind (anyEffect_ensures false) fun e he => .pure ?_
    exact fun part hpart => he.not_isTimed hpart
  · exact .failHere

/-- An instantaneous action has no timed parts. -/
lemma action_ensures : Ensures action Action.TimedIfDurative := by
  refine .bind (keepsValid_compositional.keyword _).ensures fun _ _ => ?_
  refine .bind (keepsValid_compositional.name _).ensures fun _ _ => ?_
  refine .bind (.readWhile actionField_ensures) fun fields hfields => ?_
  refine .bind (keepsValid_compositional.expect _ _).ensures fun _ _ => .pure ?_
  exact Action.ofFields_untimed hfields

/-- An action with a duration may have timed parts. -/
lemma durativeAction_ensures : Ensures durativeAction Action.TimedIfDurative := by
  refine .bind (keepsValid_compositional.keyword _).ensures fun _ _ => ?_
  refine .bind (keepsValid_compositional.require _ _).ensures fun _ _ => ?_
  refine .bind (keepsValid_compositional.name _).ensures fun _ _ => ?_
  refine .bind (keepsValid_compositional.readWhile .durativeField
    keepsValid_compositional.durativeActionField).ensures fun fields _ => ?_
  dsimp only
  split_ifs with hdurative
  · refine .bind (keepsValid_compositional.expect _ _).ensures fun _ _ => .pure ?_
    intro body _ part _ _ hnone
    rw [Action.isDurative, hnone] at hdurative
    cases hdurative
  · exact .failHere

end Reader

/-! ### Sections -/

namespace Assembly

/-- Whenever the reader succeeds on a valid cursor and sound declarations, it leaves such, and its
result has the property. -/
def Ensures {α : Type} (m : AssembleM α) (P : α → Prop) : Prop :=
  ∀ c a x a', a.cursor.Valid → a.declared.Sound → m c a = .ok x a' →
    a'.cursor.Valid ∧ a'.declared.Sound ∧ P x

/-- A reader ensures a property if it upholds valid cursors together with sound declarations. -/
lemma ensures_iff_upholds {α : Type} {m : AssembleM α} {P : α → Prop} :
    Ensures m P ↔
      ∀ c, Reader.Upholds c (fun a => a.cursor.Valid ∧ a.declared.Sound) m P := by
  simp only [Ensures, Reader.Upholds, and_imp, and_assoc]

/-- A returned value has the property that it has. -/
lemma Ensures.pure {α : Type} {x : α} {P : α → Prop} (h : P x) :
    Ensures (pure x : AssembleM α) P :=
  ensures_iff_upholds.mpr fun _ => .pure h

/-- A sequence ensures what its second part does, given what its first part ensures. -/
lemma Ensures.bind {α β : Type} {m : AssembleM α} {f : α → AssembleM β} {P : α → Prop}
    {Q : β → Prop} (hm : Ensures m P) (hf : ∀ x, P x → Ensures (f x) Q) :
    Ensures (m >>= f) Q :=
  ensures_iff_upholds.mpr fun c => .bind (ensures_iff_upholds.mp hm c) fun x hx =>
    ensures_iff_upholds.mp (hf x hx) c

/-- A reader that leaves the declarations alone ensures what it does by itself. -/
lemma Ensures.ofReader {α : Type} {m : ReadM α} {P : α → Prop} (hm : Reader.Ensures m P) :
    Ensures (Assembly.ofReader m) P := by
  intro c a x a' hv hs h
  obtain ⟨s', hrun, rfl⟩ := ofReader_eq_ok.mp h
  obtain ⟨hv', hP⟩ := hm c a.toState x s' hv hrun
  exact ⟨hv', hs, hP⟩

/-- A reader of tokens that leaves the declarations alone keeps them sound. -/
lemma Ensures.of_keepsValid {α : Type} {m : ReadM α} (hm : Reader.KeepsValid m) :
    Ensures (Assembly.ofReader m) (fun _ => True) :=
  .ofReader hm.ensures

/-- A change of the declarations ensures what keeps them sound. -/
lemma Ensures.declare {change : Declarations → Declarations}
    (h : ∀ declared : Declarations, declared.Sound → (change declared).Sound) :
    Ensures (Assembly.declare change) (fun _ => True) := by
  intro c a x a' hv hs hrun
  cases hrun
  exact ⟨hv, h _ hs, True.intro⟩

/-- Declaring a predicate keeps the declarations sound. -/
lemma declarePredicate_ensures (token : Token) (params : List TypedName) :
    Ensures (declarePredicate token params) (fun _ => True) := by
  intro c a x a' hv hs h
  obtain ⟨hnew, rfl⟩ := declarePredicate_eq_ok.mp h
  exact ⟨hv, hs.addPredicate params hnew, True.intro⟩

/-- Declaring a function keeps the declarations sound. -/
lemma declareFunction_ensures (returns : String) (skeleton : Token × List TypedName) :
    Ensures (declareFunction returns skeleton) (fun _ => True) := by
  intro c a x a' hv hs h
  obtain ⟨hnew, rfl⟩ := declareFunction_eq_ok.mp h
  exact ⟨hv, hs.addFunction skeleton.2 returns hnew, True.intro⟩

/-- Declaring functions keeps the declarations sound. -/
lemma declareFunctions_ensures (returns : String) (skeletons : List (Token × List TypedName)) :
    Ensures (declareFunctions returns skeletons) (fun _ => True) := by
  induction skeletons with
  | nil => exact .pure True.intro
  | cons skeleton rest ih => exact .bind (declareFunction_ensures returns skeleton) fun _ _ => ih

/-- A repetition of a step that keeps the declarations sound keeps them sound. -/
lemma repeatWhile_ensures {test : Token → Bool} {step : AssembleM Unit}
    (hstep : Ensures step (fun _ => True)) :
    Ensures (repeatWhile test step) (fun _ => True) :=
  ensures_iff_upholds.mpr fun c => upholds_repeatWhile (ensures_iff_upholds.mp hstep c)

/-- Reading predicates keeps the declarations sound. -/
lemma predicate_ensures : Ensures predicate (fun _ => True) :=
  .bind (.of_keepsValid Reader.keepsValid_compositional.skeleton) fun _ _ =>
    declarePredicate_ensures _ _

/-- Reading functions keeps the declarations sound. -/
lemma functionGroups_ensures (fuel : Nat) : Ensures (functionGroups fuel) (fun _ => True) := by
  have hR := Reader.keepsValid_compositional
  induction fuel with
  | zero => exact .pure True.intro
  | succ fuel ih =>
    refine .bind (.of_keepsValid (hR.readWhile .skeleton hR.skeleton)) fun _ _ => ?_
    refine .bind (.of_keepsValid hR.currentKind) fun _ _ => ?_
    split
    · split
      · exact .of_keepsValid (hR.failHere _ nofun)
      · refine .bind (.of_keepsValid hR.advance) fun _ _ => ?_
        refine .bind (.of_keepsValid (hR.name _)) fun _ _ => ?_
        exact .bind (declareFunctions_ensures _ _) fun _ _ => ih
    · exact declareFunctions_ensures _ _

/-- Adding an action that passes its check keeps the declarations sound. -/
lemma addAction_ensures {action : Action} (htimed : action.TimedIfDurative) :
    Ensures (addAction action) (fun _ => True) := by
  intro c a x a' hv hs h
  obtain ⟨hcheck, rfl⟩ := addAction_eq_ok.mp h
  exact ⟨hv, hs.addAction (Declarations.admits_of_references hcheck htimed), True.intro⟩

/-- Reading types keeps the declarations sound. -/
lemma typesBody_ensures : Ensures typesBody (fun _ => True) := by
  have hR := Reader.keepsValid_compositional
  refine .bind (.of_keepsValid (hR.typedList _ _)) fun listed _ => ?_
  intro c a x a' hv hs h
  simp only [Reader.bind_eq_ok, check_eq_ok] at h
  obtain ⟨u, a₁, hdeclare, declared, a₂, hdeclared, types, a₃, ⟨htypes, rfl⟩, u', a₄, hdeclare',
    hclose⟩ := h
  cases hdeclare
  cases hdeclared
  cases hdeclare'
  obtain ⟨t, a₅, hclose, hpure⟩ := hclose
  obtain ⟨-, rfl⟩ := Reader.pure_eq_ok.mp hpure
  obtain ⟨hv', hs', -⟩ := Ensures.of_keepsValid (hR.expect _ _) c
    { a with declared := { a.declared with
      typeDeclarations := a.declared.typeDeclarations ++ listed, types := types } } t a₅ hv
    (hs.addTypes htypes) hclose
  exact ⟨hv', hs', True.intro⟩

/-- Constants are not checked before the end, so that reading them keeps the declarations sound. -/
lemma constantsBody_ensures : Ensures constantsBody (fun _ => True) := by
  have hR := Reader.keepsValid_compositional
  refine .bind (.of_keepsValid (hR.typedList _ _)) fun listed _ => ?_
  refine .bind (.declare fun declared hs => ?_) fun _ _ => ?_
  · refine ⟨hs.types, hs.predicates, hs.functions, fun action haction => ?_⟩
    exact (hs.actions action haction).mono (fun _ h => h) (List.Subset.refl _) (List.Subset.refl _)
  · exact .bind (.of_keepsValid (hR.expect _ _)) fun _ _ => .pure True.intro

/-- Reading a section of a domain keeps the declarations sound. -/
lemma sectionOf_ensures (kind : SectionKind) : Ensures (sectionOf kind) (fun _ => True) := by
  have hR := Reader.keepsValid_compositional
  cases kind with
  | requirements =>
    refine .bind (.of_keepsValid hR.requirements) fun flags _ => .declare fun declared hs => ?_
    refine ⟨hs.types, hs.predicates, hs.functions, fun action haction => ?_⟩
    exact (hs.actions action haction).mono (fun _ h => h) (List.Subset.refl _) (List.Subset.refl _)
  | types => exact .bind (.of_keepsValid hR.advance) fun _ _ => typesBody_ensures
  | constants => exact .bind (.of_keepsValid hR.advance) fun _ _ => constantsBody_ensures
  | predicates =>
    refine .bind (.of_keepsValid hR.advance) fun _ _ => ?_
    refine .bind (repeatWhile_ensures predicate_ensures) fun _ _ => ?_
    exact .bind (.of_keepsValid (hR.expect _ _)) fun _ _ => .pure True.intro
  | functions =>
    refine .bind (.of_keepsValid hR.advance) fun _ _ => ?_
    refine .bind (.of_keepsValid (hR.require _ _)) fun _ _ => ?_
    refine .bind (.bind (.of_keepsValid Reader.keepsValid_rounds) fun _ _ =>
      functionGroups_ensures _) fun _ _ => ?_
    exact .bind (.of_keepsValid (hR.expect _ _)) fun _ _ => .pure True.intro
  | action =>
    exact .bind (.ofReader Reader.action_ensures) fun _ htimed => addAction_ensures htimed
  | durativeAction =>
    exact .bind (.ofReader Reader.durativeAction_ensures) fun _ htimed => addAction_ensures htimed

/-- Reading sections of a domain keeps the declarations sound. -/
lemma anySection_ensures : Ensures anySection (fun _ => True) := by
  have hR := Reader.keepsValid_compositional
  refine .bind (.of_keepsValid hR.current) fun _ _ => ?_
  split
  · split
    · exact sectionOf_ensures _
    · exact .of_keepsValid (hR.failHere _ nofun)
  · exact .of_keepsValid (hR.failHere _ nofun)

/-- Reads the heading and the sections of a domain, and returns its name. -/
def sections : AssembleM String := do
  let name ← Reader.header "domain" "a domain name"
  Reader.note (.domainStarted name)
  repeatWhile (Reader.hasKind .openParen) do
    let _ ← Reader.openParen
    anySection
  return name

/-- Makes a domain of the given name of what has been declared. -/
def conclude (name : String) : AssembleM Domain := do
  let types ← check (TypeHierarchy.ofDeclarationsValid (← declared?).typeDeclarations)
  declare fun declared => { declared with types := types }
  let domain := (← declared?).toDomain name
  check (Check.domainTypes domain)
  Reader.note (.domainRead name domain.actions.length)
  return domain

/-- A domain is made after its sections, the closing parenthesis and what follows it. -/
lemma domain_eq : Assembly.domain = (do
    let name ← sections
    let _ ← Reader.expect .closeParen "'(' opening a section or ')'"
    Reader.endOfDocument
    conclude name) := by
  simp only [Assembly.domain, sections, conclude, bind_assoc, pure_bind]

/-- A domain can be made if the types form a valid hierarchy and no other types are used. -/
lemma conclude_eq_ok {name : String} {c : Reader.Context} {a a' : Assembly} {domain : Domain} :
    conclude name c a = .ok domain a' ↔
      ∃ types, TypeHierarchy.ofDeclarationsValid a.declared.typeDeclarations = .ok types ∧
        domain = ({ a.declared with types := types } : Declarations).toDomain name ∧
        Check.domainTypes domain = .ok () ∧
        a' = { a with
          declared := { a.declared with types := types }
          log := a.log ++ [.domainRead name domain.actions.length] } := by
  simp only [conclude, Reader.bind_eq_ok, Reader.pure_eq_ok, check_eq_ok]
  constructor
  · rintro ⟨before, a₁, hbefore, types, a₂, ⟨htypes, rfl⟩, u, a₃, hdeclare, after, a₄, hafter, u',
      a₅, ⟨hcheck, rfl⟩, u'', a₆, hnote, rfl, rfl⟩
    cases hbefore
    cases hdeclare
    cases hafter
    cases hnote
    exact ⟨types, htypes, rfl, hcheck, rfl⟩
  · rintro ⟨types, htypes, rfl, hcheck, rfl⟩
    exact ⟨_, _, rfl, types, _, ⟨htypes, rfl⟩, _, _, rfl, _, _, rfl, _, _, ⟨hcheck, rfl⟩, _, _, rfl,
      rfl, rfl⟩

/-- A domain that is read is closed. -/
lemma domain_ensures : Ensures domain Domain.Closed := by
  have hR := Reader.keepsValid_compositional
  rw [domain_eq]
  have hsections : Ensures sections (fun _ => True) := by
    refine .bind (.of_keepsValid (hR.header _ _)) fun name _ => ?_
    refine .bind (.of_keepsValid (hR.note _ (by simp [Notice.level]))) fun _ _ => ?_
    exact .bind (repeatWhile_ensures (.bind (.of_keepsValid (hR.expect _ _)) fun _ _ =>
      anySection_ensures)) fun _ _ => .pure True.intro
  refine .bind hsections fun name _ => .bind (.of_keepsValid (hR.expect _ _)) fun _ _ => ?_
  refine .bind (.of_keepsValid hR.endOfDocument) fun _ _ => ?_
  intro c a x a' hv hs h
  obtain ⟨types, htypes, rfl, hcheck, rfl⟩ := conclude_eq_ok.mp h
  obtain ⟨heq, -⟩ := hs.types_eq htypes
  refine ⟨hv, ?_, hs.closed htypes hcheck⟩
  change Declarations.Sound { a.declared with types := types }
  rw [← heq]
  exact hs

end Assembly

namespace Domain

/-- Reading a domain succeeds as its reader does from the first token on. -/
lemma parse_eq_ok {settings : Settings} {text : String} {capacity : Nat} {domain : Domain} :
    (parse settings text capacity).result = .ok domain ↔
      ∃ cursor a', Cursor.ofText text = .ok cursor ∧
        Assembly.domain (.document settings true capacity) (Assembly.ofCursor cursor) =
          .ok domain a' := by
  unfold parse
  cases hcursor : Cursor.ofText text with
  | error error => simp
  | ok cursor =>
    cases hrun : Assembly.domain (.document settings true capacity) (Assembly.ofCursor cursor) with
    | ok found a' => simp [hrun]
    | error failure a' => simp [hrun]

/-- Every domain that is read from a text, under any settings and with any capacity, is closed. -/
theorem parse_closed (settings : Settings) (text : String) (capacity : Nat) (domain : Domain)
    (h : (parse settings text capacity).result = .ok domain) : domain.Closed := by
  obtain ⟨cursor, a', hcursor, hrun⟩ := parse_eq_ok.mp h
  have hvalid : (Assembly.ofCursor cursor).cursor.Valid := (Cursor.of_ofText hcursor).1
  exact (Assembly.domain_ensures _ (Assembly.ofCursor cursor) domain a' hvalid
    Declarations.empty_sound hrun).2.2

/-- A domain whose action uses a type that is declared after it. -/
def lateTypeText : String :=
  "(define (domain d) (:types van - car) (:predicates (p ?x - car)) " ++
    "(:action a :parameters (?x - car) :effect (not (p ?x))) (:types car))"

/-- An action may use a type that is only a parent when the action is read, if the type is declared
later. -/
theorem parse_closed_late_type :
    ∃ domain, (parse .lenient lateTypeText).result = .ok domain ∧
      domain.actions.length = 1 ∧ domain.Closed := by
  have hone : (parse .lenient lateTypeText).result.toOption.map
      (fun domain => domain.actions.length) = some 1 := by
    decide +kernel
  obtain ⟨domain, hdomain, hlength⟩ := Option.map_eq_some_iff.mp hone
  have hparse := Check.toOption_eq_some.mp hdomain
  exact ⟨domain, hparse, hlength, parse_closed _ _ _ domain hparse⟩

end Domain

end Pddl
