import Pddl.Proofs.Folding
import Pddl.Proofs.Lockstep
import Pddl.Proofs.TypeListing

/-!
# Readers of domains do not see through disguises

What the sections of a domain declare in disguise is what they declare, in disguise: the hierarchy
of types (`ofDeclarationsValid_rename`), the checks of actions (`actionReferences_rename`), and
every section as a whole (`anySection`).
-/

namespace Pddl

/-! ### Tables -/

namespace Table

variable {α : Type} {f : α → α} {key : String} {value : α} {table : Table α}

/-- The changed value of a key. -/
lemma lookup_mapValues : (table.mapValues f).lookup key = (table.lookup key).map f :=
  lookup_map fun entry => f entry.2

/-- A changed value is put in as the value is. -/
lemma put_mapValues :
    put key (f value) (table.mapValues f) = (put key value table).mapValues f := by
  unfold mapValues
  induction table with
  | nil => rfl
  | cons entry rest ih =>
    rw [List.map_cons, put, put, apply_ite (List.map _), ih]
    rfl

/-- A changed value is put in for a new key as the value is. -/
lemma putNew_mapValues :
    putNew key (f value) (table.mapValues f) = (putNew key value table).mapValues f := by
  unfold putNew
  rw [lookup_mapValues]
  cases table.lookup key with
  | some existing => rfl
  | none => exact put_mapValues

end Table

/-! ### Checks in disguise -/

/-- The value or the defect of a check in disguise. -/
def Disguise.verdict {α β : Type} (d : Disguise) (value : α → β) (outcome : Except Defect α) :
    Except Defect β :=
  (outcome.map value).mapError d.defect

/-- One check after the other. -/
lemma Disguise.verdict_bind {α β γ δ : Type} (d : Disguise) {value : α → β} {other : γ → δ}
    {x : Except Defect α} {x' : Except Defect β} {f : α → Except Defect γ}
    {f' : β → Except Defect δ} (hx : x' = d.verdict value x)
    (hf : ∀ a, x = .ok a → f' (value a) = d.verdict other (f a)) :
    (x' >>= f') = d.verdict other (x >>= f) := by
  rw [hx]
  cases x with
  | ok a => exact hf a rfl
  | error defect => rfl

/-! ### Hierarchies in disguise -/

namespace TypeHierarchy

variable (d : Disguise)

/-- The draft with its spellings changed. -/
def Draft.rename (f : String → String) (draft : Draft) : Draft :=
  ⟨draft.parents, draft.spellings.mapValues f⟩

/-- Keys that occur are folded. -/
lemma Draft.WellSpelled.fold_key {draft : Draft} (h : draft.WellSpelled) {key : String}
    (hkey : Mentions draft.parents key) : fold key = key := by
  obtain ⟨spelling, hspelling⟩ := h.spelled key hkey
  rw [← h.lower_eq key spelling hspelling, Folding.ascii_lower, fold_fold]

/-- A folded key has the changed spelling, also if it spells itself. -/
lemma getD_mapValues {spellings : Table String} {key : String} (hkey : fold key = key) :
    ((spellings.mapValues d.spell).lookup key).getD key =
      d.spell ((spellings.lookup key).getD key) := by
  rw [Table.lookup_mapValues]
  cases spellings.lookup key with
  | some spelling => rfl
  | none => exact (d.spell_of_folded key hkey).symm

/-- A declaration in disguise changes the draft as the declaration does. -/
lemma Draft.WellSpelled.declare_rename {draft : Draft} (h : draft.WellSpelled)
    (type parent : String) :
    (draft.rename d.spell).declare (d.spell type) (d.spell parent) =
      d.verdict (Draft.rename d.spell) (draft.declare type parent) := by
  have hparents : (draft.rename d.spell).parents = draft.parents := rfl
  have hspellings : (draft.rename d.spell).spellings = draft.spellings.mapValues d.spell := rfl
  unfold Draft.declare
  simp only [Folding.ascii_lower, d.fold_spell, hparents, hspellings, Table.putNew_mapValues]
  by_cases hroot : fold type = rootType
  · simp only [if_pos hroot]
    split_ifs <;> rfl
  · simp only [if_neg hroot]
    cases hexisting : draft.parents.lookup (fold type) with
    | none => rfl
    | some existing =>
      have hmem := Table.mem_of_lookup hexisting
      have hfold : fold existing = existing := h.fold_key (Or.inr ⟨_, hmem, Or.inr rfl⟩)
      simp only [getD_mapValues d hfold]
      split_ifs <;> rfl

/-- Declarations in disguise change the draft as the declarations do. -/
lemma Draft.WellSpelled.foldlM_rename (declarations : List TypedName) :
    ∀ {draft : Draft}, draft.WellSpelled →
      (declarations.map (TypedName.rename d.spell)).foldlM Draft.add (draft.rename d.spell) =
        d.verdict (Draft.rename d.spell) (declarations.foldlM Draft.add draft) := by
  induction declarations with
  | nil => exact fun _ => rfl
  | cons declaration rest ih =>
    intro draft h
    have hadd : (draft.rename d.spell).add (declaration.rename d.spell) =
        d.verdict (Draft.rename d.spell) (draft.add declaration) := by
      obtain ⟨name, type⟩ := declaration
      cases type with
      | named parent => exact h.declare_rename d name parent
      | either options => rfl
    rw [List.map_cons, List.foldlM_cons, List.foldlM_cons]
    exact d.verdict_bind hadd fun after hafter => ih (h.add hafter)

/-- The hierarchy of tables in disguise. -/
lemma ofTables_rename {parents spellings : Table String}
    (h : ∀ key, Mentions parents key → fold key = key) :
    ofTables parents (spellings.mapValues d.spell) =
      (ofTables parents spellings).rename d.spell := by
  unfold ofTables rename Table.mapValues
  simp only [TypeHierarchy.mk.injEq, true_and, List.map_map]
  refine List.map_congr_left fun entry hentry => ?_
  obtain ⟨hmem, hself⟩ := mem_plain hentry
  rw [Function.comp_apply, hself]
  exact congrArg (Prod.mk entry.1) (getD_mapValues d (h entry.1 (mentions_iff_mem.mpr hmem)))

/-- The hierarchy of declarations in disguise. -/
lemma ofDeclarations_rename (declarations : List TypedName) :
    ofDeclarations (declarations.map (TypedName.rename d.spell)) =
      d.verdict (rename d.spell) (ofDeclarations declarations) := by
  have hstart : Draft.start.rename d.spell = Draft.start := by
    unfold Draft.rename Draft.start Table.mapValues
    rw [List.map_cons, d.spell_of_folded rootType (by decide), List.map_nil]
  have hrun := Draft.WellSpelled.foldlM_rename d declarations Draft.start_wellSpelled
  rw [hstart] at hrun
  refine d.verdict_bind hrun fun draft hdraft => ?_
  have hspelled := Draft.start_wellSpelled.foldlM hdraft
  exact congrArg Except.ok (ofTables_rename d fun key hkey => hspelled.fold_key hkey)

/-- Types of a cycle occur in the hierarchy. -/
lemma mentions_of_cycleFrom {types : TypeHierarchy} :
    ∀ (fuel : Nat) {chain : List String} {current : String} {cycle : List String},
      types.cycleFrom fuel chain current = some cycle →
      (∀ key ∈ chain, Mentions types.parents key) → ∀ key ∈ cycle, Mentions types.parents key := by
  intro fuel
  induction fuel with
  | zero =>
    intro chain current cycle h
    cases h
  | succ fuel ih =>
    intro chain current cycle h hchain
    unfold cycleFrom at h
    split_ifs at h
    split at h
    · cases h
    · rename_i parent hparent
      have hmentions : ∀ key ∈ chain ++ [parent], Mentions types.parents key := by
        intro key hkey
        rcases List.mem_append.mp hkey with hkey | hkey
        · exact hchain key hkey
        · rw [List.mem_singleton.mp hkey]
          exact Or.inr ⟨_, Table.mem_of_lookup hparent, Or.inr rfl⟩
      split_ifs at h
      · cases h
        exact hmentions
      · exact ih h hmentions

/-- A hierarchy in disguise is valid if the hierarchy is, and has the same defects. -/
lemma validate_rename {types : TypeHierarchy}
    (h : ∀ key, Mentions types.parents key → fold key = key) :
    (types.rename d.spell).validate = d.verdict id types.validate := by
  have hspelling : ∀ key, Mentions types.parents key →
      (types.rename d.spell).spelling key = d.spell (types.spelling key) :=
    fun key hkey => getD_mapValues d (h key hkey)
  have horphan : (types.rename d.spell).orphan? = types.orphan? := rfl
  have hcycle : (types.rename d.spell).cycle? = types.cycle? := by
    have hfrom : ∀ (fuel : Nat) (chain : List String) (current : String),
        (types.rename d.spell).cycleFrom fuel chain current =
          types.cycleFrom fuel chain current := by
      intro fuel
      induction fuel with
      | zero => exact fun _ _ => rfl
      | succ fuel ih =>
        intro chain current
        simp only [cycleFrom, ih]
        rfl
    unfold cycle?
    simp only [hfrom]
    rfl
  unfold validate
  rw [horphan, hcycle]
  cases hfound : types.orphan? with
  | some entry =>
    have hmem := List.mem_of_find?_eq_some hfound
    simp only [hspelling entry.1 (Or.inr ⟨entry, hmem, Or.inl rfl⟩),
      hspelling entry.2 (Or.inr ⟨entry, hmem, Or.inr rfl⟩)]
    rfl
  | none =>
    cases hchain : types.cycle? with
    | none => rfl
    | some chain =>
      obtain ⟨entry, hentry, hfrom⟩ := List.exists_of_findSome?_eq_some hchain
      have hmentions : ∀ key ∈ chain, Mentions types.parents key := by
        refine mentions_of_cycleFrom _ hfrom fun key hkey => ?_
        rw [List.mem_singleton.mp hkey]
        exact Or.inr ⟨entry, hentry, Or.inl rfl⟩
      have hmap : chain.map (types.rename d.spell).spelling =
          (chain.map types.spelling).map d.spell := by
        rw [List.map_map]
        exact List.map_congr_left fun key hkey => hspelling key (hmentions key hkey)
      exact congrArg (fun chain => Except.error (Defect.cycle chain)) hmap

/-- The valid hierarchy of declarations in disguise. -/
lemma ofDeclarationsValid_rename (declarations : List TypedName) :
    ofDeclarationsValid (declarations.map (TypedName.rename d.spell)) =
      d.verdict (rename d.spell) (ofDeclarationsValid declarations) := by
  refine d.verdict_bind (ofDeclarations_rename d declarations) fun types htypes => ?_
  have hfolded : ∀ key, Mentions types.parents key → fold key = key := by
    obtain ⟨draft, hdraft, hpure⟩ := Check.bind_eq_ok.mp htypes
    cases hpure
    exact fun key hkey => (Draft.start_wellSpelled.foldlM hdraft).fold_key hkey
  exact d.verdict_bind (validate_rename d hfolded) fun _ _ => rfl

/-- A type in disguise is in the hierarchy in disguise if it is in the hierarchy. -/
lemma contains_rename (types : TypeHierarchy) (type : String) :
    (types.rename d.spell).contains (d.spell type) = types.contains type := by
  have hspellings : (types.rename d.spell).spellings = types.spellings.mapValues d.spell := rfl
  unfold contains
  rw [hspellings, Folding.ascii_lower, Folding.ascii_lower, d.fold_spell, Table.lookup_mapValues,
    Option.isSome_map]

end TypeHierarchy

/-! ### References in disguise -/

namespace Check

variable (d : Disguise)

/-- Checks of a list in disguise. -/
lemma each_map {α β : Type} {value : α → β} {check : α → Except Defect Unit}
    {check' : β → Except Defect Unit} {xs : List α}
    (h : ∀ x ∈ xs, check' (value x) = d.verdict id (check x)) :
    each check' (xs.map value) = d.verdict id (each check xs) := by
  induction xs with
  | nil => rfl
  | cons x rest ih =>
    rw [List.forall_mem_cons] at h
    rw [List.map_cons, each, each]
    exact d.verdict_bind h.1 fun _ _ => ih h.2

/-- Types of entities in disguise. -/
lemma declaredTypes_rename (types : TypeHierarchy) (site : Site) (entities : List TypedName) :
    declaredTypes (types.rename d.spell) (site.rename d.spell)
        (entities.map (TypedName.rename d.spell)) =
      d.verdict id (declaredTypes types site entities) := by
  refine each_map d fun entity _ => ?_
  have hoptions : (entity.rename d.spell).type.options = entity.type.options.map d.spell :=
    entity.type.options_rename
  unfold entityTypes
  rw [hoptions]
  refine each_map d fun type _ => ?_
  rw [TypeHierarchy.contains_rename]
  split_ifs <;> rfl

/-- Types of quantified variables in disguise. -/
lemma quantifierTypes_rename (types : TypeHierarchy) (site : Site) (e : Expr) :
    quantifierTypes (types.rename d.spell) (site.rename d.spell) (e.rename d.spell) =
      d.verdict id (quantifierTypes types site e) := by
  cases e with
  | quantified quantifier vars operand => exact declaredTypes_rename d types site vars
  | _ => rfl

/-- A name in disguise finds a predicate in disguise if the name finds the predicate. -/
lemma findPredicate?_rename (predicates : List Predicate) (name : String) :
    findPredicate? (predicates.map (Predicate.rename d.spell)) (d.spell name) =
      (findPredicate? predicates name).map (Predicate.rename d.spell) := by
  unfold findPredicate?
  rw [List.find?_map]
  simp only [Function.comp_def, Predicate.rename, d.fold_spell]

/-- A name in disguise finds a function in disguise if the name finds the function. -/
lemma findFunction?_rename (functions : List Function) (name : String) :
    findFunction? (functions.map (Function.rename d.spell)) (d.spell name) =
      (findFunction? functions name).map (Function.rename d.spell) := by
  unfold findFunction?
  rw [List.find?_map]
  simp only [Function.comp_def, Function.rename, d.fold_spell]

/-- An atom in disguise names what the atom does. -/
lemma reference_rename (predicates : List Predicate) (functions : List Function) (site : Site)
    (atom : Atom × Bool) :
    reference (predicates.map (Predicate.rename d.spell))
        (functions.map (Function.rename d.spell)) (site.rename d.spell)
        (atom.1.rename d.spell, atom.2) =
      d.verdict id (reference predicates functions site atom) := by
  obtain ⟨atom, numeric⟩ := atom
  unfold reference
  simp only [Atom.name_rename, findPredicate?_rename, findFunction?_rename]
  cases numeric with
  | true => cases findFunction? functions atom.name <;> rfl
  | false => cases findPredicate? predicates atom.name <;> rfl

/-- An action in disguise uses what the action does. -/
lemma actionReferences_rename (types : TypeHierarchy) (predicates : List Predicate)
    (functions : List Function) (action : Action) :
    actionReferences (types.rename d.spell) (predicates.map (Predicate.rename d.spell))
        (functions.map (Function.rename d.spell)) (action.rename d.spell) =
      d.verdict id (actionReferences types predicates functions action) := by
  unfold actionReferences
  refine d.verdict_bind (declaredTypes_rename d types (.action action.name) action.params)
    fun _ _ => ?_
  rw [Action.bodies_rename]
  refine each_map d fun body _ => ?_
  rw [Expr.walk_rename, Expr.references_rename]
  refine d.verdict_bind (each_map d fun e _ => ?_) fun _ _ => each_map d fun atom _ => ?_
  · exact quantifierTypes_rename d types (.action action.name) e
  · exact reference_rename d predicates functions (.action action.name) atom

end Check

/-! ### Assembling a domain in disguise -/

namespace Disguise

variable (d : Disguise) {α β : Type}

/-- The assembly of a domain from tokens in disguise. -/
def assembly (a : Assembly) : Assembly where
  toState := d.state a.toState
  declared := a.declared.rename d.spell

/-- Nothing is declared, in disguise or not. -/
lemma assembly_ofCursor (cursor : Cursor) :
    d.assembly (.ofCursor cursor) = .ofCursor (d.cursor cursor) := by
  have hempty : TypeHierarchy.empty.rename d.spell = TypeHierarchy.empty := by
    rw [TypeHierarchy.empty, ← TypeHierarchy.ofTables_rename d]
    · rfl
    · rintro key (rfl | ⟨entry, hentry, -⟩)
      · decide
      · cases hentry
  unfold assembly Assembly.ofCursor Declarations.rename Declarations.empty
  rw [hempty]
  rfl

/-- The second reader of domains does on disguised tokens and declarations what the first one does
on the tokens and declarations. -/
abbrev Assembles {α β : Type} (value : α → β) (m : AssembleM α) (m' : AssembleM β) : Prop :=
  Commutes d.failure d.assembly value m m'

/-- Readers that leave the declarations alone. -/
lemma ofReader {value : α → β} {m : ReadM α} {m' : ReadM β} (h : d.Tracks value m m') :
    d.Assembles value (Assembly.ofReader m) (Assembly.ofReader m') := by
  intro c a
  have hrun : m' c (d.assembly a).toState = mapResult d.failure d.state value (m c a.toState) :=
    h c a.toState
  unfold Assembly.ofReader
  rw [hrun]
  cases m c a.toState <;> rfl

/-- Changing the declarations. -/
lemma declare {change change' : Declarations → Declarations}
    (h : ∀ declared, change' (declared.rename d.spell) = (change declared).rename d.spell) :
    d.Assembles id (Assembly.declare change) (Assembly.declare change') := by
  intro c a
  exact congrArg (fun declared => EStateM.Result.ok () { d.assembly a with declared := declared })
    (h a.declared)

/-- Looking at the declarations. -/
lemma declared? :
    d.Assembles (Declarations.rename d.spell) Assembly.declared? Assembly.declared? :=
  fun _ _ => rfl

/-- Making a check. -/
lemma check {value : α → β} {outcome : Except Defect α} {outcome' : Except Defect β}
    (h : outcome' = d.verdict value outcome) :
    d.Assembles value (Assembly.check outcome) (Assembly.check outcome') := by
  rw [h]
  cases outcome with
  | ok a => exact Commutes.pure rfl
  | error defect => exact Commutes.throw rfl

/-- Repeating a step. -/
lemma repeatFuel {test : Token → Bool} {step : AssembleM Unit}
    (htest : ∀ token, test (d.token token) = test token) (hstep : d.Assembles id step step)
    (fuel : Nat) :
    d.Assembles id (Assembly.whileFuel test step fuel) (Assembly.whileFuel test step fuel) := by
  induction fuel with
  | zero => exact Commutes.pure rfl
  | succ fuel ih =>
    refine (d.ofReader d.current).bind fun token => ?_
    rw [htest]
    split
    · exact hstep.andThen fun _ => ih
    · exact Commutes.pure rfl

/-- Repeating a step as often as there are tokens. -/
lemma repeatWhile {test : Token → Bool} {step : AssembleM Unit}
    (htest : ∀ token, test (d.token token) = test token) (hstep : d.Assembles id step step) :
    d.Assembles id (Assembly.repeatWhile test step) (Assembly.repeatWhile test step) :=
  (d.ofReader d.rounds).andThen fun fuel => d.repeatFuel htest hstep fuel

/-! ### Predicates and functions -/

/-- The name and the parameters of a predicate or function in disguise. -/
def skeletonOf (skeleton : Token × List TypedName) : Token × List TypedName :=
  (d.token skeleton.1, skeleton.2.map (TypedName.rename d.spell))

/-- Reading the name and the parameters of a predicate or function. -/
lemma skeleton : d.Tracks d.skeletonOf Assembly.skeleton Assembly.skeleton := by
  refine (d.expect _ _).bind fun _ => (d.expect _ _).bind fun name => ?_
  refine (d.typedList _ _).bind fun params => (d.expect _ _).bind fun _ => Commutes.pure rfl

/-- Declaring a predicate. -/
lemma declarePredicate (token : Token) (params : List TypedName) :
    d.Assembles id (Assembly.declarePredicate token params)
      (Assembly.declarePredicate (d.token token) (params.map (TypedName.rename d.spell))) := by
  refine d.declared?.bind fun declared => ?_
  have hfind : findPredicate? (declared.rename d.spell).predicates (d.token token).text =
      (findPredicate? declared.predicates token.text).map (Predicate.rename d.spell) :=
    Check.findPredicate?_rename d declared.predicates token.text
  rw [hfind]
  cases findPredicate? declared.predicates token.text with
  | some predicate => exact Commutes.throw rfl
  | none =>
    refine d.declare fun declared => ?_
    simp [Declarations.rename, Predicate.rename, Disguise.token]

/-- Declaring a function. -/
lemma declareFunction (returns : String) (skeleton : Token × List TypedName) :
    d.Assembles id (Assembly.declareFunction returns skeleton)
      (Assembly.declareFunction (d.spell returns) (d.skeletonOf skeleton)) := by
  obtain ⟨token, params⟩ := skeleton
  refine d.declared?.bind fun declared => ?_
  have hfind : findFunction? (declared.rename d.spell).functions (d.token token).text =
      (findFunction? declared.functions token.text).map (Function.rename d.spell) :=
    Check.findFunction?_rename d declared.functions token.text
  dsimp only [skeletonOf]
  rw [hfind]
  cases findFunction? declared.functions token.text with
  | some function => exact Commutes.throw rfl
  | none =>
    refine d.declare fun declared => ?_
    simp [Declarations.rename, Function.rename, Disguise.token]

/-- Declaring functions. -/
lemma declareFunctions (returns : String) (skeletons : List (Token × List TypedName)) :
    d.Assembles id (Assembly.declareFunctions returns skeletons)
      (Assembly.declareFunctions (d.spell returns) (skeletons.map d.skeletonOf)) := by
  induction skeletons with
  | nil => exact Commutes.pure rfl
  | cons skeleton rest ih => exact (d.declareFunction returns skeleton).andThen fun _ => ih

/-- Reading and declaring a predicate. -/
lemma predicate : d.Assembles id Assembly.predicate Assembly.predicate :=
  (d.ofReader d.skeleton).bind fun skeleton => d.declarePredicate skeleton.1 skeleton.2

/-- Reading and declaring groups of functions. -/
lemma functionGroups (fuel : Nat) :
    d.Assembles id (Assembly.functionGroups fuel) (Assembly.functionGroups fuel) := by
  have hnumber : d.spell numberType = numberType := d.spell_of_folded numberType (by decide)
  induction fuel with
  | zero => exact Commutes.pure rfl
  | succ fuel ih =>
    refine (d.ofReader (d.readWhile (fun _ => rfl) d.skeleton)).bind fun skeletons => ?_
    refine (d.ofReader d.currentKind).andThen fun kind => ?_
    rw [List.isEmpty_map]
    split
    · split
      · exact d.ofReader (d.failHere _ _)
      · refine (d.ofReader d.advance).bind fun _ => (d.ofReader (d.name _)).bind fun returns => ?_
        exact (d.declareFunctions returns skeletons).andThen fun _ => ih
    · have hdeclare := d.declareFunctions numberType skeletons
      rwa [hnumber] at hdeclare

/-! ### Sections -/

/-- Adding an action. -/
lemma addAction (action : Action) :
    d.Assembles id (Assembly.addAction action) (Assembly.addAction (action.rename d.spell)) := by
  refine d.declared?.bind fun declared => ?_
  refine (d.check (Check.actionReferences_rename d declared.types declared.predicates
    declared.functions action)).andThen fun _ => ?_
  refine (d.declare fun declared => ?_).andThen fun _ => ?_
  · simp [Declarations.rename]
  · exact d.ofReader (d.note (.actionRead action.name))

/-- Reading types. -/
lemma typesBody : d.Assembles id Assembly.typesBody Assembly.typesBody := by
  refine (d.ofReader (d.typedList _ _)).bind fun listed => ?_
  refine (d.declare fun declared => ?_).andThen fun _ => d.declared?.bind fun declared => ?_
  · simp [Declarations.rename]
  refine (d.check (TypeHierarchy.ofDeclarations_rename d declared.typeDeclarations)).bind
    fun types => (d.declare fun declared => ?_).andThen fun _ => ?_
  · rfl
  · exact (d.ofReader (d.expect _ _)).bind fun _ => Commutes.pure rfl

/-- Reading constants. -/
lemma constantsBody : d.Assembles id Assembly.constantsBody Assembly.constantsBody := by
  refine (d.ofReader (d.typedList _ _)).bind fun listed => ?_
  refine (d.declare fun declared => ?_).andThen fun _ => ?_
  · simp [Declarations.rename]
  exact (d.ofReader (d.expect _ _)).bind fun _ => Commutes.pure rfl

/-- Reading a section of a domain by its kind. -/
lemma sectionOf (kind : Assembly.SectionKind) :
    d.Assembles id (Assembly.sectionOf kind) (Assembly.sectionOf kind) := by
  cases kind with
  | requirements =>
    exact (d.ofReader d.requirements).andThen fun _ => d.declare fun _ => rfl
  | types => exact (d.ofReader d.advance).bind fun _ => d.typesBody
  | constants => exact (d.ofReader d.advance).bind fun _ => d.constantsBody
  | predicates =>
    refine (d.ofReader d.advance).bind fun _ => ?_
    refine (d.repeatWhile (fun _ => rfl) d.predicate).andThen fun _ => ?_
    exact (d.ofReader (d.expect _ _)).bind fun _ => Commutes.pure rfl
  | functions =>
    refine (d.ofReader d.advance).bind fun token => ?_
    refine (d.ofReader (d.require token _)).andThen fun _ => ?_
    refine ((d.ofReader d.rounds).andThen fun fuel => d.functionGroups fuel).andThen fun _ => ?_
    exact (d.ofReader (d.expect _ _)).bind fun _ => Commutes.pure rfl
  | action => exact (d.ofReader d.action).bind fun action => d.addAction action
  | durativeAction => exact (d.ofReader d.durativeAction).bind fun action => d.addAction action

/-- Reading a section of a domain. -/
lemma anySection : d.Assembles id Assembly.anySection Assembly.anySection := by
  refine (d.ofReader d.current).bind fun token => ?_
  rw [isKeyword_token, key_token]
  split
  · cases Assembly.SectionKind.ofKey? token.key with
    | some kind => exact d.sectionOf kind
    | none => exact d.ofReader (d.failHere _ _)
  · exact d.ofReader (d.failHere _ _)

end Disguise

end Pddl
