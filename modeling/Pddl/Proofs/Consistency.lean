import Pddl.Proofs.Calls
import Pddl.Proofs.DomainRoundTrip
import Pddl.Proofs.Expansion

/-!
# Parsers of domains stay consistent

The sections of a domain change its declarations piece by piece, and a call may fail between two
changes.  Nevertheless the declarations are `Consistent` with each other and with the flags after
every call, and every call only extends them (`Extends`), whatever its outcome.  Both are shown of
each change; a call makes a sequence of changes, of which a failure makes a shorter one (`Leads`).
The hierarchy of types is made anew each time, from more declarations.  A section that declares a
conflict leaves its declarations without a hierarchy of them, so the hierarchy is only that of the
declarations up to some point.
-/

namespace Pddl

/-! ### Consistent declarations -/

/-- An action that passes the check of its references passes it when more is declared. -/
lemma Check.actionReferences_mono {types types' : TypeHierarchy}
    {predicates predicates' : List Predicate} {functions functions' : List Function}
    {action : Action} (h : actionReferences types predicates functions action = .ok ())
    (htypes : ∀ type, types.contains type = true → types'.contains type = true)
    (hpredicates : predicates ⊆ predicates') (hfunctions : functions ⊆ functions') :
    actionReferences types' predicates' functions' action = .ok () := by
  have hdeclaredTypes : ∀ {site : Site} {entities : List TypedName},
      declaredTypes types site entities = .ok () → declaredTypes types' site entities = .ok () :=
    fun hall => declaredTypes_eq_ok.mpr fun entity hentity type htype =>
      htypes type (declaredTypes_eq_ok.mp hall entity hentity type htype)
  have hreference : ∀ {site : Site} {use : Atom × Bool},
      reference predicates functions site use = .ok () →
        reference predicates' functions' site use = .ok () := by
    rintro site ⟨atom, numeric⟩ huse
    refine reference_of_isDeclared ?_
    have hdeclared := isDeclared_of_reference huse
    unfold IsDeclared at hdeclared ⊢
    split_ifs at hdeclared ⊢
    · exact hdeclared.imp fun _ hfunction => hfunction.imp_left fun hmem => hfunctions hmem
    · exact hdeclared.imp fun _ hpredicate => hpredicate.imp_left fun hmem => hpredicates hmem
  obtain ⟨_, hparams, hbodies⟩ := bind_eq_ok.mp h
  refine bind_eq_ok.mpr ⟨(), hdeclaredTypes hparams, each_eq_ok.mpr fun body hbody => ?_⟩
  obtain ⟨_, hquantified, hreferences⟩ := bind_eq_ok.mp (each_eq_ok.mp hbodies body hbody)
  refine bind_eq_ok.mpr ⟨(), each_eq_ok.mpr fun part hpart => ?_, each_eq_ok.mpr fun use huse => ?_⟩
  · have hpartTypes := each_eq_ok.mp hquantified part hpart
    cases part with
    | quantified quantifier vars operand => exact hdeclaredTypes hpartTypes
    | _ => rfl
  · exact hreference (each_eq_ok.mp hreferences use huse)

namespace Declarations

variable {declared more most : Declarations} {flags : List String}

/-- The names of predicates are different, and so are those of functions, up to case; every action
passes the check of its references against what is declared; the types are those of the
declarations up to some point; and the flags have `:strips` and all that the listed ones expand
to. -/
structure Consistent (declared : Declarations) (flags : List String) : Prop where
  predicates : (declared.predicates.map fun predicate => fold predicate.name).Nodup
  functions : (declared.functions.map fun function => fold function.name).Nodup
  actions : ∀ action ∈ declared.actions,
    Check.actionReferences declared.types declared.predicates declared.functions action = .ok ()
  types : ∃ before, before <+: declared.typeDeclarations ∧
    TypeHierarchy.ofDeclarations before = .ok declared.types
  strips : ":strips" ∈ flags
  expanded : Requirement.expand declared.requirements ⊆ flags

/-- Everything that is declared is declared by `more` too, lists of it in the same places. -/
structure Extends (declared more : Declarations) : Prop where
  requirements : declared.requirements ⊆ more.requirements
  typeDeclarations : declared.typeDeclarations <+: more.typeDeclarations
  types : ∀ type, declared.types.contains type = true → more.types.contains type = true
  constants : declared.constants <+: more.constants
  predicates : declared.predicates <+: more.predicates
  functions : declared.functions <+: more.functions
  actions : declared.actions <+: more.actions

/-- Declarations extend themselves. -/
lemma Extends.refl (declared : Declarations) : declared.Extends declared where
  requirements := List.Subset.refl _
  typeDeclarations := List.prefix_rfl
  types := fun _ h => h
  constants := List.prefix_rfl
  predicates := List.prefix_rfl
  functions := List.prefix_rfl
  actions := List.prefix_rfl

/-- Declarations that extend extensions are extensions. -/
lemma Extends.trans (h : declared.Extends more) (h' : more.Extends most) :
    declared.Extends most where
  requirements := List.Subset.trans h.requirements h'.requirements
  typeDeclarations := h.typeDeclarations.trans h'.typeDeclarations
  types := fun type htype => h'.types type (h.types type htype)
  constants := h.constants.trans h'.constants
  predicates := h.predicates.trans h'.predicates
  functions := h.functions.trans h'.functions
  actions := h.actions.trans h'.actions

/-- Actions that pass the check of their references still pass it in an extension. -/
lemma Consistent.actions_of_extends (h : declared.Consistent flags)
    (hmore : declared.Extends more) :
    ∀ action ∈ declared.actions,
      Check.actionReferences more.types more.predicates more.functions action = .ok () :=
  fun action haction => Check.actionReferences_mono (h.actions action haction) hmore.types
    hmore.predicates.subset hmore.functions.subset

/-- Nothing declared is consistent with the first flags. -/
lemma empty_consistent : empty.Consistent Assembly.initialRequirements where
  predicates := List.nodup_nil
  functions := List.nodup_nil
  actions := fun _ h => absurd h List.not_mem_nil
  types := ⟨[], List.prefix_rfl, rfl⟩
  strips := List.mem_singleton_self _
  expanded := by simp [empty, Requirement.expand, Requirement.expandFrom]

/-- More flags are consistent with the same declarations. -/
lemma Consistent.mono {flags' : List String} (h : declared.Consistent flags)
    (hflags : flags ⊆ flags') : declared.Consistent flags' :=
  { h with
    strips := hflags h.strips
    expanded := List.Subset.trans h.expanded hflags }

/-! ### Changes -/

/-- The declarations and flags afterwards are consistent if those before are, and extend them. -/
structure Advances (declared : Declarations) (flags : List String) (after : Declarations)
    (flags' : List String) : Prop where
  gains : flags ⊆ flags'
  keeps : declared.Consistent flags → after.Consistent flags' ∧ declared.Extends after

/-- Nothing changes. -/
lemma Advances.refl (declared : Declarations) (flags : List String) :
    declared.Advances flags declared flags :=
  ⟨List.Subset.refl _, fun h => ⟨h, .refl declared⟩⟩

/-- One change after another. -/
lemma Advances.trans {flags' flags'' : List String} (h : declared.Advances flags more flags')
    (h' : more.Advances flags' most flags'') : declared.Advances flags most flags'' where
  gains := List.Subset.trans h.gains h'.gains
  keeps := fun hdeclared =>
    have hmore := h.keeps hdeclared
    have hmost := h'.keeps hmore.1
    ⟨hmost.1, hmore.2.trans hmost.2⟩

/-- A predicate of a new name is declared. -/
lemma Advances.addPredicate {name : String} (params : List TypedName)
    (hnew : findPredicate? declared.predicates name = none) :
    declared.Advances flags
      { declared with predicates := declared.predicates ++ [⟨name, params⟩] } flags where
  gains := List.Subset.refl _
  keeps := fun h => by
    have hmore : declared.Extends
        { declared with predicates := declared.predicates ++ [⟨name, params⟩] } :=
      { Extends.refl declared with predicates := List.prefix_append _ _ }
    refine ⟨{ h with predicates := ?_, actions := h.actions_of_extends hmore }, hmore⟩
    exact nodup_addPredicate params h.predicates hnew

/-- A function of a new name is declared. -/
lemma Advances.addFunction {name : String} (params : List TypedName) (returns : String)
    (hnew : findFunction? declared.functions name = none) :
    declared.Advances flags
      { declared with functions := declared.functions ++ [⟨name, params, returns⟩] } flags where
  gains := List.Subset.refl _
  keeps := fun h => by
    have hmore : declared.Extends
        { declared with functions := declared.functions ++ [⟨name, params, returns⟩] } :=
      { Extends.refl declared with functions := List.prefix_append _ _ }
    refine ⟨{ h with functions := ?_, actions := h.actions_of_extends hmore }, hmore⟩
    exact nodup_addFunction params returns h.functions hnew

/-- Constants are declared. -/
lemma Advances.addConstants (listed : List TypedName) :
    declared.Advances flags { declared with constants := declared.constants ++ listed } flags where
  gains := List.Subset.refl _
  keeps := fun h =>
    ⟨{ h with }, { Extends.refl declared with constants := List.prefix_append _ _ }⟩

/-- Types are listed; the hierarchy is still without them. -/
lemma Advances.listTypes (listed : List TypedName) :
    declared.Advances flags
      { declared with typeDeclarations := declared.typeDeclarations ++ listed } flags where
  gains := List.Subset.refl _
  keeps := fun h => by
    obtain ⟨before, hbefore, htypes⟩ := h.types
    have hlonger : before <+: declared.typeDeclarations ++ listed :=
      hbefore.trans (List.prefix_append _ _)
    exact ⟨{ h with types := ⟨before, hlonger, htypes⟩ },
      { Extends.refl declared with typeDeclarations := List.prefix_append _ _ }⟩

/-- The hierarchy is made of all types that are listed. -/
lemma Advances.setTypes {types : TypeHierarchy}
    (htypes : TypeHierarchy.ofDeclarations declared.typeDeclarations = .ok types) :
    declared.Advances flags { declared with types := types } flags where
  gains := List.Subset.refl _
  keeps := fun h => by
    obtain ⟨before, ⟨others, hothers⟩, hbefore⟩ := h.types
    have hmore : declared.Extends { declared with types := types } :=
      { Extends.refl declared with
        types := fun _ htype =>
          TypeHierarchy.contains_of_append hbefore (hothers ▸ htypes) htype }
    exact ⟨{ h with
      types := ⟨_, List.prefix_rfl, htypes⟩
      actions := h.actions_of_extends hmore }, hmore⟩

/-- An action that passes the check of its references is added. -/
lemma Advances.addAction {action : Action}
    (hcheck : Check.actionReferences declared.types declared.predicates declared.functions action =
      .ok ()) :
    declared.Advances flags { declared with actions := declared.actions ++ [action] } flags where
  gains := List.Subset.refl _
  keeps := fun h => by
    have hall := List.forall_mem_append.mpr ⟨h.actions, List.forall_mem_singleton.mpr hcheck⟩
    exact ⟨{ h with actions := hall },
      { Extends.refl declared with actions := List.prefix_append _ _ }⟩

/-- Flags hold that are not listed. -/
lemma Advances.addFlags {flags' : List String} (h : flags ⊆ flags') :
    declared.Advances flags declared flags' :=
  ⟨h, fun hdeclared => ⟨hdeclared.mono h, .refl declared⟩⟩

/-- Flags are listed after they and what they imply hold. -/
lemma Advances.listFlags {listed : List String} (hlisted : Requirement.expand listed ⊆ flags) :
    declared.Advances flags
      { declared with requirements := Text.union declared.requirements listed } flags where
  gains := List.Subset.refl _
  keeps := fun h => by
    have hunion : Text.union declared.requirements listed ⊆ declared.requirements ++ listed :=
      fun _ hflag => List.mem_append.mpr (Text.mem_union.mp hflag)
    refine ⟨{ h with expanded := ?_ }, { Extends.refl declared with requirements := ?_ }⟩
    · exact List.Subset.trans (Requirement.expand_subset_append hunion)
        (List.append_subset.mpr ⟨h.expanded, hlisted⟩)
    · exact fun _ hflag => Text.mem_union.mpr (Or.inl hflag)

end Declarations

/-! ### What a run leads to -/

namespace Reader

/-- No flag is lost. -/
def State.GainsFlags (s s' : State) : Prop :=
  s.requirements ⊆ s'.requirements

/-- No step loses a flag. -/
lemma steps_gainsFlags : Steps State.GainsFlags where
  refl := fun _ => List.Subset.refl _
  trans := List.Subset.trans
  peek := .onCursor (fun _ => List.Subset.refl _) fun _ => List.Subset.refl _
  advance := .onCursor (fun _ => List.Subset.refl _) fun _ => List.Subset.refl _
  note := fun _ _ => List.Subset.refl _
  declare := fun _ _ _ hflag => Text.mem_union.mpr (Or.inl hflag)
  level := fun _ _ h => h

/-- No reader loses a flag. -/
lemma gainsFlags_compositional : Compositional (Leads State.GainsFlags) :=
  steps_gainsFlags.compositional

/-- The flags of a section hold after it, with all that they imply. -/
lemma expand_subset_of_requirements {c : Context} {s s' : State} {listed : List String}
    (h : requirements c s = .ok listed s') : Requirement.expand listed ⊆ s'.requirements := by
  simp only [requirements, bind_eq_ok, pure_eq_ok] at h
  obtain ⟨opener, s₁, -, flags, s₂, -, closing, s₃, -, u, s₄, hdeclare, u', s₅, hnote, rfl,
    rfl⟩ := h
  cases hdeclare
  cases hnote
  exact fun _ hflag => Text.mem_union.mpr (Or.inr hflag)

end Reader

namespace Assembly

open Reader (Leads lastState)

/-- The declarations of the state are consistent with each other and with its flags. -/
def Consistent (a : Assembly) : Prop :=
  a.declared.Consistent a.requirements

/-- Everything that is declared in the state is declared in the other one too, and its flags hold
there. -/
structure Extends (a a' : Assembly) : Prop extends a.declared.Extends a'.declared where
  flags : a.requirements ⊆ a'.requirements

/-- The other state is consistent if this one is, and extends it. -/
def Advances (a a' : Assembly) : Prop :=
  a.declared.Advances a.requirements a'.declared a'.requirements

variable {α β : Type} {c : Reader.Context} {a : Assembly}

/-- Returning a value. -/
lemma leads_pure (x : α) : Leads Advances (pure x : AssembleM α) :=
  .pure (fun _ => .refl _ _) x

/-- One reader after another. -/
lemma leads_bind {m : AssembleM α} {f : α → AssembleM β} (hm : Leads Advances m)
    (hf : ∀ x, Leads Advances (f x)) : Leads Advances (m >>= f) :=
  .bind (fun h h' => h.trans h') hm hf

/-- A reader that leaves the declarations alone. -/
lemma leads_ofReader {m : ReadM α} (hm : Leads Reader.State.GainsFlags m) :
    Leads Advances (ofReader m) := by
  intro c a
  rw [ofReader_eq_mapState, Reader.lastState_mapState]
  exact .addFlags (hm c a.toState)

/-- A check and what follows it for its value. -/
lemma advances_check {outcome : Except Defect α} {f : α → AssembleM β}
    (hf : ∀ x, outcome = .ok x → a.Advances (lastState (f x c a))) :
    a.Advances (lastState ((check outcome >>= f) c a)) := by
  cases outcome with
  | error defect => exact .refl _ _
  | ok x => exact hf x rfl

/-- A change of the declarations and what follows it. -/
lemma advances_declare {change : Declarations → Declarations} {f : Unit → AssembleM β}
    (hchange : a.declared.Advances a.requirements (change a.declared) a.requirements)
    (hf : Leads Advances (f ())) : a.Advances (lastState ((declare change >>= f) c a)) :=
  hchange.trans (hf c { a with declared := change a.declared })

/-- Declaring a predicate. -/
lemma leads_declarePredicate (token : Token) (params : List TypedName) :
    Leads Advances (declarePredicate token params) := by
  intro c a
  rw [declarePredicate_run]
  cases hfind : findPredicate? a.declared.predicates token.text with
  | some predicate => exact .refl _ _
  | none => exact .addPredicate params hfind

/-- Declaring a function. -/
lemma leads_declareFunction (returns : String) (skeleton : Token × List TypedName) :
    Leads Advances (declareFunction returns skeleton) := by
  intro c a
  rw [declareFunction_run]
  cases hfind : findFunction? a.declared.functions skeleton.1.text with
  | some function => exact .refl _ _
  | none => exact .addFunction skeleton.2 returns hfind

/-- Repeating a step. -/
lemma leads_repeatWhile {test : Token → Bool} {step : AssembleM Unit}
    (hstep : Leads Advances step) :
    Leads Advances (repeatWhile test step) := by
  have hfuel (fuel : Nat) : Leads Advances (whileFuel test step fuel) := by
    induction fuel with
    | zero => exact leads_pure _
    | succ fuel ih =>
      refine leads_bind (leads_ofReader Reader.gainsFlags_compositional.current) fun _ => ?_
      split
      · exact leads_bind hstep fun _ => ih
      · exact leads_pure _
  exact fun c a => hfuel _ c a

/-- Reading and declaring a predicate. -/
lemma leads_predicate : Leads Advances predicate :=
  leads_bind (leads_ofReader Reader.gainsFlags_compositional.skeleton) fun _ =>
    leads_declarePredicate _ _

/-- Reading and declaring functions keeps what reading does and declaring one function does. -/
lemma leads_functionList_of {R : Assembly → Assembly → Prop} (hrefl : ∀ a, R a a)
    (htrans : ∀ {a a₁ a₂}, R a a₁ → R a₁ a₂ → R a a₂)
    (hread : ∀ {α : Type} {m : ReadM α}, Leads Reader.State.GainsFlags m → Leads R (ofReader m))
    (hdeclare : ∀ returns skeleton, Leads R (declareFunction returns skeleton)) :
    Leads R functionList := by
  have hR := Reader.gainsFlags_compositional
  have hdeclares (returns : String) (skeletons : List (Token × List TypedName)) :
      Leads R (declareFunctions returns skeletons) := by
    induction skeletons with
    | nil => exact .pure hrefl _
    | cons skeleton rest ih => exact .bind htrans (hdeclare _ _) fun _ => ih
  have hfuel (fuel : Nat) : Leads R (functionGroups fuel) := by
    induction fuel with
    | zero => exact .pure hrefl _
    | succ fuel ih =>
      refine .bind htrans (hread (hR.readWhile .skeleton hR.skeleton)) fun _ => ?_
      refine .bind htrans (hread hR.currentKind) fun _ => ?_
      split
      · split
        · exact hread (hR.failHere _ nofun)
        · refine .bind htrans (hread hR.advance) fun _ => ?_
          refine .bind htrans (hread (hR.name _)) fun _ => ?_
          exact .bind htrans (hdeclares _ _) fun _ => ih
      · exact hdeclares _ _
  exact fun c a => hfuel _ c a

/-- Reading and declaring functions. -/
lemma leads_functionList : Leads Advances functionList :=
  leads_functionList_of (fun _ => .refl _ _) (fun h h' => h.trans h') leads_ofReader
    leads_declareFunction

/-- Adding an action. -/
lemma leads_addAction (action : Action) : Leads Advances (addAction action) := by
  intro c a
  refine advances_check (a := a) fun _ hcheck => advances_declare (.addAction hcheck) ?_
  exact leads_ofReader (Reader.gainsFlags_compositional.note _ (by simp [Notice.level]))

/-- Making the hierarchy anew from all types that are listed. -/
lemma leads_setTypes {outcome : Declarations → Except Defect TypeHierarchy}
    (houtcome : ∀ declared types, outcome declared = .ok types →
      TypeHierarchy.ofDeclarations declared.typeDeclarations = .ok types)
    {f : Unit → AssembleM β} (hf : Leads Advances (f ())) :
    Leads Advances (declared? >>= fun declared => check (outcome declared) >>= fun types =>
      declare (fun declared => { declared with types := types }) >>= f) :=
  fun c a => advances_check (c := c) (a := a) fun types htypes =>
    advances_declare (.setTypes (houtcome a.declared types htypes)) hf

/-- Reading types. -/
lemma leads_typesBody : Leads Advances typesBody := by
  have hR := Reader.gainsFlags_compositional
  refine leads_bind (leads_ofReader (hR.typedList _ _)) fun listed c a => ?_
  refine advances_declare (.listTypes listed) (leads_setTypes (fun _ _ h => h) ?_)
  exact leads_bind (leads_ofReader (hR.expect _ _)) fun _ => leads_pure _

/-- Reading constants. -/
lemma leads_constantsBody : Leads Advances constantsBody := by
  have hR := Reader.gainsFlags_compositional
  refine leads_bind (leads_ofReader (hR.typedList _ _)) fun listed c a => ?_
  refine advances_declare (.addConstants listed) ?_
  exact leads_bind (leads_ofReader (hR.expect _ _)) fun _ => leads_pure _

/-- Reading and listing flags. -/
lemma leads_requirements : Leads Advances (sectionOf .requirements) := by
  intro c a
  have hread := leads_ofReader Reader.gainsFlags_compositional.requirements c a
  cases hrun : ofReader Reader.requirements c a with
  | error failure a₁ =>
    rw [hrun] at hread
    have herror : sectionOf .requirements c a = .error failure a₁ := Reader.bind_of_error hrun
    rw [herror]
    exact hread
  | ok listed a₁ =>
    rw [hrun] at hread
    obtain ⟨s₁, hlisted, rfl⟩ := ofReader_eq_ok.mp hrun
    have hok : sectionOf .requirements c a = declare (fun declared => { declared with
        requirements := Text.union declared.requirements listed }) c { a with toState := s₁ } :=
      Reader.bind_of_ok hrun
    rw [hok]
    exact hread.trans (.listFlags (Reader.expand_subset_of_requirements hlisted))

/-- Reading a section by its kind. -/
lemma leads_sectionOf (kind : SectionKind) : Leads Advances (sectionOf kind) := by
  have hR := Reader.gainsFlags_compositional
  cases kind with
  | requirements => exact leads_requirements
  | types => exact leads_bind (leads_ofReader hR.advance) fun _ => leads_typesBody
  | constants => exact leads_bind (leads_ofReader hR.advance) fun _ => leads_constantsBody
  | predicates =>
    refine leads_bind (leads_ofReader hR.advance) fun _ => ?_
    refine leads_bind (leads_repeatWhile leads_predicate) fun _ => ?_
    exact leads_bind (leads_ofReader (hR.expect _ _)) fun _ => leads_pure _
  | functions =>
    refine leads_bind (leads_ofReader hR.advance) fun _ => ?_
    refine leads_bind (leads_ofReader (hR.require _ _)) fun _ => ?_
    refine leads_bind leads_functionList fun _ => ?_
    exact leads_bind (leads_ofReader (hR.expect _ _)) fun _ => leads_pure _
  | action => exact leads_bind (leads_ofReader hR.action) leads_addAction
  | durativeAction => exact leads_bind (leads_ofReader hR.durativeAction) leads_addAction

/-- Reading a section. -/
lemma leads_anySection : Leads Advances anySection := by
  have hR := Reader.gainsFlags_compositional
  refine leads_bind (leads_ofReader hR.current) fun _ => ?_
  split
  · split
    · exact leads_sectionOf _
    · exact leads_ofReader (hR.failHere _ nofun)
  · exact leads_ofReader (hR.failHere _ nofun)

/-- Making a domain of what is declared. -/
lemma leads_conclude (name : String) : Leads Advances (conclude name) := by
  refine leads_setTypes (fun _ _ h => (TypeHierarchy.ofDeclarationsValid_eq_ok h).1) ?_
  refine fun c a => advances_check (a := a) fun _ _ => leads_bind (leads_ofReader ?_)
    (fun _ => leads_pure _) c a
  exact Reader.gainsFlags_compositional.note _ (by simp [Notice.level])

/-- Reading a domain. -/
lemma leads_domain : Leads Advances Assembly.domain := by
  have hR := Reader.gainsFlags_compositional
  rw [domain_eq]
  refine leads_bind ?_ fun name => leads_bind (leads_ofReader (hR.expect _ _)) fun _ =>
    leads_bind (leads_ofReader hR.endOfDocument) fun _ => leads_conclude name
  refine leads_bind (leads_ofReader (hR.header _ _)) fun _ => ?_
  refine leads_bind (leads_ofReader (hR.note _ (by simp [Notice.level]))) fun _ => ?_
  refine leads_bind (leads_repeatWhile ?_) fun _ => leads_pure _
  exact leads_bind (leads_ofReader (hR.expect _ _)) fun _ => leads_anySection

end Assembly

/-! ### Calls -/

namespace Call

open Reader (Leads)
open Assembly (leads_bind leads_ofReader leads_pure)

/-- Every call of a parser of domains keeps the state consistent and extends it, whether it returns
or fails. -/
lemma leads_run (call : Call .domain) : Leads Assembly.Advances call.run := by
  have hR := Reader.gainsFlags_compositional
  have hread {α : Type} {m : ReadM α} (hm : Leads Reader.State.GainsFlags m) :
      Leads Assembly.Advances (do let _ ← Assembly.ofReader m : AssembleM Unit) :=
    leads_bind (leads_ofReader hm) fun _ => leads_pure _
  cases call with
  | shared call => exact leads_ofReader (call.run_of_documentary hR.toDocumentary)
  | domain => exact leads_bind Assembly.leads_domain fun _ => leads_pure _
  | anySection => exact Assembly.leads_anySection
  | skeleton => exact hread hR.skeleton
  | functionList => exact Assembly.leads_functionList
  | addAction added => exact Assembly.leads_addAction added
  | parameters => exact hread hR.parameters
  | action => exact hread hR.action
  | durativeAction => exact hread hR.durativeAction

/-- From a consistent state, the states after the calls of a sequence are consistent and extend each
other. -/
lemma statesAfter_of_consistent (c : Reader.Context) (calls : List (Call .domain)) :
    ∀ a : Assembly, a.Consistent →
      (∀ b ∈ a :: statesAfter c calls a, b.Consistent) ∧
        (a :: statesAfter c calls a).IsChain Assembly.Extends := by
  induction calls with
  | nil => exact fun a ha => ⟨List.forall_mem_singleton.mpr ha, .singleton a⟩
  | cons call rest ih =>
    intro a ha
    have hcall := call.leads_run c a
    obtain ⟨hnext, hextends⟩ := hcall.keeps ha
    obtain ⟨hall, hchain⟩ := ih _ hnext
    exact ⟨List.forall_mem_cons.mpr ⟨ha, hall⟩, .cons_cons ⟨hextends, hcall.gains⟩ hchain⟩

end Call

end Pddl
