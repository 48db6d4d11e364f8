import Pddl.Proofs.Expansion
import Pddl.Proofs.Folding
import Pddl.Proofs.Permission
import Pddl.Proofs.Precedence
import Pddl.Proofs.Progress

/-!
# Domains declare the features they use

A domain that is read under strict settings has declared every feature that is used anywhere in it
(`Domain.parse_permitted`).  A feature is checked against the flags declared so far; these only
grow, so that what was permitted stays permitted (`Declarations.Permitted.mono`), and in the end
they are among the flags that the domain lists and what these expand to (`Declarations.Lists`).
-/

namespace Pddl

/-! ### Flags of a section of requirements -/

namespace Reader

variable {c : Context} {s s' : State}

/-- A token for a known flag has one. -/
lemma isKnown_key {token : Token} (h : token.word.IsLexeme) (hkind : token.kind = .flag) :
    Requirement.isKnown token.key = true := by
  have hlexeme : Token.IsLexeme .flag token.text.toList := hkind ▸ h
  rw [Token.key, Requirement.isKnown_fold, ← String.ofList_toList (s := token.text)]
  generalize token.text.toList = chars at hlexeme
  cases hlexeme with
  | flag _ hknown => exact hknown

/-- Under enforcement only known flags are read. -/
lemma requirementFlag_isKnown (hc : c.Enforces) {flag : String} (hv : s.cursor.Valid)
    (hkeyword : isKeyword s.cursor.current = true)
    (h : requirementFlag c s = .ok flag s') : Requirement.isKnown flag = true := by
  simp only [requirementFlag, bind_eq_ok] at h
  obtain ⟨token, s₁, hadvance, h⟩ := h
  obtain ⟨-, -, hend⟩ := kind_of_isKeyword hkeyword
  obtain ⟨rfl, hconsumes⟩ := advance_consumes hv hadvance hend
  split_ifs at h with hunknown
  · obtain ⟨u, s₂, hreport, -⟩ := bind_eq_ok.mp h
    have hlenient := (report_eq_ok.mp hreport).1
    rw [hc.strict] at hlenient
    cases hlenient
  · obtain ⟨rfl, -⟩ := pure_eq_ok.mp h
    have hkind : s.cursor.current.kind = .flag := by
      simpa [isKeyword, hunknown] using hkeyword
    refine isKnown_key (hv.isLexeme _ ?_) hkind
    rw [hconsumes.upcoming]
    exact List.mem_cons_self

/-- A section of requirements declares what the flags that it lists expand to. -/
lemma requirements_unions {listed : List String} (h : requirements c s = .ok listed s') :
    s'.requirements = Text.union s.requirements (Requirement.expand listed) := by
  have hS := upholds_stepwise c s.requirements
  simp only [requirements, bind_eq_ok, pure_eq_ok] at h
  obtain ⟨opener, s₁, hopener, flags, s₂, hflags, closing, s₃, hclose, u, s₄, hdeclare, u', s₅,
    hnote, rfl, rfl⟩ := h
  have hs₁ : HasFlags s.requirements s₁ := (hS.keyword _ s opener s₁ rfl hopener).1
  have hs₂ : HasFlags s.requirements s₂ :=
    (hS.readWhile .flag hS.requirementFlag s₁ flags s₂ hs₁ hflags).1
  have hs₃ : s₃.requirements = s.requirements := (hS.expect _ _ s₂ closing s₃ hs₂ hclose).1
  cases hdeclare
  cases hnote
  rw [← hs₃]

/-- Under enforcement a section of requirements lists known flags. -/
lemma requirements_isKnown (hc : c.Enforces) {listed : List String} (hv : s.cursor.Valid)
    (h : requirements c s = .ok listed s') :
    ∀ flag ∈ listed, Requirement.isKnown flag = true := by
  have hR := keepsValid_compositional
  simp only [requirements, bind_eq_ok, pure_eq_ok] at h
  obtain ⟨opener, s₁, hopener, flags, s₂, hflags, closing, s₃, hclose, u, s₄, hdeclare, u', s₅,
    hnote, rfl, rfl⟩ := h
  have hitem (t : State) (flag : String) (t' : State)
      (ht : t.cursor.Valid) (htest : isKeyword t.cursor.current = true)
      (hrun : requirementFlag c t = .ok flag t') :
      t'.cursor.Valid ∧ Requirement.isKnown flag = true :=
    ⟨hR.requirementFlag c t flag t' ht hrun, requirementFlag_isKnown hc ht htest hrun⟩
  obtain ⟨-, hknown⟩ := Upholds.readWhile_of_test hitem s₁ flags s₂
    (hR.keyword _ c s opener s₁ hv hopener) hflags
  refine fun flag hflag => hknown flag ?_
  simpa using Text.mem_union.mp hflag

end Reader

/-! ### Declarations -/

/-- The flags have what the function needs. -/
structure Function.Permitted (flags : List String) (function : Function) : Prop where
  numeric : ":numeric-fluents" ∈ flags ∨ ":action-costs" ∈ flags
  params : TypesLicensed flags function.params

/-- More flags permit more functions. -/
lemma Function.Permitted.mono {flags flags' : List String} {function : Function}
    (h : function.Permitted flags) (hsub : flags ⊆ flags') : function.Permitted flags' where
  numeric := h.numeric.imp (fun hflag => hsub hflag) fun hflag => hsub hflag
  params := h.params.mono hsub

/-- The flags have what the declarations and all their parts need. -/
structure Declarations.Permitted (flags : List String) (declared : Declarations) : Prop where
  types : TypesLicensed flags declared.typeDeclarations
  constants : TypesLicensed flags declared.constants
  predicates : ∀ predicate ∈ declared.predicates, TypesLicensed flags predicate.params
  functions : ∀ function ∈ declared.functions, function.Permitted flags
  actions : ∀ action ∈ declared.actions, action.Permitted flags

/-- The flags that are listed are known, and there are no flags but those that they expand to and
`:strips`. -/
structure Declarations.Lists (flags : List String) (declared : Declarations) : Prop where
  known : ∀ flag ∈ declared.requirements, Requirement.isKnown flag = true
  subset : flags ⊆ ":strips" :: Requirement.expand declared.requirements

namespace Declarations

variable {flags flags' listed : List String} {declared : Declarations}

/-- Nothing is declared. -/
lemma permitted_empty : empty.Permitted flags where
  types := fun _ h => by cases h
  constants := fun _ h => by cases h
  predicates := fun _ h => by cases h
  functions := fun _ h => by cases h
  actions := fun _ h => by cases h

/-- Only the flag that always holds is declared. -/
lemma lists_empty : empty.Lists Assembly.initialRequirements where
  known := fun _ h => by cases h
  subset := List.cons_subset.mpr ⟨List.mem_cons_self, List.nil_subset _⟩

/-- More flags permit more declarations. -/
lemma Permitted.mono (h : declared.Permitted flags) (hsub : flags ⊆ flags') :
    declared.Permitted flags' where
  types := h.types.mono hsub
  constants := h.constants.mono hsub
  predicates := fun predicate hmem => (h.predicates predicate hmem).mono hsub
  functions := fun function hmem => (h.functions function hmem).mono hsub
  actions := fun action hmem => (h.actions action hmem).mono hsub

/-- More flags are listed. -/
lemma Lists.add (h : declared.Lists flags)
    (hknown : ∀ flag ∈ listed, Requirement.isKnown flag = true) :
    Lists (Text.union flags (Requirement.expand listed))
      { declared with requirements := Text.union declared.requirements listed } where
  known := fun flag hflag => (Text.mem_union.mp hflag).elim (h.known flag) (hknown flag)
  subset := by
    have hold : declared.requirements ⊆ Text.union declared.requirements listed :=
      fun _ hflag => Text.mem_union.mpr (Or.inl hflag)
    have hnew : listed ⊆ Text.union declared.requirements listed :=
      fun _ hflag => Text.mem_union.mpr (Or.inr hflag)
    intro flag hflag
    rcases Text.mem_union.mp hflag with hflag | hflag
    · exact List.cons_subset_cons _ (Requirement.expand_mono hold) (h.subset hflag)
    · exact List.mem_cons_of_mem _ (Requirement.expand_mono hnew hflag)

end Declarations

/-- More names with licensed types. -/
lemma TypesLicensed.append {flags : List String} {listed more : List TypedName}
    (h : TypesLicensed flags listed) (hmore : TypesLicensed flags more) :
    TypesLicensed flags (listed ++ more) :=
  fun typed htyped => (List.mem_append.mp htyped).elim (h typed) (hmore typed)

namespace Assembly

open Reader (Upholds HasFlags)

/-- The flags are those that are declared, and they permit the declarations. -/
structure UsesFlags (flags : List String) (a : Assembly) : Prop where
  requirements : a.requirements = flags
  lists : a.declared.Lists flags
  permitted : a.declared.Permitted flags

variable {c : Reader.Context} {flags : List String}

/-- A reader that leaves the declarations alone. -/
lemma upholds_ofReader {α : Type} {m : ReadM α} {P : α → Prop}
    (hm : Upholds c (HasFlags flags) m P) : Upholds c (UsesFlags flags) (ofReader m) P := by
  intro a x a' ha h
  obtain ⟨s', hrun, rfl⟩ := ofReader_eq_ok.mp h
  obtain ⟨hs', hP⟩ := hm a.toState x s' ha.requirements hrun
  exact ⟨⟨hs', ha.lists, ha.permitted⟩, hP⟩

/-- A change of the declarations that leaves the flags alone and is permitted by them. -/
lemma upholds_declare {change : Declarations → Declarations}
    (hsame : ∀ declared : Declarations, (change declared).requirements = declared.requirements)
    (h : ∀ declared : Declarations, declared.Permitted flags → (change declared).Permitted flags) :
    Upholds c (UsesFlags flags) (declare change) fun _ => True := by
  intro a u a' ha hrun
  cases hrun
  refine ⟨⟨ha.requirements, ⟨?_, ?_⟩, h _ ha.permitted⟩, True.intro⟩
  · rw [hsame]
    exact ha.lists.known
  · rw [hsame]
    exact ha.lists.subset

/-- A look at the declarations. -/
lemma upholds_declared? : Upholds c (UsesFlags flags) declared? fun _ => True := by
  intro a declared a' ha hrun
  cases hrun
  exact ⟨ha, True.intro⟩

/-- A check. -/
lemma upholds_check {α : Type} (outcome : Except Defect α) :
    Upholds c (UsesFlags flags) (check outcome) fun _ => True := by
  intro a x a' ha hrun
  obtain ⟨-, rfl⟩ := check_eq_ok.mp hrun
  exact ⟨ha, True.intro⟩

/-- Functions that are declared are permitted where functions are. -/
lemma declareFunctions_permitted (returns : String)
    (hfunctions : ":numeric-fluents" ∈ flags ∨ ":action-costs" ∈ flags)
    {skeletons : List (Token × List TypedName)}
    (h : ∀ skeleton ∈ skeletons, TypesLicensed flags skeleton.2) :
    Upholds c (UsesFlags flags) (declareFunctions returns skeletons) fun _ => True := by
  induction skeletons with
  | nil => exact .pure True.intro
  | cons skeleton rest ih =>
    rw [List.forall_mem_cons] at h
    have hfirst : Upholds c (UsesFlags flags) (declareFunction returns skeleton) fun _ => True := by
      refine .bind upholds_declared? fun _ _ => ?_
      split
      · exact .throw _
      · refine upholds_declare (fun _ => rfl) fun declared hd => ?_
        refine { hd with functions := fun function hmem => ?_ }
        rcases List.mem_append.mp hmem with hmem | hmem
        · exact hd.functions function hmem
        · rw [List.mem_singleton.mp hmem]
          exact ⟨hfunctions, h.1⟩
    exact .bind hfirst fun _ _ => ih h.2

/-- An action that is added is permitted if it was. -/
lemma addAction_permitted {action : Action} (haction : action.Permitted flags) :
    Upholds c (UsesFlags flags) (addAction action) fun _ => True := by
  refine .bind upholds_declared? fun _ _ => .bind (upholds_check _) fun _ _ => ?_
  refine .bind (upholds_declare (fun _ => rfl) fun declared h => ?_) fun _ _ =>
    upholds_ofReader ((Reader.upholds_stepwise c flags).note _ (by simp [Notice.level]))
  refine { h with actions := fun other hmem => ?_ }
  rcases List.mem_append.mp hmem with hmem | hmem
  · exact h.actions other hmem
  · rwa [List.mem_singleton.mp hmem]

section Enforced

variable (hc : c.Enforces)

include hc

/-- A predicate that is read is permitted. -/
lemma predicate_permitted : Upholds c (UsesFlags flags) predicate fun _ => True := by
  refine .bind (upholds_ofReader (Reader.skeleton_permitted hc)) fun skeleton hparams => ?_
  refine .bind upholds_declared? fun _ _ => ?_
  split
  · exact .throw _
  · refine upholds_declare (fun _ => rfl) fun declared h => ?_
    refine { h with predicates := fun predicate hmem => ?_ }
    rcases List.mem_append.mp hmem with hmem | hmem
    · exact h.predicates predicate hmem
    · rw [List.mem_singleton.mp hmem]
      exact hparams

/-- Groups of functions are permitted where functions are. -/
lemma functionGroups_permitted
    (hfunctions : ":numeric-fluents" ∈ flags ∨ ":action-costs" ∈ flags) (fuel : Nat) :
    Upholds c (UsesFlags flags) (functionGroups fuel) fun _ => True := by
  have hS := Reader.upholds_stepwise c flags
  induction fuel with
  | zero => exact .pure True.intro
  | succ fuel ih =>
    refine .bind (upholds_ofReader (.readWhile (Reader.skeleton_permitted hc)))
      fun skeletons hskeletons => ?_
    refine .bind (upholds_ofReader hS.currentKind) fun _ _ => ?_
    split
    · split
      · exact upholds_ofReader .failHere
      · refine .bind (upholds_ofReader hS.advance) fun _ _ => ?_
        refine .bind (upholds_ofReader (hS.name _)) fun _ _ => ?_
        exact .bind (declareFunctions_permitted _ hfunctions hskeletons) fun _ _ => ih
    · exact declareFunctions_permitted _ hfunctions hskeletons

/-- All sections but those of requirements leave permitted declarations. -/
lemma sectionOf_permitted {kind : SectionKind} (hkind : kind ≠ .requirements) :
    Upholds c (UsesFlags flags) (sectionOf kind) fun _ => True := by
  have hS := Reader.upholds_stepwise c flags
  have hclose (expected : String) : Upholds c (UsesFlags flags)
      (do let _ ← ofReader (Reader.expect .closeParen expected)) fun _ => True :=
    .bind (upholds_ofReader (hS.expect _ _)) fun _ _ => .pure True.intro
  cases kind with
  | requirements => exact absurd rfl hkind
  | types =>
    refine .bind (upholds_ofReader hS.advance) fun _ _ => ?_
    refine .bind (upholds_ofReader (Reader.typedList_permitted hc _ _)) fun listed hlisted => ?_
    refine .bind (upholds_declare (fun _ => rfl) fun declared h => ?_) fun _ _ => ?_
    · exact { h with types := h.types.append hlisted }
    · refine .bind upholds_declared? fun _ _ => .bind (upholds_check _) fun types _ => ?_
      exact .bind (upholds_declare (fun _ => rfl) fun declared h => { h with }) fun _ _ => hclose _
  | constants =>
    refine .bind (upholds_ofReader hS.advance) fun _ _ => ?_
    refine .bind (upholds_ofReader (Reader.typedList_permitted hc _ _)) fun listed hlisted => ?_
    refine .bind (upholds_declare (fun _ => rfl) fun declared h => ?_) fun _ _ => hclose _
    exact { h with constants := h.constants.append hlisted }
  | predicates =>
    refine .bind (upholds_ofReader hS.advance) fun _ _ => ?_
    exact .bind (upholds_repeatWhile (predicate_permitted hc)) fun _ _ => hclose _
  | functions =>
    refine .bind (upholds_ofReader hS.advance) fun token _ => ?_
    refine .bind (upholds_ofReader (.require hc token _)) fun _ hflag => ?_
    have hfunctions : ":numeric-fluents" ∈ flags ∨ ":action-costs" ∈ flags := by
      simpa [Feature.functions] using hflag
    have hlist : Upholds c (UsesFlags flags) functionList fun _ => True :=
      fun a u a' ha h => functionGroups_permitted hc hfunctions _ a u a' ha h
    exact .bind hlist fun _ _ => hclose _
  | action =>
    exact .bind (upholds_ofReader (Reader.action_permitted hc)) fun _ h => addAction_permitted h
  | durativeAction =>
    exact .bind (upholds_ofReader (Reader.durativeAction_permitted hc)) fun _ h =>
      addAction_permitted h

end Enforced

/-- The cursor is valid, and the flags that are declared permit the declarations. -/
def Conforms (a : Assembly) : Prop :=
  a.cursor.Valid ∧ a.UsesFlags a.requirements

/-- A reader that declares nothing. -/
lemma conforms_ofReader {α : Type} {m : ReadM α} (hvalid : Reader.KeepsValid m)
    (hflags : ∀ flags, Upholds c (HasFlags flags) m fun _ => True) :
    Upholds c Conforms (Assembly.ofReader m) fun _ => True := by
  rintro a x a' ⟨hv, ha⟩ h
  obtain ⟨s', hrun, rfl⟩ := ofReader_eq_ok.mp h
  have hsame : s'.requirements = a.requirements := (hflags _ a.toState x s' rfl hrun).1
  refine ⟨⟨hvalid c a.toState x s' hv hrun, ⟨rfl, ?_, ?_⟩⟩, True.intro⟩
  · change a.declared.Lists s'.requirements
    rw [hsame]
    exact ha.lists
  · change a.declared.Permitted s'.requirements
    rw [hsame]
    exact ha.permitted

/-- A section of any kind leaves permitted declarations. -/
lemma anySection_conforms (hc : c.Enforces) :
    Upholds c Conforms anySection fun _ => True := by
  rintro a u a' ⟨hv, ha⟩ h
  obtain ⟨hv', -⟩ := Compositional.anySection Reader.shrinks_compositional.toDocumentary
    shrinks_compositional c a u a' hv h
  refine ⟨⟨hv', ?_⟩, True.intro⟩
  obtain ⟨token, a₁, hcurrent, h⟩ := Reader.bind_eq_ok.mp h
  cases hcurrent
  split_ifs at h
  · cases hkind : SectionKind.ofKey? a.cursor.current.key with
    | none =>
      simp only [hkind] at h
      obtain ⟨s', hfail, -⟩ := lift_eq_ok.mp h
      exact absurd hfail (by simp)
    | some kind =>
      simp only [hkind] at h
      by_cases hrequirements : kind = .requirements
      · subst hrequirements
        obtain ⟨listed, a₁, hread, hdeclare⟩ := Reader.bind_eq_ok.mp h
        obtain ⟨s', hrun, rfl⟩ := lift_eq_ok.mp hread
        have hflags := Reader.requirements_unions hrun
        have hlists := ha.lists.add (Reader.requirements_isKnown hc hv hrun)
        cases hdeclare
        have hsub : a.requirements ⊆ Text.union a.requirements (Requirement.expand listed) :=
          fun flag hflag => Text.mem_union.mpr (Or.inl hflag)
        have hpermitted := ha.permitted.mono hsub
        rw [← hflags] at hlists hpermitted
        exact ⟨rfl, hlists, { hpermitted with }⟩
      · obtain ⟨hafter, -⟩ := sectionOf_permitted hc hrequirements a u a' ha h
        rwa [hafter.requirements]
  · obtain ⟨s', hfail, -⟩ := lift_eq_ok.mp h
    exact absurd hfail (by simp)

/-- The heading and the sections of a domain leave permitted declarations. -/
lemma sections_conforms (hc : c.Enforces) : Upholds c Conforms sections fun _ => True := by
  have hR := Reader.keepsValid_compositional
  have hS := Reader.upholds_stepwise c
  refine .bind (conforms_ofReader (hR.header _ _) fun flags => (hS flags).header _ _) fun _ _ => ?_
  refine .bind (conforms_ofReader (hR.note _ (by simp [Notice.level])) fun flags =>
    (hS flags).note _ (by simp [Notice.level])) fun _ _ => ?_
  refine .bind (upholds_repeatWhile (.bind (conforms_ofReader (hR.expect _ _) fun flags =>
    (hS flags).expect _ _) fun _ _ => anySection_conforms hc)) fun _ _ => ?_
  exact .pure True.intro

end Assembly

/-! ### Domains -/

/-- The flags have what the domain and all its parts need. -/
structure Domain.Permitted (flags : List String) (domain : Domain) : Prop where
  types : ∀ entry ∈ domain.types.parents, entry.2 ≠ rootType → ":typing" ∈ flags
  constants : TypesLicensed flags domain.constants
  predicates : ∀ predicate ∈ domain.predicates, TypesLicensed flags predicate.params
  functions : ∀ function ∈ domain.functions, function.Permitted flags
  actions : ∀ action ∈ domain.actions, action.Permitted flags

/-- A parent other than the root was written as a type. -/
lemma TypesLicensed.of_parents {flags : List String} {declarations : List TypedName}
    {types : TypeHierarchy} (h : TypesLicensed flags declarations)
    (htypes : TypeHierarchy.ofDeclarations declarations = .ok types) {entry : String × String}
    (hentry : entry ∈ types.parents) (hne : entry.2 ≠ rootType) : ":typing" ∈ flags := by
  obtain ⟨declaration, hdeclaration, -, parent, hparent, hfold⟩ :=
    TypeHierarchy.mem_parents_of_ofDeclarations htypes hentry
  refine h declaration hdeclaration fun htype => hne ?_
  rw [htype] at hparent
  rw [← hfold, List.mem_singleton.mp hparent]
  decide +kernel

/-- What an expression itself uses in a place tells these forms. -/
lemma Position.form_of_ownFeatures (e : Expr) :
    (((condition false).ownFeatures e).head? = some Feature.universalConditions →
      ∃ vars operand, e = .quantified .universal vars operand) ∧
    (((effect false).ownFeatures e).head? = some Feature.conditionalEffects →
      ∃ premise outcome, e = .when premise outcome) ∧
    (((condition false).ownFeatures e).head? = some Feature.disjunctions →
      ∃ alternatives, e = .or alternatives) := by
  cases e with
  | quantified quantifier vars operand =>
    cases quantifier <;> simp [ownFeatures, Reader.quantifierFeature] <;> decide
  | compare op left right =>
    simp only [ownFeatures]
    split_ifs <;> simp <;> decide
  | update | timed | or | when => simp [ownFeatures] <;> decide
  | _ => simp [ownFeatures]

namespace Domain

/-- Every domain that is read under strict settings lists known flags only, and what its flags
expand to, together with `:strips`, has what the domain needs. -/
theorem parse_permitted (settings : Settings) (text : String) (capacity : Nat) (domain : Domain)
    (hstrict : settings.strictRequirements = true)
    (h : (parse settings text capacity).result = .ok domain) :
    (∀ flag ∈ domain.requirements, Requirement.isKnown flag = true) ∧
      domain.Permitted (":strips" :: Requirement.expand domain.requirements) := by
  obtain ⟨cursor, a', hcursor, hrun⟩ := parse_eq_ok.mp h
  have hc : (Reader.Context.document settings true capacity).Enforces := ⟨hstrict, rfl⟩
  have hstart : (Assembly.ofCursor cursor).Conforms :=
    ⟨(Cursor.of_ofText hcursor).1, rfl, Declarations.lists_empty, Declarations.permitted_empty⟩
  simp only [Assembly.domain_eq, Reader.bind_eq_ok] at hrun
  obtain ⟨name, a₁, hsections, closing, a₂, hclose, u, a₃, hend, hconclude⟩ := hrun
  obtain ⟨⟨-, -, hlists, hpermitted⟩, -⟩ :=
    Assembly.sections_conforms hc (Assembly.ofCursor cursor) name a₁ hstart hsections
  obtain ⟨s₂, -, rfl⟩ := Assembly.lift_eq_ok.mp hclose
  obtain ⟨s₃, -, rfl⟩ := Assembly.lift_eq_ok.mp hend
  obtain ⟨types, htypes, rfl, -⟩ := Assembly.conclude_eq_ok.mp hconclude
  obtain ⟨htypes, -⟩ := TypeHierarchy.ofDeclarationsValid_eq_ok htypes
  have hall := hpermitted.mono hlists.subset
  refine ⟨hlists.known, ?_⟩
  exact {
    types := fun entry hentry hne => hall.types.of_parents htypes hentry hne
    constants := hall.constants
    predicates := hall.predicates
    functions := hall.functions
    actions := hall.actions }

/-- A domain with an effect for all objects, under a condition that is a disjunction. -/
def conditionalDomainText : String :=
  "(define (domain d) (:requirements :adl) (:action a :effect (forall (?x) (when (or) ()))))"

/-- The domain is read under strict settings, with its universal and its conditional effect and the
disjunction, and what its one flag expands to permits them. -/
theorem parse_permitted_conditional :
    ∃ domain action vars alternatives effect,
      (parse ⟨true, false, none⟩ conditionalDomainText).result = .ok domain ∧
      domain.actions = [action] ∧
      action.effect = .quantified .universal vars (.when (.or alternatives) effect) ∧
      (∀ flag ∈ domain.requirements, Requirement.isKnown flag = true) ∧
        domain.Permitted (":strips" :: Requirement.expand domain.requirements) := by
  have hread : (parse ⟨true, false, none⟩ conditionalDomainText).result.toOption.map
      (fun domain => domain.actions.map fun action =>
        (((Position.condition false).ownFeatures action.effect).head?,
          action.effect.children.map fun e => (((Position.effect false).ownFeatures e).head?,
            e.children.map fun e => ((Position.condition false).ownFeatures e).head?))) =
      some [(some Feature.universalConditions,
        [(some Feature.conditionalEffects, [some Feature.disjunctions, none])])] := by
    decide +kernel
  obtain ⟨domain, hdomain, hactions⟩ := Option.map_eq_some_iff.mp hread
  obtain ⟨action, haction, heffect⟩ := List.map_eq_singleton_iff.mp hactions
  have hok := Check.toOption_eq_some.mp hdomain
  -- What is used at each level gives the form of the effect, from the outside to the inside.
  obtain ⟨huniversal, hoperand⟩ := Prod.mk.inj heffect
  obtain ⟨vars, operand, hquantified⟩ := (Position.form_of_ownFeatures _).1 huniversal
  rw [hquantified] at hoperand
  obtain ⟨hconditional, hparts⟩ := Prod.mk.inj (List.singleton_inj.mp hoperand)
  obtain ⟨premise, effect, rfl⟩ := (Position.form_of_ownFeatures _).2.1 hconditional
  obtain ⟨alternatives, rfl⟩ := (Position.form_of_ownFeatures _).2.2 (List.cons.inj hparts).1
  exact ⟨domain, action, vars, alternatives, effect, hok, haction, hquantified,
    parse_permitted _ _ _ domain rfl hok⟩

/-- Without a flag a disjunction is refused. -/
example :
    (parse ⟨true, false, none⟩
      "(define (domain d) (:action a :precondition (or)))").result.toOption.isNone = true := by
  decide +kernel

end Domain

end Pddl
