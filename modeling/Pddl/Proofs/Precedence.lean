import Mathlib.Data.List.Forall2
import Pddl.Proofs.Closedness
import Pddl.Proofs.Layout
import Pddl.Proofs.TypeListing

/-!
# Declarations precede actions

A text tells by its layout where its actions stand and what the sections before them declare
(`Domain.actionSites`, `declaredIn`).  The reader of domains keeps the two in step: a section has
the effect that its tokens tell (`sectionOf_reads`), so what is declared so far is what the sections
so far name (`WrittenIn.step`), and an action is checked against just that.  Hence the predicates
and functions of an action are declared before it (`parse_supplies_actions`).  Its types need not
be: a type that is only mentioned as a parent counts as well (`exists_type_before_declaration`).
-/

namespace Pddl

open Assembly (SectionKind)

/-! ### Sections of a text -/

/-- The kind of a section, which its keyword tells. -/
def sectionKind? (part : List Token) : Option SectionKind :=
  part[1]?.bind fun token => SectionKind.ofKey? token.key

/-- What the sections of one kind name after their keywords. -/
def declaredIn (kind : SectionKind) (names : List Token → List String)
    (parts : List (List Token)) : List String :=
  (parts.filter fun part => sectionKind? part = some kind).flatMap fun part => names (part.drop 2)

/-- The flags among tokens, with their letters folded. -/
def flagKeys (tokens : List Token) : List String :=
  (tokens.filter Reader.isKeyword).map Token.key

/-- Is the section an action? -/
def isActionPart (part : List Token) : Bool :=
  sectionKind? part = some .action || sectionKind? part = some .durativeAction

/-- The place of an action in a text: its section and those before it. -/
structure ActionSite where
  before : List (List Token)
  part : List Token

/-- The places of the actions among sections that come after those `before`. -/
def sitesFrom (before : List (List Token)) : List (List Token) → List ActionSite
  | [] => []
  | part :: rest =>
    (if isActionPart part then [⟨before, part⟩] else []) ++ sitesFrom (before ++ [part]) rest

/-- The sections of a domain: the groups after its heading `(define (domain name)`. -/
def Domain.parts (text : String) : List (List Token) :=
  groups ((scan text).tokens.drop 6)

/-- The places of the actions of a domain. -/
def Domain.actionSites (text : String) : List ActionSite :=
  sitesFrom [] (Domain.parts text)

variable {parts : List (List Token)} {part : List Token}

/-- What one more section names. -/
lemma declaredIn_concat (kind : SectionKind) (names : List Token → List String) :
    declaredIn kind names (parts ++ [part]) = declaredIn kind names parts ++
      if sectionKind? part = some kind then names (part.drop 2) else [] := by
  rw [declaredIn, List.filter_append, List.flatMap_append]
  by_cases hkind : sectionKind? part = some kind <;> simp [declaredIn, hkind]

/-- What some names of a section declare is declared by more of its names. -/
lemma declaredIn_subset {kind : SectionKind} {names more : List Token → List String}
    (h : ∀ tokens, names tokens ⊆ more tokens) :
    declaredIn kind names parts ⊆ declaredIn kind more parts := by
  intro key hkey
  obtain ⟨part, hpart, hname⟩ := List.mem_flatMap.mp hkey
  exact List.mem_flatMap.mpr ⟨part, hpart, h _ hname⟩

/-- What is declared stays declared when there are more sections. -/
lemma declaredIn_subset_concat (kind : SectionKind) (names : List Token → List String) :
    declaredIn kind names parts ⊆ declaredIn kind names (parts ++ [part]) := by
  rw [declaredIn_concat]
  exact List.subset_append_left _ _

/-- One more section is the place of an action, or it is not. -/
lemma sitesFrom_concat : ∀ before : List (List Token),
    sitesFrom before (parts ++ [part]) = sitesFrom before parts ++
      if isActionPart part then [⟨before ++ parts, part⟩] else [] := by
  induction parts with
  | nil => simp [sitesFrom]
  | cons first rest ih =>
    intro before
    rw [List.cons_append, sitesFrom, sitesFrom, ih, List.append_assoc, List.append_assoc]
    rfl

/-! ### Actions and what they use -/

/-- The type is written in the action, at a parameter or at a quantified variable. -/
inductive Action.UsesType (action : Action) (type : String) : Prop
  | param {param : TypedName} : param ∈ action.params → type ∈ param.type.options →
      UsesType action type
  | quantified {body : Expr} {quantifier : Quantifier} {vars : List TypedName} {operand : Expr}
      {var : TypedName} : body ∈ action.bodies →
      Expr.quantified quantifier vars operand ∈ body.walk → var ∈ vars →
      type ∈ var.type.options → UsesType action type

/-- The action has the name at its place, and the sections before it declare all that it uses: the
predicates and functions of its atoms, and its types other than the root.  Which names of a section
count as declared types is told by `typeNames`. -/
structure ActionSite.Supplies (typeNames : List Token → List String) (site : ActionSite)
    (action : Action) : Prop where
  name : site.part[2]?.map Token.text = some action.name
  predicates : ∀ body ∈ action.bodies, ∀ atom, body.HasAtom atom false →
    fold atom.name ∈ declaredIn .predicates heads site.before
  functions : ∀ body ∈ action.bodies, ∀ atom, body.HasAtom atom true →
    fold atom.name ∈ declaredIn .functions heads site.before
  types : ∀ type, action.UsesType type →
    fold type = rootType ∨ fold type ∈ declaredIn .types typeNames site.before

/-- Types of an action that uses only what is declared are in the hierarchy. -/
lemma Declarations.Admits.contains_of_usesType {declared : Declarations} {action : Action}
    (h : declared.Admits action) {type : String} (htype : action.UsesType type) :
    declared.types.contains type = true := by
  cases htype with
  | param hparam htype => exact h.params _ hparam _ htype
  | quantified hbody hpart hvar htype => exact h.quantified _ hbody _ _ _ hpart _ hvar _ htype

/-! ### Declarations and the sections they come from -/

namespace Declarations

/-- What is declared is what the sections name: predicates, functions and types in their order, and
flags and parents of types somewhere.  Each action is supplied by the sections before it. -/
structure WrittenIn (declared : Declarations) (parts : List (List Token)) : Prop where
  requirements : ∀ flag, flag ∈ declared.requirements ↔
    flag ∈ declaredIn .requirements flagKeys parts
  predicates : declared.predicates.map (fun predicate => fold predicate.name) =
    declaredIn .predicates heads parts
  functions : declared.functions.map (fun function => fold function.name) =
    declaredIn .functions heads parts
  types : declared.typeDeclarations.map (fun entity => fold entity.name) =
    declaredIn .types listed parts
  parents : ∀ entity ∈ declared.typeDeclarations, ∀ type ∈ entity.type.options,
    fold type = rootType ∨ fold type ∈ declaredIn .types mentioned parts
  actions : List.Forall₂ (ActionSite.Supplies mentioned) (sitesFrom [] parts) declared.actions

/-- Nothing is declared before the first section. -/
lemma empty_writtenIn : empty.WrittenIn [] where
  requirements := fun _ => Iff.rfl
  predicates := rfl
  functions := rfl
  types := rfl
  parents := nofun
  actions := .nil

/-- Types of the hierarchy are mentioned in the sections. -/
lemma WrittenIn.mentions {declared : Declarations} (h : declared.WrittenIn parts)
    (hs : declared.Sound) {type : String} (htype : declared.types.contains type = true) :
    fold type = rootType ∨ fold type ∈ declaredIn .types mentioned parts := by
  rcases (TypeHierarchy.contains_ofDeclarations hs.types).mp htype with
    hroot | ⟨entry, hentry, hkey⟩
  · exact Or.inl hroot
  · obtain ⟨declaration, hdeclaration, hname, parent, hparent, hparentKey⟩ :=
      TypeHierarchy.mem_parents_of_ofDeclarations hs.types hentry
    -- A declared type is listed; a parent may be mentioned and nothing more.
    rw [Folding.ascii_lower] at hkey
    rcases hkey with hkey | hkey
    · have hlisted : fold type ∈ declaredIn .types listed parts := by
        rw [← h.types, hkey, ← hname]
        exact List.mem_map_of_mem hdeclaration
      exact Or.inr (declaredIn_subset (fun _ => listedFrom_subset_mentioned false) hlisted)
    · rw [hkey, ← hparentKey]
      exact h.parents declaration hdeclaration parent hparent

/-- An action that uses only what is declared is supplied by the sections so far. -/
lemma WrittenIn.supplies {declared : Declarations} (h : declared.WrittenIn parts)
    (hs : declared.Sound) {action : Action} (haction : declared.Admits action)
    (hname : part[2]?.map Token.text = some action.name) :
    ActionSite.Supplies mentioned ⟨parts, part⟩ action where
  name := hname
  predicates := by
    intro body hbody atom hatom
    obtain ⟨predicate, hpredicate, hkey⟩ := haction.atoms body hbody atom false hatom
    rw [← h.predicates, ← hkey]
    exact List.mem_map_of_mem hpredicate
  functions := by
    intro body hbody atom hatom
    obtain ⟨function, hfunction, hkey⟩ := haction.atoms body hbody atom true hatom
    rw [← h.functions, ← hkey]
    exact List.mem_map_of_mem hfunction
  types := fun type htype => h.mentions hs (haction.contains_of_usesType htype)

end Declarations

/-! ### Effects of sections -/

/-- What a section with the given tokens after its keyword does to the declarations. -/
inductive SectionEffect (tokens : List Token) (declared : Declarations) :
    SectionKind → Declarations → Prop
  | requirements {flags : List Token} {closing : Token} :
      tokens = flags ++ [closing] → (∀ flag ∈ flags, Reader.isKeyword flag = true) →
      closing.kind = .closeParen → SectionEffect tokens declared .requirements { declared with
        requirements :=
          Text.union declared.requirements (Text.union [] (flags.map Token.key)) }
  | types {listing : List TypedName} (types : TypeHierarchy) : IsListing tokens listing →
      SectionEffect tokens declared .types { declared with
        typeDeclarations := declared.typeDeclarations ++ listing
        types := types }
  | constants (constants : List TypedName) :
      SectionEffect tokens declared .constants { declared with constants := constants }
  | predicates {added : List Predicate} :
      added.map (fun predicate => fold predicate.name) = heads tokens →
      SectionEffect tokens declared .predicates { declared with
        predicates := declared.predicates ++ added }
  | functions {added : List Function} :
      added.map (fun function => fold function.name) = heads tokens →
      SectionEffect tokens declared .functions { declared with
        functions := declared.functions ++ added }
  | action {kind : SectionKind} {action : Action} : kind = .action ∨ kind = .durativeAction →
      tokens.head?.map Token.text = some action.name → declared.Admits action →
      SectionEffect tokens declared kind { declared with actions := declared.actions ++ [action] }

namespace SectionEffect

variable {tokens : List Token} {declared after : Declarations} {kind : SectionKind}

/-- A section of requirements consists of flags and a closing parenthesis. -/
lemma exists_flags (h : SectionEffect tokens declared .requirements after) :
    ∃ flags closing, tokens = flags ++ [closing] ∧
      ∀ flag ∈ flags, Reader.isKeyword flag = true := by
  cases h with
  | requirements htokens hflags _ => exact ⟨_, _, htokens, hflags⟩
  | action hkind _ _ => simp at hkind

/-- Only sections of requirements add flags, and they add all of theirs. -/
lemma mem_requirements (h : SectionEffect tokens declared kind after) (flag : String) :
    flag ∈ after.requirements ↔ flag ∈ declared.requirements ++
      if some kind = some .requirements then flagKeys tokens else [] := by
  cases h with
  | @requirements flags closing htokens hflags hclose =>
    have hkeyword : Reader.isKeyword closing = false := by simp [Reader.isKeyword, hclose]
    have hkeys : flagKeys tokens = flags.map Token.key := by
      rw [flagKeys, htokens, List.filter_append, List.filter_eq_self.mpr hflags]
      simp [hkeyword]
    simp [hkeys]
  | action hkind _ _ => rcases hkind with rfl | rfl <;> simp
  | _ => simp

/-- Only sections of predicates add predicates, and they add their heads. -/
lemma predicates_eq (h : SectionEffect tokens declared kind after) :
    after.predicates.map (fun predicate => fold predicate.name) =
      declared.predicates.map (fun predicate => fold predicate.name) ++
        if some kind = some .predicates then heads tokens else [] := by
  cases h with
  | predicates hadded => simp [hadded]
  | action hkind _ _ => rcases hkind with rfl | rfl <;> simp
  | _ => simp

/-- Only sections of functions add functions, and they add their heads. -/
lemma functions_eq (h : SectionEffect tokens declared kind after) :
    after.functions.map (fun function => fold function.name) =
      declared.functions.map (fun function => fold function.name) ++
        if some kind = some .functions then heads tokens else [] := by
  cases h with
  | functions hadded => simp [hadded]
  | action hkind _ _ => rcases hkind with rfl | rfl <;> simp
  | _ => simp

/-- Only sections of types declare types, and they declare what they list. -/
lemma types_eq (h : SectionEffect tokens declared kind after) :
    after.typeDeclarations.map (fun entity => fold entity.name) =
      declared.typeDeclarations.map (fun entity => fold entity.name) ++
        if some kind = some .types then listed tokens else [] := by
  cases h with
  | types types hlisting => simp [hlisting.names]
  | action hkind _ _ => rcases hkind with rfl | rfl <;> simp
  | _ => simp

/-- Parents of types that a section declares are mentioned in it. -/
lemma parents (h : SectionEffect tokens declared kind after) {entity : TypedName}
    (hentity : entity ∈ after.typeDeclarations) : entity ∈ declared.typeDeclarations ∨
      kind = .types ∧ ∀ type ∈ entity.type.options,
        fold type = rootType ∨ fold type ∈ mentioned tokens := by
  cases h with
  | types types hlisting =>
    rcases List.mem_append.mp hentity with hentity | hentity
    · exact Or.inl hentity
    · exact Or.inr ⟨rfl, hlisting.types entity hentity⟩
  | _ => exact Or.inl hentity

/-- Only sections of actions add an action, which uses only what is declared before. -/
lemma actions (h : SectionEffect tokens declared kind after) :
    (kind ≠ .action ∧ kind ≠ .durativeAction ∧ after.actions = declared.actions) ∨
      ∃ action, (kind = .action ∨ kind = .durativeAction) ∧
        after.actions = declared.actions ++ [action] ∧
        tokens.head?.map Token.text = some action.name ∧ declared.Admits action := by
  cases h with
  | action hkind hname hadmits => exact Or.inr ⟨_, hkind, rfl, hname, hadmits⟩
  | _ => exact Or.inl ⟨nofun, nofun, rfl⟩

end SectionEffect

/-- A section keeps it that what is declared is what the sections name. -/
lemma Declarations.WrittenIn.step {declared after : Declarations} (h : declared.WrittenIn parts)
    (hs : declared.Sound) {opening keyword : Token} {tokens : List Token} {kind : SectionKind}
    (hkind : SectionKind.ofKey? keyword.key = some kind)
    (heffect : SectionEffect tokens declared kind after) :
    after.WrittenIn (parts ++ [opening :: keyword :: tokens]) where
  requirements := by
    intro flag
    rw [declaredIn_concat, heffect.mem_requirements, List.mem_append, h.requirements, ← hkind,
      List.mem_append]
    rfl
  predicates := by
    rw [declaredIn_concat, heffect.predicates_eq, h.predicates, ← hkind]
    rfl
  functions := by
    rw [declaredIn_concat, heffect.functions_eq, h.functions, ← hkind]
    rfl
  types := by
    rw [declaredIn_concat, heffect.types_eq, h.types, ← hkind]
    rfl
  parents := by
    intro entity hentity type htype
    rcases heffect.parents hentity with hentity | ⟨rfl, hparents⟩
    · exact (h.parents entity hentity type htype).imp_right
        fun hkey => declaredIn_subset_concat _ _ hkey
    · refine (hparents type htype).imp_right fun hkey => ?_
      have hpart : sectionKind? (opening :: keyword :: tokens) = some .types := hkind
      rw [declaredIn_concat, if_pos hpart]
      exact List.mem_append_right _ hkey
  actions := by
    have hpart : sectionKind? (opening :: keyword :: tokens) = some kind := hkind
    rw [sitesFrom_concat, isActionPart, hpart]
    rcases heffect.actions with ⟨hne, hne', hactions⟩ | ⟨action, hcase, hactions, hname, hadmits⟩
    · rw [if_neg (by simp [hne, hne']), List.append_nil, hactions]
      exact h.actions
    · rw [if_pos (by simpa using hcase), hactions]
      have hhead : (opening :: keyword :: tokens)[2]?.map Token.text = some action.name := by
        rw [← hname, List.head?_eq_getElem?]
        rfl
      exact List.rel_append h.actions (.cons (h.supplies hs hadmits hhead) .nil)

/-! ### Readers of sections -/

namespace Assembly

variable {c : Reader.Context} {a a' : Assembly}

/-- A reader that leaves the declarations alone succeeds as it does by itself. -/
lemma lift_eq_ok {α : Type} {m : ReadM α} {x : α} :
    (liftM m : AssembleM α) c a = .ok x a' ↔
      ∃ s', m c a.toState = .ok x s' ∧ a' = { a with toState := s' } :=
  ofReader_eq_ok

/-- What each round of a repetition keeps, given the tokens passed so far, the repetition keeps. -/
lemma repeatWhile_passes {test : Token → Bool} {step : AssembleM Unit}
    {P : List Token → Declarations → Prop}
    (hstep : ∀ (a a' : Assembly) (passed : List Token), a.cursor.Valid → P passed a.declared →
      step c a = .ok () a' → ∃ ts, a.cursor.Passes ts a'.cursor ∧ P (passed ++ ts) a'.declared)
    (hv : a.cursor.Valid) (hP : P [] a.declared) (h : repeatWhile test step c a = .ok () a') :
    ∃ ts, a.cursor.Passes ts a'.cursor ∧ P ts a'.declared := by
  suffices h : ∀ passed, P passed a.declared →
      ∃ ts, a.cursor.Passes ts a'.cursor ∧ P (passed ++ ts) a'.declared from h [] hP
  clear hP
  replace h := repeatWhile_repeatsStep h
  induction h with
  | stop a => exact fun passed hP => ⟨[], ⟨hv, rfl⟩, by rwa [List.append_nil]⟩
  | @next a a₁ a' _ hone _ ih =>
    intro passed hP
    obtain ⟨ts, hpasses, hP₁⟩ := hstep a a₁ passed hv hP hone
    obtain ⟨us, hpasses', hP'⟩ := ih hpasses.valid (passed ++ ts) hP₁
    exact ⟨ts ++ us, hpasses.trans hpasses', by rwa [← List.append_assoc]⟩

/-- Reading a predicate passes a group and adds a predicate with the head of the group. -/
lemma predicate_passes (hv : a.cursor.Valid) (h : predicate c a = .ok () a') :
    ∃ ts added, a.cursor.Passes ts a'.cursor ∧ IsGroup ts ∧ heads ts = [fold added.name] ∧
      a'.declared = { a.declared with predicates := a.declared.predicates ++ [added] } := by
  obtain ⟨⟨token, params⟩, a₁, hskeleton, h⟩ := Reader.bind_eq_ok.mp h
  obtain ⟨s₁, hrun, rfl⟩ := lift_eq_ok.mp hskeleton
  obtain ⟨ts, hc, hgroup, hheads⟩ := Reader.skeleton_consumes hv hrun
  obtain ⟨-, rfl⟩ := declarePredicate_eq_ok.mp h
  exact ⟨ts, ⟨token.text, params⟩, hc.passes, hgroup, hheads, rfl⟩

/-- Declaring functions adds them in their order. -/
lemma declareFunctions_eq_ok {returns : String} : ∀ (skeletons : List (Token × List TypedName))
    (a : Assembly), declareFunctions returns skeletons c a = .ok () a' →
    a' = { a with declared := { a.declared with
      functions := a.declared.functions ++
        skeletons.map fun skeleton => ⟨skeleton.1.text, skeleton.2, returns⟩ } } := by
  intro skeletons
  induction skeletons with
  | nil =>
    intro a h
    obtain ⟨-, rfl⟩ := Reader.pure_eq_ok.mp h
    simp
  | cons skeleton rest ih =>
    intro a h
    obtain ⟨u, a₁, hone, hrest⟩ := Reader.bind_eq_ok.mp h
    obtain ⟨-, rfl⟩ := declareFunction_eq_ok.mp hone
    rw [ih _ hrest]
    simp

/-- A round of functions that succeeds has read skeletons.  After a `-` they have the type that
stands there, and more rounds follow; otherwise they are numeric and the last ones. -/
lemma functionGroups_succ_eq_ok {fuel : Nat} (h : functionGroups (fuel + 1) c a = .ok () a') :
    ∃ skeletons s,
      Reader.readWhile (Reader.hasKind .openParen) skeleton c a.toState = .ok skeletons s ∧
      ((s.cursor.current.kind = .minus ∧ skeletons.isEmpty = false ∧
          ∃ minus s₁ returns s₂ a₁, Reader.advance c s = .ok minus s₁ ∧
            Reader.name "a function type" c s₁ = .ok returns s₂ ∧
            declareFunctions returns skeletons c { a with toState := s₂ } = .ok () a₁ ∧
            functionGroups fuel c a₁ = .ok () a') ∨
        (s.cursor.current.kind ≠ .minus ∧
          declareFunctions numberType skeletons c { a with toState := s } = .ok () a')) := by
  obtain ⟨skeletons, a₁, hskeletons, h⟩ := Reader.bind_eq_ok.mp h
  obtain ⟨s, hread, rfl⟩ := lift_eq_ok.mp hskeletons
  obtain ⟨kind, a₂, hkind, h⟩ := Reader.bind_eq_ok.mp h
  obtain ⟨s', hrun, rfl⟩ := lift_eq_ok.mp hkind
  obtain ⟨rfl, rfl⟩ := Reader.currentKind_eq_ok.mp hrun
  refine ⟨skeletons, s, hread, ?_⟩
  split_ifs at h with hminus hempty
  · obtain ⟨s₁, hfail, -⟩ := lift_eq_ok.mp h
    exact absurd hfail (by simp)
  · obtain ⟨minus, a₁, hstep, h⟩ := Reader.bind_eq_ok.mp h
    obtain ⟨s₁, hadvance, rfl⟩ := lift_eq_ok.mp hstep
    obtain ⟨returns, a₂, hstep, h⟩ := Reader.bind_eq_ok.mp h
    obtain ⟨s₂, hname, rfl⟩ := lift_eq_ok.mp hstep
    obtain ⟨u, a₃, hdeclare, h⟩ := Reader.bind_eq_ok.mp h
    exact .inl ⟨hminus, by simpa using hempty, minus, s₁, returns, s₂, a₃, hadvance, hname,
      hdeclare, h⟩
  · exact .inr ⟨hminus, h⟩

/-- Reading functions passes groups, with types among them, and adds functions with the heads of the
groups. -/
lemma functionGroups_passes : ∀ (fuel : Nat) (a : Assembly), a.cursor.Valid →
    functionGroups fuel c a = .ok () a' →
    ∃ ts added, a.cursor.Passes ts a'.cursor ∧ Balanced ts ∧
      added.map (fun function => fold function.name) = heads ts ∧
      a'.declared = { a.declared with functions := a.declared.functions ++ added } := by
  intro fuel
  induction fuel with
  | zero =>
    intro a hv h
    obtain ⟨-, rfl⟩ := Reader.pure_eq_ok.mp h
    exact ⟨[], [], ⟨hv, rfl⟩, .nil, rfl, by simp⟩
  | succ fuel ih =>
    intro a hv h
    obtain ⟨skeletons, s₁, hrun, hround⟩ := functionGroups_succ_eq_ok h
    have hitem : ∀ s skeleton s', s.cursor.Valid →
        Reader.hasKind .openParen s.cursor.current = true →
        Assembly.skeleton c s = .ok skeleton s' → ∃ ts, Reader.Consumes s ts s' ∧ ts ≠ [] ∧
          IsGroup ts ∧ heads ts = [skeleton.1.key] := by
      intro s skeleton s' hv _ h
      obtain ⟨ts, hc, hgroup, hheads⟩ := Reader.skeleton_consumes hv h
      exact ⟨ts, hc, hgroup.ne_nil, hgroup, hheads⟩
    obtain ⟨items, rfl, hitems, hc, -⟩ := Reader.readWhile_consumes hitem hv hrun
    have hbalanced : Balanced (items.flatMap Prod.snd) :=
      .flatMap fun item hmem => (hitems item hmem).1.balanced
    have hheads : heads (items.flatMap Prod.snd) = items.map fun item => item.1.1.key :=
      heads_flatMap (fun skeleton : Token × List TypedName => skeleton.1.key) hitems
    obtain ⟨hend, -, minus, s₃, returns, s₄, a₅, hadvance, hname, hdeclare, h⟩ | ⟨-, h⟩ := hround
    · obtain rfl := declareFunctions_eq_ok _ _ hdeclare
      obtain ⟨rfl, hc₁⟩ := Reader.advance_consumes hc.valid hadvance (by rw [hend]; decide)
      obtain ⟨htype, -, hc₂⟩ := Reader.name_consumes hc₁.valid hname
      obtain ⟨us, added, hpasses, hus, hadded, hdeclared⟩ := ih _ hc₂.valid h
      have hplain : Balanced [s₁.cursor.current, s₃.cursor.current] :=
        .of_plain fun t ht => by
          rcases List.mem_pair.mp ht with rfl | rfl
          · simp [hend]
          · simp [htype]
      refine ⟨_, _, (hc.trans (hc₁.cons hc₂)).passes.trans hpasses,
        (hbalanced.append hplain).append hus, ?_, by rw [hdeclared, List.append_assoc]⟩
      rw [heads_append (hbalanced.append hplain), heads_append hbalanced, hheads, ← hadded,
        List.map_append, heads_cons_plain (by simp [hend]) (by simp [hend]),
        heads_cons_plain (by simp [htype]) (by simp [htype]), List.map_map, List.map_map]
      simp [Token.key]
    · obtain rfl := declareFunctions_eq_ok _ _ h
      refine ⟨_, _, hc.passes, hbalanced, ?_, rfl⟩
      rw [hheads, List.map_map, List.map_map]
      rfl

/-- The rest of a section was read, from after its keyword, and had its effect. -/
def ReadsRest (kind : SectionKind) (a a' : Assembly) : Prop :=
  ∃ tokens, a.cursor.Passes tokens a'.cursor ∧ IsTail tokens ∧
    SectionEffect tokens a.declared kind a'.declared

/-- A section was read from its keyword on, and had its effect. -/
def ReadsSection (kind : SectionKind) (a a' : Assembly) : Prop :=
  ∃ tokens, a.cursor.Passes (a.cursor.current :: tokens) a'.cursor ∧ IsTail tokens ∧
    SectionEffect tokens a.declared kind a'.declared

/-- Reading a section whose reader consumes the keyword first. -/
lemma ReadsSection.of_rest {kind : SectionKind} {rest : Token → AssembleM Unit}
    (hrest : ∀ (token : Token) (a : Assembly), a.cursor.Valid → rest token c a = .ok () a' →
      ReadsRest kind a a')
    (hv : a.cursor.Valid) (hkeyword : Reader.isKeyword a.cursor.current = true)
    (h : (do rest (← liftM Reader.advance) : AssembleM Unit) c a = .ok () a') :
    ReadsSection kind a a' := by
  obtain ⟨keyword, a₁, hadvance, h⟩ := Reader.bind_eq_ok.mp h
  obtain ⟨s₁, hrun, rfl⟩ := lift_eq_ok.mp hadvance
  obtain ⟨rfl, hc⟩ := Reader.advance_consumes hv hrun (Reader.kind_of_isKeyword hkeyword).2.2
  obtain ⟨tokens, hpasses, htail, heffect⟩ := hrest _ _ hc.valid h
  exact ⟨tokens, hc.passes.trans hpasses, htail, heffect⟩

/-- Consuming the closing parenthesis of a section. -/
lemma expect_close {expected : String} {token : Token} (hv : a.cursor.Valid)
    (h : (liftM (Reader.expect .closeParen expected) : AssembleM Token) c a = .ok token a') :
    token.kind = .closeParen ∧ a'.declared = a.declared ∧ a.cursor.Passes [token] a'.cursor := by
  obtain ⟨s', hrun, rfl⟩ := lift_eq_ok.mp h
  obtain ⟨-, hkind, hc⟩ := Reader.expect_consumes hv hrun (by decide)
  exact ⟨hkind, rfl, hc.passes⟩

/-- Reading types. -/
lemma typesBody_reads (hv : a.cursor.Valid) (h : typesBody c a = .ok () a') :
    ReadsRest .types a a' := by
  obtain ⟨listing, a₁, hread, h⟩ := Reader.bind_eq_ok.mp h
  obtain ⟨s₁, hrun, rfl⟩ := lift_eq_ok.mp hread
  obtain ⟨inner, hc, hinner, hlisting⟩ := Reader.typedList_listed hv hrun
  simp only [Reader.bind_eq_ok, check_eq_ok] at h
  obtain ⟨u, a₂, hdeclare, declared, a₃, hdeclared, types, a₄, ⟨-, rfl⟩, u', a₅, hdeclare',
    closing, a₆, hclose, hpure⟩ := h
  cases hdeclare
  cases hdeclared
  cases hdeclare'
  obtain ⟨-, rfl⟩ := Reader.pure_eq_ok.mp hpure
  obtain ⟨hkind, hafter, hpasses⟩ := expect_close hc.valid hclose
  refine ⟨_, hc.passes.trans hpasses, ⟨inner, closing, rfl, hinner, hkind⟩, ?_⟩
  rw [hafter]
  exact .types types (hlisting.concat (by rw [hkind]; decide))

/-- Reading constants. -/
lemma constantsBody_reads (hv : a.cursor.Valid) (h : constantsBody c a = .ok () a') :
    ReadsRest .constants a a' := by
  obtain ⟨listing, a₁, hlisting, h⟩ := Reader.bind_eq_ok.mp h
  obtain ⟨s₁, hrun, rfl⟩ := lift_eq_ok.mp hlisting
  obtain ⟨inner, hc, hinner⟩ := Reader.typedList_consumes (by decide) hv hrun
  simp only [Reader.bind_eq_ok] at h
  obtain ⟨u, a₂, hdeclare, closing, a₃, hclose, hpure⟩ := h
  cases hdeclare
  obtain ⟨-, rfl⟩ := Reader.pure_eq_ok.mp hpure
  obtain ⟨hkind, hafter, hpasses⟩ := expect_close hc.valid hclose
  refine ⟨_, hc.passes.trans hpasses, ⟨inner, closing, rfl, hinner, hkind⟩, ?_⟩
  rw [hafter]
  exact .constants _

/-- Predicates with the heads of the tokens as their names were added to the declarations. -/
def AddsPredicates (declared : Declarations) (tokens : List Token) (after : Declarations) : Prop :=
  Balanced tokens ∧ ∃ added : List Predicate,
    added.map (fun predicate => fold predicate.name) = heads tokens ∧
    after = { declared with predicates := declared.predicates ++ added }

/-- Reading predicates up to the closing parenthesis. -/
lemma predicates_reads {test : Token → Bool} {expected : String} (hv : a.cursor.Valid)
    (h : (do
      repeatWhile test predicate
      let _ ← liftM (Reader.expect .closeParen expected) : AssembleM Unit) c a = .ok () a') :
    ReadsRest .predicates a a' := by
  obtain ⟨u, a₁, hloop, h⟩ := Reader.bind_eq_ok.mp h
  have hadds : ∃ ts, a.cursor.Passes ts a₁.cursor ∧ AddsPredicates a.declared ts a₁.declared := by
    refine repeatWhile_passes (P := AddsPredicates a.declared) ?_ hv ⟨.nil, [], rfl, by simp⟩ hloop
    rintro b b' passed hv ⟨hpassed, added, hadded, hdeclared⟩ hone
    obtain ⟨ts, new, hpasses, hgroup, hheads, hnew⟩ := predicate_passes hv hone
    refine ⟨ts, hpasses, hpassed.append hgroup.balanced, added ++ [new], ?_, ?_⟩
    · rw [heads_append hpassed, hheads, List.map_append, hadded]
      rfl
    · rw [hnew, hdeclared, List.append_assoc]
  obtain ⟨inner, hpasses, hinner, added, hadded, hafter⟩ := hadds
  obtain ⟨closing, a₂, hclose, hpure⟩ := Reader.bind_eq_ok.mp h
  obtain ⟨-, rfl⟩ := Reader.pure_eq_ok.mp hpure
  obtain ⟨hkind, hlast, hpasses'⟩ := expect_close hpasses.valid hclose
  refine ⟨_, hpasses.trans hpasses', ⟨inner, closing, rfl, hinner, hkind⟩, ?_⟩
  rw [hlast, hafter]
  exact .predicates (hadded.trans (heads_concat_close hinner hkind).symm)

/-- Reading functions up to the closing parenthesis. -/
lemma functions_reads {token : Token} {feature : Feature} {expected : String} (hv : a.cursor.Valid)
    (h : (do
      liftM (Reader.require token feature)
      functionList
      let _ ← liftM (Reader.expect .closeParen expected) : AssembleM Unit) c a = .ok () a') :
    ReadsRest .functions a a' := by
  simp only [functionList, Reader.bind_eq_ok] at h
  obtain ⟨u, a₁, hrequire, u', a₂, ⟨rounds, a₃, hrounds, hgroups⟩, closing, a₄, hclose, hpure⟩ := h
  obtain ⟨s₁, hrun, rfl⟩ := lift_eq_ok.mp hrequire
  obtain ⟨-, hc⟩ := Reader.require_consumes hv hrun
  obtain ⟨s₂, hrun₂, rfl⟩ := lift_eq_ok.mp hrounds
  obtain ⟨-, rfl⟩ := Reader.rounds_eq_ok.mp hrun₂
  obtain ⟨inner, added, hpasses, hinner, hadded, hafter⟩ :=
    functionGroups_passes _ _ hc.valid hgroups
  obtain ⟨-, rfl⟩ := Reader.pure_eq_ok.mp hpure
  obtain ⟨hkind, hlast, hpasses'⟩ := expect_close hpasses.valid hclose
  refine ⟨_, hc.passes.trans (hpasses.trans hpasses'), ⟨inner, closing, rfl, hinner, hkind⟩, ?_⟩
  rw [hlast, hafter]
  exact .functions (hadded.trans (heads_concat_close hinner hkind).symm)

/-- Reading an action and adding it. -/
lemma action_reads {kind : SectionKind} {reader : ReadM Action}
    (hkind : kind = .action ∨ kind = .durativeAction)
    (htimed : Reader.Ensures reader Action.TimedIfDurative)
    (hconsumes : ∀ (s s' : Reader.State) (action : Action), s.cursor.Valid →
      reader c s = .ok action s' → ∃ ts, Reader.Consumes s (s.cursor.current :: ts) s' ∧
        IsTail ts ∧ ts.head?.map Token.text = some action.name)
    (hv : a.cursor.Valid) (h : (do addAction (← liftM reader) : AssembleM Unit) c a = .ok () a') :
    ReadsSection kind a a' := by
  obtain ⟨action, a₁, haction, h⟩ := Reader.bind_eq_ok.mp h
  obtain ⟨s₁, hrun, rfl⟩ := lift_eq_ok.mp haction
  obtain ⟨hcheck, rfl⟩ := addAction_eq_ok.mp h
  have hadmits : a.declared.Admits action :=
    Declarations.admits_of_references hcheck (htimed c a.toState action s₁ hv hrun).2
  obtain ⟨tokens, hc, htail, hname⟩ := hconsumes a.toState s₁ action hv hrun
  exact ⟨tokens, hc.passes, htail, .action hkind hname hadmits⟩

/-- Reading a section has the effect that its tokens tell. -/
lemma sectionOf_reads {kind : SectionKind} (hv : a.cursor.Valid)
    (hkeyword : Reader.isKeyword a.cursor.current = true) (h : sectionOf kind c a = .ok () a') :
    ReadsSection kind a a' := by
  cases kind with
  | requirements =>
    obtain ⟨flags, a₁, hflags, h⟩ := Reader.bind_eq_ok.mp h
    obtain ⟨s₁, hrun, rfl⟩ := lift_eq_ok.mp hflags
    cases h
    obtain ⟨tokens, closing, hpasses, hkeywords, hclose, rfl⟩ := Reader.requirements_passes hv hrun
    exact ⟨_, hpasses, Reader.isTail_flags hkeywords hclose, .requirements rfl hkeywords hclose⟩
  | types => exact .of_rest (fun _ _ => typesBody_reads) hv hkeyword h
  | constants => exact .of_rest (fun _ _ => constantsBody_reads) hv hkeyword h
  | predicates => exact .of_rest (fun _ _ => predicates_reads) hv hkeyword h
  | functions => exact .of_rest (fun _ _ => functions_reads) hv hkeyword h
  | action =>
    exact action_reads (Or.inl rfl) Reader.action_ensures (fun _ _ _ => Reader.action_consumes) hv h
  | durativeAction =>
    exact action_reads (Or.inr rfl) Reader.durativeAction_ensures
      (fun _ _ _ => Reader.durativeAction_consumes) hv h

/-- The declarations are sound and written in the groups of the tokens passed so far. -/
def WrittenGroups (passed : List Token) (declared : Declarations) : Prop :=
  Balanced passed ∧ declared.Sound ∧ declared.WrittenIn (groups passed)

/-- A section is read by the reader of its kind, from its keyword on. -/
lemma anySection_eq_ok (h : anySection c a = .ok () a') :
    Reader.isKeyword a.cursor.current = true ∧ ∃ kind,
      SectionKind.ofKey? a.cursor.current.key = some kind ∧ sectionOf kind c a = .ok () a' := by
  obtain ⟨keyword, a₁, hcurrent, h⟩ := Reader.bind_eq_ok.mp h
  obtain ⟨s₁, hrun, rfl⟩ := lift_eq_ok.mp hcurrent
  obtain ⟨rfl, rfl⟩ := Reader.current_eq_ok.mp hrun
  split_ifs at h with hkeyword
  · refine ⟨hkeyword, ?_⟩
    cases hkind : SectionKind.ofKey? a.cursor.current.key with
    | none =>
      simp only [hkind] at h
      obtain ⟨s₂, hfail, -⟩ := lift_eq_ok.mp h
      exact absurd hfail (by simp)
    | some kind =>
      simp only [hkind] at h
      exact ⟨kind, rfl, h⟩
  · obtain ⟨s₂, hfail, -⟩ := lift_eq_ok.mp h
    exact absurd hfail (by simp)

/-- After its opening parenthesis a section is read by the reader of its kind, from its keyword
on. -/
lemma section_eq_ok (hv : a.cursor.Valid)
    (h : (do
      let _ ← liftM Reader.openParen
      anySection : AssembleM Unit) c a = .ok () a') :
    ∃ opening s₁ kind, opening.kind = .openParen ∧ Reader.Consumes a.toState [opening] s₁ ∧
      Reader.isKeyword s₁.cursor.current = true ∧
      SectionKind.ofKey? s₁.cursor.current.key = some kind ∧
      sectionOf kind c { a with toState := s₁ } = .ok () a' := by
  obtain ⟨opening, a₁, hopen, h⟩ := Reader.bind_eq_ok.mp h
  obtain ⟨s₁, hrun, rfl⟩ := lift_eq_ok.mp hopen
  obtain ⟨-, hopenKind, hc⟩ := Reader.expect_consumes hv hrun (by decide)
  obtain ⟨hkeyword, kind, hkind, h⟩ := anySection_eq_ok h
  exact ⟨opening, s₁, kind, hopenKind, hc, hkeyword, hkind, h⟩

/-- A section with its opening parenthesis is one group, and keeps what is declared written in the
groups passed. -/
lemma section_passes {passed : List Token} (hv : a.cursor.Valid)
    (hwritten : WrittenGroups passed a.declared)
    (h : (do
      let _ ← liftM Reader.openParen
      anySection : AssembleM Unit) c a = .ok () a') :
    ∃ ts, a.cursor.Passes ts a'.cursor ∧ IsGroup ts ∧
      WrittenGroups (passed ++ ts) a'.declared := by
  obtain ⟨hpassed, hs, hwritten⟩ := hwritten
  obtain ⟨opening, s₁, kind, hopenKind, hc, hkeyword, hkind, h⟩ := section_eq_ok hv h
  -- The invariant needs the hierarchy of the types so far, which soundness gives.
  have hs' : a'.declared.Sound :=
    (sectionOf_ensures kind c { a with toState := s₁ } () a' hc.valid hs h).2.1
  obtain ⟨tokens, hpasses, ⟨inner, closing, rfl, hinner, hclose⟩, heffect⟩ :=
    sectionOf_reads hc.valid hkeyword h
  obtain ⟨hne, hne', -⟩ := Reader.kind_of_isKeyword hkeyword
  have hgroup : IsGroup (opening :: s₁.cursor.current :: (inner ++ [closing])) :=
    ⟨opening, _ :: inner, closing, rfl, hopenKind, hclose, .plain hne hne' hinner⟩
  refine ⟨opening :: s₁.cursor.current :: (inner ++ [closing]), hc.passes.trans hpasses, hgroup,
    hpassed.append hgroup.balanced, hs', ?_⟩
  rw [groups_append hpassed, groups_group hgroup]
  exact hwritten.step hs hkind heffect

/-- The heading and the sections of a domain are passed, and what is declared then is written in the
sections. -/
lemma sections_passes {cursor : Cursor} {name : String} (hv : cursor.Valid)
    (h : sections c (ofCursor cursor) = .ok name a') :
    ∃ opening heading ts, cursor.Passes (opening :: heading ++ ts) a'.cursor ∧
      opening.kind = .openParen ∧ Balanced heading ∧ heading.length = 5 ∧
      WrittenGroups ts a'.declared := by
  simp only [sections, Reader.bind_eq_ok, Reader.pure_eq_ok] at h
  obtain ⟨_, a₁, hheader, u₁, a₂, hnote, u₂, a₃, hsections, rfl, rfl⟩ := h
  obtain ⟨s₁, hrun₁, rfl⟩ := lift_eq_ok.mp hheader
  obtain ⟨opening, heading, hopen, hheading, hlength, hc₁⟩ := Reader.header_consumes hv hrun₁
  obtain ⟨s₂, hrun₂, rfl⟩ := lift_eq_ok.mp hnote
  cases hrun₂
  have hstep (a a' : Assembly) (passed : List Token) (hv : a.cursor.Valid)
      (hwritten : WrittenGroups passed a.declared)
      (hone : (do
        let _ ← liftM Reader.openParen
        anySection : AssembleM Unit) c a = .ok () a') :
      ∃ ts, a.cursor.Passes ts a'.cursor ∧ WrittenGroups (passed ++ ts) a'.declared := by
    obtain ⟨ts, hpasses, -, hwritten'⟩ := section_passes hv hwritten hone
    exact ⟨ts, hpasses, hwritten'⟩
  obtain ⟨ts, hpasses, hwritten⟩ := repeatWhile_passes hstep hc₁.valid
    ⟨.nil, Declarations.empty_sound, Declarations.empty_writtenIn⟩ hsections
  exact ⟨opening, heading, ts, hc₁.passes.trans hpasses, hopen, hheading, hlength, hwritten⟩

/-- A domain that is read is a heading, sections and a closing parenthesis, before whatever else
there is.  It has the flags, actions and types of declarations that are written in the
sections. -/
lemma domain_passes {cursor : Cursor} {domain : Domain} (hv : cursor.Valid)
    (h : Assembly.domain c (ofCursor cursor) = .ok domain a') :
    ∃ opening heading sections closing after declared,
      cursor.upcoming = opening :: (heading ++ (sections ++ closing :: after)) ∧
      opening.kind = .openParen ∧ Balanced heading ∧ heading.length = 5 ∧
      closing.kind = .closeParen ∧ WrittenGroups sections declared ∧
      domain.requirements = declared.requirements ∧ domain.actions = declared.actions ∧
      TypeHierarchy.ofDeclarations declared.typeDeclarations = .ok domain.types := by
  simp only [domain_eq, Reader.bind_eq_ok] at h
  obtain ⟨name, a₁, hsections, closing, a₂, hclose, u, a₃, hend, hconclude⟩ := h
  obtain ⟨opening, heading, ts, hpasses, hopen, hheading, hlength, hwritten⟩ :=
    sections_passes hv hsections
  obtain ⟨hkind, hlast, hpasses'⟩ := expect_close hpasses.valid hclose
  obtain ⟨s₃, -, rfl⟩ := lift_eq_ok.mp hend
  obtain ⟨types, htypes, rfl, -⟩ := conclude_eq_ok.mp hconclude
  refine ⟨opening, heading, ts, closing, a₂.cursor.upcoming, a₁.declared, ?_, hopen, hheading,
    hlength, hkind, hwritten, congrArg Declarations.requirements hlast,
    congrArg Declarations.actions hlast, ?_⟩
  · rw [(hpasses.trans hpasses').upcoming]
    simp
  · rw [← hlast]
    exact (TypeHierarchy.ofDeclarationsValid_eq_ok htypes).1

/-- The sections of a text are the groups between its heading and its last parenthesis. -/
lemma parts_eq_groups {text : String} {cursor : Cursor} {opening closing : Token}
    {heading sections after : List Token} (hcursor : Cursor.ofText text = .ok cursor)
    (hupcoming : cursor.upcoming = opening :: (heading ++ (sections ++ closing :: after)))
    (hlength : heading.length = 5) (hsections : Balanced sections)
    (hclose : closing.kind = .closeParen) : Domain.parts text = groups sections := by
  have hdrop : 6 = (opening :: heading).length := by rw [List.length_cons, hlength]
  rw [Domain.parts, ← (Cursor.of_ofText hcursor).2.1, hupcoming, ← List.cons_append, hdrop,
    List.drop_left, groups_append hsections, groups_cons_close hclose, List.append_nil]

/-- A domain that is read has the actions and types of declarations that are written in its
sections. -/
lemma domain_writtenIn {text : String} {cursor : Cursor} {domain : Domain}
    (hcursor : Cursor.ofText text = .ok cursor)
    (h : Assembly.domain c (ofCursor cursor) = .ok domain a') :
    ∃ declared : Declarations, declared.WrittenIn (Domain.parts text) ∧
      domain.actions = declared.actions ∧
      TypeHierarchy.ofDeclarations declared.typeDeclarations = .ok domain.types := by
  obtain ⟨opening, heading, sections, closing, after, declared, hupcoming, -, -, hlength, hclose,
    ⟨hsections, -, hwritten⟩, -, hactions, htypes⟩ :=
    domain_passes (Cursor.of_ofText hcursor).1 h
  have hparts := parts_eq_groups hcursor hupcoming hlength hsections hclose
  exact ⟨declared, hparts ▸ hwritten, hactions, htypes⟩

/-- A domain that is read has the flags that are listed in its sections of requirements. -/
lemma mem_requirements_domain {text : String} {cursor : Cursor} {domain : Domain}
    (hcursor : Cursor.ofText text = .ok cursor)
    (h : Assembly.domain c (ofCursor cursor) = .ok domain a') (flag : String) :
    flag ∈ domain.requirements ↔
      flag ∈ declaredIn .requirements flagKeys (Domain.parts text) := by
  obtain ⟨opening, heading, sections, closing, after, declared, hupcoming, -, -, hlength, hclose,
    ⟨hsections, -, hwritten⟩, hrequirements, -⟩ := domain_passes (Cursor.of_ofText hcursor).1 h
  rw [hrequirements, parts_eq_groups hcursor hupcoming hlength hsections hclose]
  exact hwritten.requirements flag

end Assembly

namespace Domain

/-- Types that the actions of a closed domain use are known in it. -/
lemma Closed.knows_of_usesType {domain : Domain} (h : domain.Closed) {action : Action}
    (haction : action ∈ domain.actions) {type : String} (htype : action.UsesType type) :
    domain.types.Knows type := by
  cases htype with
  | param hparam htype => exact h.actions_known action haction _ hparam _ htype
  | quantified hbody hpart hvar htype =>
    exact h.quantified_known action haction _ hbody _ _ _ hpart _ hvar _ htype

/-- In every text that is read as a domain, under any settings, the sections before an action supply
it: they declare its predicates and functions, and they declare its types or at least mention them
as parents.  Those types are all declared somewhere in the text. -/
theorem parse_supplies_actions (settings : Settings) (text : String) (capacity : Nat)
    (domain : Domain) (h : (parse settings text capacity).result = .ok domain) :
    List.Forall₂ (ActionSite.Supplies mentioned) (actionSites text) domain.actions ∧
      ∀ action ∈ domain.actions, ∀ type, action.UsesType type →
        fold type = rootType ∨ fold type ∈ declaredIn .types listed (Domain.parts text) := by
  obtain ⟨cursor, a', hcursor, hrun⟩ := parse_eq_ok.mp h
  obtain ⟨declared, hwritten, hactions, htypes⟩ := Assembly.domain_writtenIn hcursor hrun
  have hclosed : domain.Closed := (Assembly.domain_ensures _ _ _ _
    (Cursor.of_ofText hcursor).1 Declarations.empty_sound hrun).2.2
  refine ⟨hactions ▸ hwritten.actions, fun action haction type htype => ?_⟩
  refine (hclosed.knows_of_usesType haction htype).imp_right fun hknown => ?_
  obtain ⟨parent, hlookup⟩ := Option.isSome_iff_exists.mp hknown
  obtain ⟨declaration, hdeclaration, hname, -⟩ :=
    TypeHierarchy.mem_parents_of_ofDeclarations htypes (Table.mem_of_lookup hlookup)
  rw [← hwritten.types, ← show fold declaration.name = fold type from hname]
  exact List.mem_map_of_mem hdeclaration

/-- A domain whose second action uses a type that is declared after the first one. -/
def interleavedText : String :=
  "(define (domain d) (:predicates (p)) (:action a :effect (p)) " ++
    "(:types t) (:action b :parameters (?x - T)))"

/-- The domain is read, so its actions are supplied at their places. -/
theorem parse_supplies_actions_interleaved :
    ∃ domain, (parse .lenient interleavedText).result = .ok domain ∧
      (actionSites interleavedText).map (fun site => site.before.length) = [1, 3] ∧
      List.Forall₂ (ActionSite.Supplies mentioned) (actionSites interleavedText)
        domain.actions := by
  have hread : (parse .lenient interleavedText).result.toOption.isSome = true := by
    decide +kernel
  obtain ⟨domain, hdomain⟩ := Option.isSome_iff_exists.mp hread
  have hparse := Check.toOption_eq_some.mp hdomain
  exact ⟨domain, hparse, by decide +kernel, (parse_supplies_actions _ _ _ domain hparse).1⟩

/-- An action may use a type that no section before it declares, only because one of them mentions
it as a parent. -/
theorem exists_type_before_declaration :
    ∃ domain, (parse .lenient lateTypeText).result = .ok domain ∧
      ¬ List.Forall₂ (ActionSite.Supplies listed) (actionSites lateTypeText)
        domain.actions := by
  have hread : (parse .lenient lateTypeText).result.toOption.map (fun domain =>
      domain.actions.map Action.params) = some [[⟨"?x", .named "car"⟩]] := by
    decide +kernel
  obtain ⟨domain, hdomain, hshape⟩ := Option.map_eq_some_iff.mp hread
  obtain ⟨action, hactions, hparams⟩ := List.map_eq_singleton_iff.mp hshape
  have hsites : (actionSites lateTypeText).map (fun site =>
      declaredIn .types listed site.before) = [["van"]] := by
    decide +kernel
  obtain ⟨site, hsite, hdeclared⟩ := List.map_eq_singleton_iff.mp hsites
  refine ⟨domain, Check.toOption_eq_some.mp hdomain, fun hall => ?_⟩
  rw [hsite, hactions] at hall
  cases hall with
  | cons hsupplies _ =>
    have hcar : action.UsesType "car" :=
      .param (by rw [hparams]; exact List.mem_cons_self) List.mem_cons_self
    have hdeclaredBefore := hsupplies.types "car" hcar
    rw [hdeclared] at hdeclaredBefore
    exact absurd hdeclaredBefore (by decide)

end Domain

end Pddl
