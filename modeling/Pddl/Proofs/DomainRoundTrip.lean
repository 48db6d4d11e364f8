import Pddl.Proofs.DomainSections
import Pddl.Proofs.TypeListing

/-!
# Domains are read back from their text

A domain that could have been read, written in the usual order of its sections, is read back
unchanged (`parse_render`).  Its sections can be added in their usual order, since a closed domain
passes all checks, and they add up to the domain (`addsAll_sections`).
-/

namespace Pddl

/-! ### Closed domains pass the checks -/

namespace Expr

/-- An atom that is listed is the expression itself or listed for one of its direct parts. -/
lemma mem_references {e : Expr} {atom : Atom} {outer numeric : Bool}
    (h : (atom, numeric) ∈ e.references outer) :
    e = .atom atom ∧ numeric = outer ∨
      ∃ child ∈ e.children, (atom, numeric) ∈ child.references (e.makesNumeric || outer) := by
  cases e with
  | atom formula =>
    obtain ⟨rfl, rfl⟩ := Prod.mk.inj (List.mem_singleton.mp h)
    exact Or.inl ⟨rfl, rfl⟩
  | term name | number value => cases h
  | not operand | timed time operand | quantified quantifier vars operand =>
    exact Or.inr ⟨operand, List.mem_cons_self, h⟩
  | and operands | or operands | arith op operands => exact Or.inr (mem_referencesAll.mp h)
  | compare op left right | when left right =>
    rcases List.mem_append.mp h with h | h
    · exact Or.inr ⟨left, List.mem_cons_self, h⟩
    · exact Or.inr ⟨right, List.mem_cons_of_mem _ List.mem_cons_self, h⟩
  | update op fluent value =>
    rcases List.mem_cons.mp h with h | h
    · exact Or.inr ⟨.atom fluent, List.mem_cons_self, h ▸ List.mem_cons_self⟩
    · exact Or.inr ⟨value, List.mem_cons_of_mem _ List.mem_cons_self, h⟩

/-- The atoms that are listed occur in the expression, in the positions that are listed. -/
lemma hasAtom_of_mem_references {atom : Atom} (e : Expr) :
    ∀ {outer numeric : Bool}, (atom, numeric) ∈ e.references outer →
      ∃ inner, numeric = (outer || inner) ∧ e.HasAtom atom inner := by
  induction e using induction_children with
  | h e ih =>
    intro outer numeric h
    rcases mem_references h with ⟨rfl, rfl⟩ | ⟨child, hchild, h⟩
    · exact ⟨false, (Bool.or_false _).symm, .self atom⟩
    · obtain ⟨inner, hnumeric, hatom⟩ := ih child hchild h
      refine ⟨e.makesNumeric || inner, ?_, .inside hchild hatom⟩
      rw [hnumeric, Bool.or_comm e.makesNumeric outer, Bool.or_assoc]

end Expr

/-- The check of a reference succeeds for declared names. -/
lemma Check.reference_of_isDeclared {predicates : List Predicate} {functions : List Function}
    {site : Site} {atom : Atom} {numeric : Bool}
    (h : IsDeclared predicates functions atom numeric) :
    reference predicates functions site (atom, numeric) = .ok () := by
  unfold IsDeclared at h
  cases numeric with
  | true =>
    rw [if_pos rfl] at h
    obtain ⟨function, hfunction, hname⟩ := h
    cases hfind : findFunction? functions atom.name with
    | none => exact absurd (by simpa using hname) (List.find?_eq_none.mp hfind function hfunction)
    | some found => simp [reference, hfind]
  | false =>
    rw [if_neg (by decide)] at h
    obtain ⟨predicate, hpredicate, hname⟩ := h
    cases hfind : findPredicate? predicates atom.name with
    | none => exact absurd (by simpa using hname) (List.find?_eq_none.mp hfind predicate hpredicate)
    | some found => simp [reference, hfind]

/-- The root and the declared types are in a hierarchy of declarations. -/
lemma TypeHierarchy.contains_of_knows {declarations : List TypedName} {types : TypeHierarchy}
    (h : ofDeclarations declarations = .ok types) {type : String} (htype : types.Knows type) :
    types.contains type = true := by
  rw [contains_ofDeclarations h]
  rcases htype with hroot | hlookup
  · exact Or.inl hroot
  · obtain ⟨entry, hentry, hkey⟩ := List.mem_map.mp (Table.lookup_isSome.mp hlookup)
    exact Or.inr ⟨entry, hentry, Or.inl hkey.symm⟩

namespace Domain

variable {domain : Domain} {declarations : List TypedName}

/-- Known types pass the check of types. -/
lemma declaredTypes_of_isKnown {site : Site} {entities : List TypedName}
    (htypes : TypeHierarchy.ofDeclarations declarations = .ok domain.types)
    (h : ∀ entity ∈ entities, entity.IsKnown domain.types) :
    Check.declaredTypes domain.types site entities = .ok () :=
  Check.declaredTypes_eq_ok.mpr fun entity hentity type htype =>
    TypeHierarchy.contains_of_knows htypes (h entity hentity type htype)

/-- The actions of a closed domain pass the check of their references. -/
lemma Closed.actionReferences (h : domain.Closed)
    (htypes : TypeHierarchy.ofDeclarations declarations = .ok domain.types) {action : Action}
    (haction : action ∈ domain.actions) :
    Check.actionReferences domain.types domain.predicates domain.functions action = .ok () := by
  refine Check.bind_eq_ok.mpr
    ⟨(), declaredTypes_of_isKnown htypes (h.actions_known action haction), ?_⟩
  refine Check.each_eq_ok.mpr fun body hbody => Check.bind_eq_ok.mpr ⟨(), ?_, ?_⟩
  · refine Check.each_eq_ok.mpr fun part hpart => ?_
    cases part with
    | quantified quantifier vars operand =>
      exact declaredTypes_of_isKnown htypes
        (h.quantified_known action haction body hbody quantifier vars operand hpart)
    | _ => rfl
  · refine Check.each_eq_ok.mpr fun reference hreference => ?_
    obtain ⟨atom, numeric⟩ := reference
    obtain ⟨inner, hnumeric, hatom⟩ := body.hasAtom_of_mem_references hreference
    rw [Bool.false_or] at hnumeric
    rw [hnumeric]
    exact Check.reference_of_isDeclared
      (h.atoms_declared action haction body hbody atom inner hatom)

/-- The constants, predicates and functions of a closed domain pass the check of their types. -/
lemma Closed.domainTypes (h : domain.Closed)
    (htypes : TypeHierarchy.ofDeclarations declarations = .ok domain.types) :
    Check.domainTypes domain = .ok () := by
  refine Check.bind_eq_ok.mpr ⟨(), declaredTypes_of_isKnown htypes h.constants_known, ?_⟩
  refine Check.bind_eq_ok.mpr ⟨(), Check.each_eq_ok.mpr fun predicate hpredicate => ?_,
    Check.each_eq_ok.mpr fun function hfunction => Check.bind_eq_ok.mpr ⟨(), ?_, ?_⟩⟩
  · exact declaredTypes_of_isKnown htypes (h.predicates_known predicate hpredicate)
  · exact declaredTypes_of_isKnown htypes (h.functions_known function hfunction)
  · unfold Check.returnType
    rcases h.returns_known function hfunction with hnumber | hknows
    · rw [if_pos (by simp [hnumber])]
    · rw [if_pos (by simp [TypeHierarchy.contains_of_knows htypes hknows])]

/-! ### Well-formed domains -/

/-- The domain can be written: its names have lexemes, its flags are in small letters and listed
once, its types are the valid hierarchy of some declarations, its actions belong where they stand,
with arithmetic only if the flag for it is implied, and everything it uses is declared. -/
structure WellFormed (numeral : Number → String) (domain : Domain) : Prop where
  name : (Word.name domain.name).IsLexeme
  flags : ∀ flag ∈ domain.requirements, IsFoldedFlag flag
  flags_nodup : domain.requirements.Nodup
  hierarchy : ∃ declarations, TypeHierarchy.ofDeclarationsValid declarations = .ok domain.types
  types : ∀ typed ∈ domain.types.listing, typed.WellSpelledAs .name
  constants : ∀ constant ∈ domain.constants, constant.WellSpelledAs .name
  predicates : ∀ predicate ∈ domain.predicates, predicate.WellSpelled
  functions : ∀ function ∈ domain.functions, function.WellSpelled
  actions : ∀ action ∈ domain.actions,
    action.IsWritable numeral (Requirement.expand domain.requirements)
  closed : domain.Closed

end Domain

namespace Assembly

variable {numeral : Number → String}

/-- Items can be added one after the other if each of them can be added to those before it. -/
lemma steps_of_extends {X Y : Type} {R : Declarations → Y → Declarations → Prop} (item : X → Y)
    (state : List X → Declarations) {items : List X}
    (h : ∀ earlier x later, items = earlier ++ x :: later →
      R (state earlier) (item x) (state (earlier ++ [x]))) :
    Steps R (state []) (items.map item) (state items) := by
  have hfrom : ∀ later earlier, items = earlier ++ later →
      Steps R (state earlier) (later.map item) (state items) := by
    intro later
    induction later with
    | nil =>
      intro earlier hitems
      rw [hitems, List.append_nil]
      exact .nil
    | cons x later ih =>
      intro earlier hitems
      refine .cons (h earlier x later hitems) (ih (earlier ++ [x]) ?_)
      rw [hitems, List.append_assoc, List.singleton_append]
  exact hfrom items [] rfl

/-- Among items of different keys, none before an item has its key. -/
lemma find?_eq_none_of_nodup {X : Type} {key : X → String} {earlier later : List X} {x : X}
    (h : ((earlier ++ x :: later).map key).Nodup) :
    earlier.find? (fun other => key other = key x) = none := by
  refine List.find?_eq_none.mpr fun other hother heq => ?_
  rw [List.map_append, List.nodup_append] at h
  exact h.2.2 _ (List.mem_map_of_mem hother) _ List.mem_cons_self (of_decide_eq_true heq)

/-- Predicates of different names can be added where there are none. -/
lemma steps_predicates {before : Declarations} (hnone : before.predicates = [])
    {predicates : List Predicate} (hspelled : ∀ predicate ∈ predicates, predicate.WellSpelled)
    (hnodup : (predicates.map fun predicate => fold predicate.name).Nodup) :
    Steps AddsPredicate before predicates { before with predicates := predicates } := by
  have hsteps : Steps AddsPredicate { before with predicates := [] } (predicates.map id)
      { before with predicates := predicates } := by
    refine steps_of_extends id (fun listed => { before with predicates := listed }) ?_
    rintro earlier predicate later rfl
    exact ⟨hspelled predicate List.mem_append_cons_self, find?_eq_none_of_nodup hnodup, rfl⟩
  rwa [List.map_id, ← hnone] at hsteps

/-- Functions of different names can be added where there are none. -/
lemma steps_functions {before : Declarations} (hnone : before.functions = [])
    {functions : List Function} (hspelled : ∀ function ∈ functions, function.WellSpelled)
    (hnodup : (functions.map fun function => fold function.name).Nodup) :
    Steps AddsFunction before functions { before with functions := functions } := by
  have hsteps : Steps AddsFunction { before with functions := [] } (functions.map id)
      { before with functions := functions } := by
    refine steps_of_extends id (fun listed => { before with functions := listed }) ?_
    rintro earlier function later rfl
    exact ⟨hspelled function List.mem_append_cons_self, find?_eq_none_of_nodup hnodup, rfl⟩
  rwa [List.map_id, ← hnone] at hsteps

/-- Actions that pass their checks can be added where there are none. -/
lemma steps_actions {before : Declarations} (hnone : before.actions = []) {actions : List Action}
    (h : ∀ action ∈ actions, action.IsWritable numeral (Requirement.expand before.requirements) ∧
      Check.actionReferences before.types before.predicates before.functions action = .ok ()) :
    Steps (Declarations.Adds numeral) before (actions.map DomainSection.action)
      { before with actions := actions } := by
  have hsteps : Steps (Declarations.Adds numeral) { before with actions := [] }
      (actions.map DomainSection.action) { before with actions := actions } := by
    refine steps_of_extends DomainSection.action
      (fun listed => { before with actions := listed }) ?_
    rintro earlier action later rfl
    obtain ⟨hwritable, hcheck⟩ := h action List.mem_append_cons_self
    exact .action hwritable hcheck
  rwa [← hnone] at hsteps

end Assembly

namespace Domain

variable {numeral : Number → String} {domain : Domain}

/-- All that a domain declares. -/
def declarations (domain : Domain) : Declarations where
  requirements := domain.requirements
  typeDeclarations := domain.types.listing
  types := domain.types
  constants := domain.constants
  predicates := domain.predicates
  functions := domain.functions
  actions := domain.actions

/-- The sections of a well-formed domain can be added one after the other, and add up to the
domain. -/
lemma WellFormed.addsAll_sections (h : domain.WellFormed numeral) :
    Assembly.Steps (Declarations.Adds numeral) Declarations.empty domain.sections
      domain.declarations := by
  obtain ⟨declarations, hvalid⟩ := h.hierarchy
  obtain ⟨htypes, -⟩ := TypeHierarchy.ofDeclarationsValid_eq_ok hvalid
  have hlisting := TypeHierarchy.ofDeclarations_listing htypes
  have hlisted : ∀ typed ∈ domain.types.listing,
      typed.WellSpelledAs .name ∧ ∃ parent, typed.type = .named parent := by
    intro typed htyped
    refine ⟨h.types typed htyped, ?_⟩
    obtain ⟨entry, -, rfl⟩ := List.mem_map.mp htyped
    exact ⟨_, rfl⟩
  refine .cons (.requirements rfl h.flags h.flags_nodup) (.cons (.types hlisted hlisting) ?_)
  refine .cons (.constants h.constants) ?_
  refine .cons (.predicates (Assembly.steps_predicates rfl h.predicates
    h.closed.predicates_nodup)) ?_
  refine .cons (.functions (Assembly.steps_functions rfl h.functions
    h.closed.functions_nodup)) ?_
  refine Assembly.steps_actions rfl fun action haction => ⟨h.actions action haction, ?_⟩
  exact h.closed.actionReferences htypes haction

/-- The words of a well-formed domain are lexemes. -/
lemma WellFormed.isLexeme_of_mem_words (h : domain.WellFormed numeral) :
    ∀ word ∈ domain.words numeral, word.IsLexeme := by
  refine isLexeme_of_mem_documentWords (.name (by decide)) h.name ?_
  refine Word.isLexeme_of_mem_flatMap fun part hpart => DomainSection.isLexeme_of_mem_words ?_
  simp only [sections, List.mem_cons, List.mem_map] at hpart
  rcases hpart with rfl | rfl | rfl | rfl | rfl | ⟨action, haction, rfl⟩
  · exact fun flag hflag => (h.flags flag hflag).lexeme
  · exact h.types
  · exact h.constants
  · exact h.predicates
  · exact h.functions
  · exact (h.actions action haction).wellSpelled

/-- With room for what can be written, a well-formed domain is read back from every text that has
its words, in whatever layout, and from the text in which its words are laid out. -/
theorem parse_render (numeral : Number → String) (capacity : Nat)
    (hroom : writtenNesting < capacity) (domain : Domain) (h : domain.WellFormed numeral) :
    (∀ text : String, (scan text).words = domain.words numeral → (scan text).failure = none →
      (parse .lenient text capacity).result = .ok domain) ∧
    (parse .lenient (domain.render numeral) capacity).result = .ok domain := by
  obtain ⟨declarations, hvalid⟩ := h.hierarchy
  obtain ⟨htypes, -⟩ := TypeHierarchy.ofDeclarationsValid_eq_ok hvalid
  have htakes := Assembly.domain_takes hroom domain.name h.addsAll_sections
    (TypeHierarchy.ofDeclarationsValid_listing hvalid) (h.closed.domainTypes htypes)
  have hparse : ∀ text : String, (scan text).words = domain.words numeral →
      (scan text).failure = none → (parse .lenient text capacity).result = .ok domain := by
    intro text hwords hfailure
    obtain ⟨cursor, hcursor, hstands⟩ :=
      Reader.exists_stands (List.cons_ne_nil _ _) hwords hfailure
    have hs : Assembly.At Declarations.empty (domain.words numeral ++ [])
        (Assembly.ofCursor cursor) := by
      rw [List.append_nil]
      refine ⟨Assembly.initialRequirements, hstands _, rfl, ?_⟩
      simp [Declarations.empty, Requirement.expand, Requirement.expandFrom]
    obtain ⟨_, a', hrun, rfl, -⟩ := htakes [] _ rfl hs
    exact parse_eq_ok.mpr ⟨cursor, a', hcursor, hrun⟩
  obtain ⟨hwords, hfailure⟩ := Word.words_scan_written h.isLexeme_of_mem_words
  exact ⟨hparse, hparse _ hwords hfailure⟩

instance (types : TypeHierarchy) (type : String) : Decidable (types.Knows type) :=
  inferInstanceAs (Decidable (_ ∨ _))

instance (types : TypeHierarchy) (entity : TypedName) : Decidable (entity.IsKnown types) :=
  inferInstanceAs (Decidable (∀ type ∈ entity.type.options, types.Knows type))

instance (predicates : List Predicate) (functions : List Function) (atom : Atom) (numeric : Bool) :
    Decidable (Check.IsDeclared predicates functions atom numeric) :=
  match numeric with
  | true =>
    inferInstanceAs (Decidable (∃ function ∈ functions, fold function.name = fold atom.name))
  | false =>
    inferInstanceAs (Decidable (∃ predicate ∈ predicates, fold predicate.name = fold atom.name))

/-- A domain with a durative action, whose duration is arithmetic, and with a type that is first
mentioned as the parent of another one. -/
def fleet : Domain where
  name := "Fleet"
  requirements := [":fluents", ":new"]
  types :=
    ⟨[("van", "car"), ("car", "object")], [("object", "object"), ("van", "Van"), ("car", "CAR")]⟩
  constants := [⟨"v", .named "VAN"⟩]
  predicates := [⟨"at", [⟨"?x", .either ["car", "Object"]⟩]⟩]
  functions := [⟨"fuel", [], "number"⟩]
  actions :=
    [⟨"go", [⟨"?x", .named "van"⟩],
      some (.compare .eq (.term "?duration") (.arith .sub [.atom ⟨"fuel", []⟩])),
      .timed .overAll (.atom ⟨"at", ["?x"]⟩), .timed .atEnd (.not (.atom ⟨"AT", ["?x"]⟩))⟩]

/-- All that the domain uses is declared. -/
lemma fleet_closed : fleet.Closed where
  predicates_nodup := by decide
  functions_nodup := by decide
  types_tree := TypeHierarchy.isTree_of_validate rfl
  constants_known := by decide
  predicates_known := by decide
  functions_known := by decide
  returns_known := by decide
  actions_known := by decide
  quantified_known := by
    intro action haction body hbody quantifier vars operand hpart
    obtain rfl := List.mem_singleton.mp haction
    simp only [Action.bodies, Option.toList_some, List.mem_cons, List.not_mem_nil,
      or_false] at hbody
    rcases hbody with rfl | rfl | rfl <;> simp [Expr.walk_eq, Expr.children] at hpart
  atoms_declared := by
    intro action haction body hbody atom numeric hatom
    obtain rfl := List.mem_singleton.mp haction
    have hmem := hatom.mem_references false
    simp only [Action.bodies, Option.toList_some, List.mem_cons, List.not_mem_nil,
      or_false] at hbody
    rcases hbody with rfl | rfl | rfl <;>
      simp only [Expr.references, Expr.referencesAll, List.append_nil, List.nil_append,
        List.mem_singleton, Prod.mk.injEq, Bool.false_or] at hmem <;>
      obtain ⟨rfl, rfl⟩ := hmem <;> decide
  timed_durative := by
    intro action haction body _ part _ _
    obtain rfl := List.mem_singleton.mp haction
    exact Option.some_ne_none _

/-- The action of the domain can be written. -/
lemma fleet_action_isWritable {action : Action} (h : action ∈ fleet.actions) :
    action.IsWritable Number.text (Requirement.expand fleet.requirements) := by
  obtain rfl := List.mem_singleton.mp h
  have hflag : ":numeric-fluents" ∈ Requirement.expand fleet.requirements := by decide +kernel
  have hvar : Token.IsLexeme .var ['?', 'x'] := .var (by decide)
  have hduration : Token.IsLexeme .var ('?' :: "duration".toList) := .var (by decide)
  have hatom : ∀ name, Token.isNameText name.toList = true →
      (Expr.atom ⟨name, ["?x"]⟩).WellSpelled Number.text := by
    intro name hname
    refine .of_children ⟨.name hname, ?_⟩ (by simp [Expr.children])
    simp only [List.mem_singleton, forall_eq]
    exact hvar
  refine
    { name := .name (by decide)
      params := ?_
      condition := .timed _ (.atom ⟨by decide, by decide⟩)
      effect := .timed (by decide) (.not _)
      duration := ?_
      bodies := ?_ }
  · simp only [List.mem_singleton, forall_eq]
    refine ⟨hvar, ?_, by simp [TypeSpec.options]⟩
    simp only [TypeSpec.options, List.mem_singleton, forall_eq]
    exact .name (by decide)
  · rintro constraint ⟨⟩
    refine .compare .eq (.term _) (.arith (Or.inl rfl) ?_)
    simp only [List.mem_singleton, forall_eq]
    exact .atom _
  · intro body hbody
    refine ⟨?_, fun _ => hflag⟩
    simp only [Action.bodies, Option.toList_some, List.mem_cons, List.not_mem_nil,
      or_false] at hbody
    rcases hbody with rfl | rfl | rfl
    · refine ⟨.of_children True.intro ?_, by decide⟩
      simp only [Expr.children, List.mem_singleton, forall_eq]
      exact hatom "at" (by decide)
    · refine ⟨.of_children True.intro ?_, by decide⟩
      simp only [Expr.children, List.mem_singleton, forall_eq]
      refine .of_children True.intro ?_
      simp only [Expr.children, List.mem_singleton, forall_eq]
      exact hatom "AT" (by decide)
    · refine ⟨.of_children True.intro ?_, by decide⟩
      simp only [Expr.children, List.mem_cons, List.not_mem_nil, or_false, forall_eq_or_imp,
        forall_eq]
      refine ⟨.of_children hduration (by simp [Expr.children]), .of_children True.intro ?_⟩
      simp only [Expr.children, List.mem_singleton, forall_eq]
      exact .of_children ⟨.name (by decide), by simp⟩ (by simp [Expr.children])

/-- The domain is read back: its flags, one of them unknown, its types with their spellings, and its
action. -/
theorem parse_render_fleet : (parse .lenient (fleet.render Number.text)).result = .ok fleet := by
  have hname : ∀ text ∈ ["v", "Van", "CAR", "object", "VAN", "car", "Object"],
      (Word.name text).IsLexeme := by
    intro text htext
    refine .name ?_
    revert text
    decide
  have hnamed : ∀ name type, name ∈ ["v", "Van", "CAR", "object", "VAN", "car", "Object"] →
      type ∈ ["v", "Van", "CAR", "object", "VAN", "car", "Object"] →
      TypedName.WellSpelledAs .name ⟨name, .named type⟩ := by
    intro name type hmem htype
    refine ⟨hname name hmem, ?_, List.cons_ne_nil _ _⟩
    simp only [TypeSpec.options, List.mem_singleton, forall_eq]
    exact hname type htype
  refine (parse_render Number.text _ (by decide) fleet
    { name := .name (by decide)
      flags := ?_
      flags_nodup := by decide
      hierarchy := ⟨[⟨"Van", .named "CAR"⟩, ⟨"car", .named "Object"⟩], rfl⟩
      types := ?_
      constants := ?_
      predicates := ?_
      functions := ?_
      actions := fun _ => fleet_action_isWritable
      closed := fleet_closed }).2
  · intro flag hflag
    have hkeyword : ∀ flag ∈ fleet.requirements,
        Word.isKeywordText flag = true ∧ fold flag = flag := by decide
    exact ⟨Word.isLexeme_keyword (hkeyword flag hflag).1, (hkeyword flag hflag).2⟩
  · have hlisting : fleet.types.listing =
        [⟨"Van", .named "CAR"⟩, ⟨"CAR", .named "object"⟩] := rfl
    rw [hlisting]
    simp only [List.mem_cons, List.not_mem_nil, or_false, forall_eq_or_imp, forall_eq]
    exact ⟨hnamed _ _ (by simp) (by simp), hnamed _ _ (by simp) (by simp)⟩
  · simp only [fleet, List.mem_singleton, forall_eq]
    exact hnamed _ _ (by simp) (by simp)
  · simp only [fleet, List.mem_singleton, forall_eq]
    have hvar : Token.IsLexeme .var ['?', 'x'] := .var (by decide)
    refine ⟨.name (by decide), ?_⟩
    simp only [List.mem_singleton, forall_eq]
    refine ⟨hvar, fun type htype => hname type ?_, List.cons_ne_nil _ _⟩
    exact List.mem_of_mem_drop (i := 5) htype
  · simp only [fleet, List.mem_singleton, forall_eq]
    exact ⟨.name (by decide), by simp, .name (by decide)⟩

end Domain

end Pddl
