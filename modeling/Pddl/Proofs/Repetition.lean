import Pddl.Proofs.Enclosure
import Pddl.Proofs.Invariants
import Pddl.Proofs.ProblemRoundTrip

/-!
# What is written several times

A document may have several sections of one kind, and an action several fields of one kind.  Flags,
objects and initial facts of all sections are kept, but of several domain names, goals or metrics
only the last one is, and the same goes for the fields of an action.  The results below say so of
every text: `Problem.Collects` and `Action.Collects` tell what becomes of the sections and fields,
and these are what is read from the groups of the text, one after the other
(`parse_collects`).  So a goal that another one follows is dropped (`exists_dropped_goal`).
-/

namespace Pddl

/-! ### What sections and fields add up to -/

/-- The problem has the flags, objects and facts of all sections, and the last domain name, the last
goal and the last metric among them. -/
structure Problem.Collects (problem : Problem) (sections : List ProblemSection) : Prop where
  domain : (sections.flatMap ProblemSection.domainNames).getLast? = some problem.domain
  requirements : Text.union [] (sections.flatMap ProblemSection.flags) = problem.requirements
  objects : sections.flatMap ProblemSection.listedObjects = problem.objects
  init : sections.flatMap ProblemSection.facts = problem.init
  goal : (sections.flatMap ProblemSection.goals).getLast? = some problem.goal
  metric : (sections.flatMap ProblemSection.metrics).getLast? = problem.metric

/-- A problem that sections define collects them. -/
lemma Problem.collects_of_toProblem? {sections : List ProblemSection} {name : String}
    {problem : Problem}
    (h : (ProblemDraft.ofSections sections).toProblem? name = some problem) :
    problem.Collects sections := by
  simp only [ProblemDraft.ofSections, ProblemDraft.foldl_add, ProblemDraft.toProblem?,
    ProblemDraft.empty, Option.or_none, List.nil_append] at h
  obtain ⟨domain, hdomain, h⟩ := Option.bind_eq_some_iff.mp h
  obtain ⟨goal, hgoal, h⟩ := Option.bind_eq_some_iff.mp h
  cases h
  exact ⟨hdomain, rfl, rfl, rfl, hgoal, rfl⟩

namespace ActionField

/-- The parameters that a field lists, if it is a list of parameters. -/
def paramLists : ActionField → List (List TypedName)
  | .params listed => [listed]
  | _ => []

/-- The duration that a field gives. -/
def durations : ActionField → List Expr
  | .duration constraint => [constraint]
  | _ => []

/-- The condition that a field gives. -/
def conditions : ActionField → List Expr
  | .condition body => [body]
  | _ => []

/-- The effect that a field gives. -/
def effects : ActionField → List Expr
  | .effect body => [body]
  | _ => []

end ActionField

namespace Action

/-- The action has the last list of parameters, the last duration, the last condition and the last
effect among the fields; without any, it has no parameters and a trivial condition or effect. -/
structure Collects (action : Action) (fields : List ActionField) : Prop where
  params : (fields.flatMap ActionField.paramLists).getLast?.getD [] = action.params
  duration : (fields.flatMap ActionField.durations).getLast? = action.duration
  condition : (fields.flatMap ActionField.conditions).getLast?.getD .trivial = action.condition
  effect : (fields.flatMap ActionField.effects).getLast?.getD .trivial = action.effect

/-- What fields make of an action: the last field of each kind counts. -/
lemma foldl_withField (fields : List ActionField) (action : Action) :
    fields.foldl withField action =
      { action with
        params := (fields.flatMap ActionField.paramLists).getLast?.getD action.params
        duration := (fields.flatMap ActionField.durations).getLast?.or action.duration
        condition := (fields.flatMap ActionField.conditions).getLast?.getD action.condition
        effect := (fields.flatMap ActionField.effects).getLast?.getD action.effect } := by
  induction fields generalizing action with
  | nil => simp
  | cons field rest ih =>
    rw [List.foldl_cons, ih]
    cases field <;>
      simp [withField, ActionField.paramLists, ActionField.durations, ActionField.conditions,
        ActionField.effects, List.getLast?_cons]

/-- An action of fields collects them. -/
lemma ofFields_collects (name : String) (fields : List ActionField) :
    (ofFields name fields).Collects fields := by
  rw [ofFields, foldl_withField]
  exact ⟨rfl, (Option.or_none).symm, rfl, rfl⟩

end Action

/-! ### What is read where -/

namespace Reader

variable {c : Context} {text : String}

/-- Somewhere in the text the reader returns the value and passes exactly the tokens. -/
def ReadsIn {α : Type} (c : Context) (text : String) (reader : ReadM α) (tokens : List Token)
    (value : α) : Prop :=
  ∃ s s', s.cursor.Valid ∧ s.cursor.upcoming <:+ (scan text).tokens ∧
    reader c s = .ok value s' ∧ s.cursor.Passes tokens s'.cursor

/-- A repetition of readers that pass tokens passes one part for each item, from which the item is
read. -/
lemma readWhile_readsIn {α : Type} {test : Token → Bool} {item : ReadM α} {P : List Token → Prop}
    (hitem : ∀ s a s', s.cursor.Valid → test s.cursor.current = true → item c s = .ok a s' →
      ∃ ts, s.cursor.Passes ts s'.cursor ∧ P ts)
    {s s' : State} {items : List α} (hv : s.cursor.Valid)
    (hin : s.cursor.upcoming <:+ (scan text).tokens) (h : readWhile test item c s = .ok items s') :
    ∃ parts, s.cursor.Passes parts.flatten s'.cursor ∧ (∀ part ∈ parts, P part) ∧
      List.Forall₂ (ReadsIn c text item) parts items := by
  replace h := (readWhile_readsItems h).1
  induction h with
  | nil s => exact ⟨[], ⟨hv, rfl⟩, by simp, .nil⟩
  | @cons a _ s s₁ _ htest ha _ ih =>
    obtain ⟨ts, hpasses, hP⟩ := hitem s a s₁ hv htest ha
    have hin₁ : s₁.cursor.upcoming <:+ (scan text).tokens :=
      .trans ⟨ts, hpasses.upcoming.symm⟩ hin
    obtain ⟨parts, hpasses', hall, hreads⟩ := ih hpasses.valid hin₁
    exact ⟨ts :: parts, hpasses.trans hpasses', List.forall_mem_cons.mpr ⟨hP, hall⟩,
      .cons ⟨s, s₁, hv, hin, ha, hpasses⟩ hreads⟩

end Reader

/-! ### Problems -/

/-- The sections of a problem: the groups after its heading `(define (problem name)`. -/
def Problem.parts (text : String) : List (List Token) :=
  groups ((scan text).tokens.drop 6)

/-- Groups one after the other are the first groups of the tokens. -/
lemma groups_flatten_append {parts : List (List Token)} (h : ∀ part ∈ parts, IsGroup part)
    (rest : List Token) : groups (parts.flatten ++ rest) = parts ++ groups rest := by
  induction parts with
  | nil => rfl
  | cons part others ih =>
    obtain ⟨hpart, hothers⟩ := List.forall_mem_cons.mp h
    rw [List.flatten_cons, List.append_assoc, groups_cons_group hpart, ih hothers]
    rfl

/-- A problem collects the sections that are read from its groups. -/
lemma Reader.problem_collects {c : Context} {text : String} {s s' : State} {found : Problem}
    (hv : s.cursor.Valid) (htokens : s.cursor.upcoming = (scan text).tokens)
    (h : problem c s = .ok found s') :
    ∃ sections, List.Forall₂ (ReadsIn c text problemSection) (Problem.parts text) sections ∧
      found.Collects sections := by
  obtain ⟨s₁, hsections⟩ := exists_problemSections h
  rw [problem_run hsections] at h
  simp only [problemSections, bind_eq_ok, pure_eq_ok] at hsections
  obtain ⟨name, s₂, hheader, u, s₃, hnote, sections, s₄, hread, hfound, rfl⟩ := hsections
  obtain ⟨opening, heading, -, -, hlength, hc⟩ := header_consumes hv hheader
  have hcursor : s₃.cursor = s₂.cursor := by
    cases hnote
    rfl
  have hv₃ : s₃.cursor.Valid := hcursor ▸ hc.valid
  have hheading : (scan text).tokens = (opening :: heading) ++ s₃.cursor.upcoming := by
    rw [← htokens, hc.upcoming, hcursor]
  obtain ⟨parts, hpasses, hgroups, hreads⟩ := readWhile_readsIn (P := IsGroup)
    (fun _ _ _ hv _ hrun => problemSection_passes hv hrun) hv₃
    ⟨_, hheading.symm⟩ hread
  obtain ⟨closing, s₅, hclose, -⟩ := bind_eq_ok.mp h
  obtain ⟨-, hkind, hc'⟩ := expect_consumes hpasses.valid hclose (by decide)
  refine ⟨sections, ?_, Problem.collects_of_toProblem? hfound⟩
  have hdrop : 6 = (opening :: heading).length := by rw [List.length_cons, hlength]
  have hparts : Problem.parts text = parts := by
    rw [Problem.parts, hheading, hdrop, List.drop_left, hpasses.upcoming, hc'.upcoming,
      groups_flatten_append hgroups, List.singleton_append, groups_cons_close hkind,
      List.append_nil]
  rw [hparts]
  exact hreads

/-! ### Actions -/

/-- The reader of the fields of an action section. -/
def fieldReader (part : List Token) : ReadM ActionField :=
  if sectionKind? part = some .durativeAction then Reader.durativeActionField
  else Reader.actionField

/-- The section consists of the name of the action and of fields that the action collects, each of
which is read from its own tokens. -/
def Action.IsReadFrom (c : Reader.Context) (text : String) (part : List Token) (action : Action) :
    Prop :=
  ∃ opening keyword name closing pieces fields,
    part = opening :: keyword :: name :: (pieces.flatten ++ [closing]) ∧
      name.text = action.name ∧
      List.Forall₂ (Reader.ReadsIn c text (fieldReader part)) pieces fields ∧
      action.Collects fields

namespace Reader

variable {c : Context} {text : String} {s s' : State}

/-- The name of an action, its fields and the closing parenthesis are passed after its keyword, and
the action collects its fields. -/
def PassesAction (c : Context) (text : String) (field : ReadM ActionField) (action : Action)
    (s s' : State) : Prop :=
  ∃ name closing pieces fields,
    s.cursor.Passes (s.cursor.current :: name :: (pieces.flatten ++ [closing])) s'.cursor ∧
      name.text = action.name ∧ List.Forall₂ (ReadsIn c text field) pieces fields ∧
      action.Collects fields

/-- An action that is read collects its fields, each of which is read from its own tokens. -/
lemma ReadsAction.passes {field : ReadM ActionField} {action : Action}
    (hfield : ∀ s : State, s.cursor.Valid → isKeyword s.cursor.current = true → Spends c s field)
    (hin : s.cursor.upcoming <:+ (scan text).tokens) (h : ReadsAction c field action s s') :
    PassesAction c text field action s s' := by
  obtain ⟨name, fields, closing, expected, s₁, s₂, hc, -, hfields, hclose, rfl⟩ := h
  obtain ⟨pieces, hpasses, -, hreads⟩ := readWhile_readsIn (P := fun _ => True)
    (fun s a s' hv hkeyword hrun => by
      obtain ⟨ts, hc, -⟩ := hfield s hv hkeyword a s' hrun
      exact ⟨ts, hc.passes, True.intro⟩) hc.valid (.trans ⟨_, hc.upcoming.symm⟩ hin) hfields
  obtain ⟨-, -, hc'⟩ := expect_consumes hpasses.valid hclose (by decide)
  exact ⟨name, closing, pieces, fields, hc.passes.trans (hpasses.trans hc'.passes),
    (name_ofFields _ _).symm, hreads, Action.ofFields_collects _ _⟩

end Reader

namespace Assembly

variable {c : Reader.Context} {text : String} {a a' : Assembly}

/-- The state stands somewhere in the text after its first six tokens, and the actions so far are
read from the action sections so far. -/
def Records (c : Reader.Context) (text : String) (a : Assembly) : Prop :=
  a.cursor.Valid ∧ ∃ passed, (scan text).tokens.drop 6 = passed ++ a.cursor.upcoming ∧
    Balanced passed ∧
    List.Forall₂ (Action.IsReadFrom c text) ((groups passed).filter isActionPart)
      a.declared.actions

/-- A section adds the action that is read from it, if it is an action. -/
lemma sectionOf_actions {kind : SectionKind} (hv : a.cursor.Valid)
    (hin : a.cursor.upcoming <:+ (scan text).tokens)
    (hkeyword : Reader.isKeyword a.cursor.current = true)
    (h : sectionOf kind c a = .ok () a') :
    (kind ≠ .action ∧ kind ≠ .durativeAction ∧ a'.declared.actions = a.declared.actions) ∨
      ∃ action, (kind = .action ∨ kind = .durativeAction) ∧
        a'.declared.actions = a.declared.actions ++ [action] ∧
        Reader.PassesAction c text
          (if kind = .durativeAction then Reader.durativeActionField else Reader.actionField)
          action a.toState a'.toState := by
  obtain ⟨tokens, -, -, heffect⟩ := sectionOf_reads hv hkeyword h
  cases kind with
  | action =>
    obtain ⟨action, a₁, haction, hadd⟩ := Reader.bind_eq_ok.mp h
    obtain ⟨s₁, hrun, rfl⟩ := lift_eq_ok.mp haction
    obtain ⟨-, rfl⟩ := addAction_eq_ok.mp hadd
    have hpasses := (Reader.action_reads hv hrun).passes (fun _ => Reader.Spends.actionField) hin
    refine Or.inr ⟨action, Or.inl rfl, rfl, ?_⟩
    rwa [if_neg (by decide)]
  | durativeAction =>
    obtain ⟨action, a₁, haction, hadd⟩ := Reader.bind_eq_ok.mp h
    obtain ⟨s₁, hrun, rfl⟩ := lift_eq_ok.mp haction
    obtain ⟨-, rfl⟩ := addAction_eq_ok.mp hadd
    have hpasses := (Reader.durativeAction_reads hv hrun).passes
      (fun _ => Reader.Spends.durativeActionField) hin
    refine Or.inr ⟨action, Or.inr rfl, rfl, ?_⟩
    rwa [if_pos rfl]
  | _ =>
    rcases heffect.actions with hsame | ⟨_, hkind, _⟩
    · exact Or.inl hsame
    · rcases hkind with hkind | hkind <;> cases hkind

/-- A section with its opening parenthesis keeps the actions recorded. -/
lemma section_records : Reader.Upholds c (Records c text) (do
    let _ ← Reader.openParen
    anySection) fun _ => True := by
  rintro a u a' ⟨hv, passed, hpassed, hbalanced, hactions⟩ h
  obtain ⟨opening, s₁, kind, hopenKind, hc, hkeyword, hkind, h⟩ := section_eq_ok hv h
  have hstands : a.cursor.upcoming <:+ (scan text).tokens :=
    .trans ⟨passed, hpassed.symm⟩ (List.drop_suffix 6 _)
  have hin : s₁.cursor.upcoming <:+ (scan text).tokens := .trans ⟨_, hc.upcoming.symm⟩ hstands
  obtain ⟨tokens, hpasses, ⟨inner, closing, rfl, hinner, hclose⟩, -⟩ :=
    sectionOf_reads hc.valid hkeyword h
  obtain ⟨hne, hne', -⟩ := Reader.kind_of_isKeyword hkeyword
  have hgroup : IsGroup (opening :: s₁.cursor.current :: (inner ++ [closing])) :=
    ⟨opening, _ :: inner, closing, rfl, hopenKind, hclose, .plain hne hne' hinner⟩
  have hpart : sectionKind? (opening :: s₁.cursor.current :: (inner ++ [closing])) = some kind :=
    hkind
  refine ⟨⟨hpasses.valid, _, ?_, hbalanced.append hgroup.balanced, ?_⟩, True.intro⟩
  · rw [hpassed, (hc.passes.trans hpasses).upcoming]
    exact (List.append_assoc _ _ _).symm
  · rw [groups_append hbalanced, groups_group hgroup, List.filter_append]
    rcases sectionOf_actions hc.valid hin hkeyword h with
      ⟨hother, hother', hsame⟩ | ⟨action, hcase, hadded, name, last, pieces, fields, hfields, hname,
        hreads, hcollects⟩
    · have hnone : isActionPart (opening :: s₁.cursor.current :: (inner ++ [closing])) = false := by
        simp [isActionPart, hpart, hother, hother']
      rw [List.filter_cons_of_neg (by simp [hnone]), List.filter_nil, List.append_nil, hsame]
      exact hactions
    · have hone : isActionPart (opening :: s₁.cursor.current :: (inner ++ [closing])) = true := by
        simpa [isActionPart, hpart] using hcase
      -- Both ways to see the section pass the same tokens.
      have htokens : s₁.cursor.current :: (inner ++ [closing]) =
          s₁.cursor.current :: name :: (pieces.flatten ++ [last]) :=
        List.append_cancel_right (hpasses.upcoming.symm.trans hfields.upcoming)
      rw [List.filter_cons_of_pos hone, List.filter_nil, hadded]
      refine List.rel_append hactions (.cons ?_ .nil)
      refine ⟨opening, s₁.cursor.current, name, last, pieces, fields, by rw [htokens], hname, ?_,
        hcollects⟩
      rw [fieldReader, hpart]
      simpa only [Option.some.injEq] using hreads

end Assembly

/-- The actions of a domain are read from its action sections. -/
lemma Assembly.domain_records {c : Reader.Context} {text : String} {cursor : Cursor}
    {domain : Domain} {a' : Assembly} (hv : cursor.Valid)
    (htokens : cursor.upcoming = (scan text).tokens)
    (h : Assembly.domain c (ofCursor cursor) = .ok domain a') :
    List.Forall₂ (Action.IsReadFrom c text) ((Domain.parts text).filter isActionPart)
      domain.actions := by
  simp only [domain_eq, Reader.bind_eq_ok] at h
  obtain ⟨name, a₁, hsections, closing, a₂, hclose, u, a₃, hend, hconclude⟩ := h
  simp only [sections, Reader.bind_eq_ok, Reader.pure_eq_ok] at hsections
  obtain ⟨_, a₄, hheader, u₁, a₅, hnote, u₂, a₆, hloop, rfl, rfl⟩ := hsections
  obtain ⟨s₁, hrun₁, rfl⟩ := lift_eq_ok.mp hheader
  obtain ⟨opening, heading, -, -, hlength, hc₁⟩ := Reader.header_consumes hv hrun₁
  obtain ⟨s₂, hrun₂, rfl⟩ := lift_eq_ok.mp hnote
  cases hrun₂
  have hheading : (scan text).tokens.drop 6 = s₁.cursor.upcoming := by
    have hdrop : 6 = (opening :: heading).length := by rw [List.length_cons, hlength]
    rw [← htokens, show cursor.upcoming = _ from hc₁.upcoming, hdrop, List.drop_left]
  obtain ⟨⟨hv₆, passed, hpassed, hbalanced, hactions⟩, -⟩ :=
    upholds_repeatWhile section_records _ _ _ ⟨hc₁.valid, [], hheading, .nil, .nil⟩ hloop
  obtain ⟨hkind, hlast, hpasses⟩ := expect_close hv₆ hclose
  obtain ⟨s₃, -, rfl⟩ := lift_eq_ok.mp hend
  obtain ⟨types, -, rfl, -⟩ := conclude_eq_ok.mp hconclude
  have hparts : Domain.parts text = groups passed := by
    rw [Domain.parts, hpassed, hpasses.upcoming, groups_append hbalanced, List.singleton_append,
      groups_cons_close hkind, List.append_nil]
  rw [hparts]
  exact hlast ▸ hactions

/-! ### Documents -/

/-- Every problem that is read from a text, under any settings, collects the sections that are read
from the groups of the text in their order.  Every action of a domain collects the fields that are
read from its group, and the actions are those of the action sections in their order. -/
theorem parse_collects (settings : Settings) (text : String) (capacity : Nat) :
    (∀ problem, (Problem.parse settings text capacity).result = .ok problem →
      ∃ sections, List.Forall₂ (Reader.ReadsIn (.document settings false capacity) text
          Reader.problemSection) (Problem.parts text) sections ∧
        problem.Collects sections) ∧
    ∀ domain, (Domain.parse settings text capacity).result = .ok domain →
      List.Forall₂ (Action.IsReadFrom (.document settings true capacity) text)
        ((Domain.parts text).filter isActionPart) domain.actions := by
  constructor
  · intro problem h
    obtain ⟨cursor, s', hcursor, hrun⟩ := Reader.run_eq_ok.mp h
    obtain ⟨hv, htokens, -⟩ := Cursor.of_ofText hcursor
    exact Reader.problem_collects (s := .ofCursor cursor []) hv htokens hrun
  · intro domain h
    obtain ⟨cursor, a', hcursor, hrun⟩ := Domain.parse_eq_ok.mp h
    obtain ⟨hv, htokens, -⟩ := Cursor.of_ofText hcursor
    exact Assembly.domain_records hv htokens hrun

/-- A problem with two goals. -/
def twoGoalsText : String :=
  "(define (problem q) (:domain d) (:goal (p)) (:goal (r)))"

/-- A domain with an action that has two conditions. -/
def twoConditionsText : String :=
  "(define (domain d) (:predicates (p) (r)) (:action a :precondition (p) :precondition (r)))"

/-- The problem and the domain are read, so they collect what is written in them. -/
theorem parse_collects_twice :
    (∃ problem, (Problem.parse .lenient twoGoalsText).result = .ok problem ∧
      (Problem.parts twoGoalsText).length = 3 ∧
      ∃ sections,
        List.Forall₂ (Reader.ReadsIn (.document .lenient false Reader.documentCapacity)
          twoGoalsText Reader.problemSection) (Problem.parts twoGoalsText) sections ∧
        problem.Collects sections) ∧
    ∃ domain, (Domain.parse .lenient twoConditionsText).result = .ok domain ∧
      domain.actions.length = 1 ∧
      List.Forall₂
        (Action.IsReadFrom (.document .lenient true Reader.documentCapacity) twoConditionsText)
        ((Domain.parts twoConditionsText).filter isActionPart) domain.actions := by
  constructor
  · have hread : (Problem.parse .lenient twoGoalsText).result.toOption.isSome = true := by
      decide +kernel
    obtain ⟨problem, hproblem⟩ := Option.isSome_iff_exists.mp hread
    have hproblem := Check.toOption_eq_some.mp hproblem
    exact ⟨problem, hproblem, by decide +kernel, (parse_collects _ _ _).1 problem hproblem⟩
  · have hread : (Domain.parse .lenient twoConditionsText).result.toOption.map (fun domain =>
        domain.actions.length) = some 1 := by
      decide +kernel
    obtain ⟨domain, hdomain, hlength⟩ := Option.map_eq_some_iff.mp hread
    have hdomain := Check.toOption_eq_some.mp hdomain
    exact ⟨domain, hdomain, hlength, (parse_collects _ _ _).2 domain hdomain⟩

/-- A goal may be read from a section of a problem and be no part of the goal of the problem. -/
theorem exists_dropped_goal :
    ∃ problem, (Problem.parse .lenient twoGoalsText).result = .ok problem ∧
      ∃ part ∈ Problem.parts twoGoalsText, ∃ goal,
        Reader.ReadsIn (.document .lenient false Reader.documentCapacity) twoGoalsText
          Reader.problemSection part (.goal goal) ∧ goal ∉ problem.goal.walk := by
  have hread : (Problem.parse .lenient twoGoalsText).result.toOption.map (fun problem =>
      problem.goal.walk.map fun e => e.references false) = some [[(⟨"r", []⟩, false)]] := by
    decide +kernel
  have hfirst : (Reader.run (do
      let _ ← Reader.header "problem" "a problem name"
      let _ ← Reader.problemSection
      Reader.problemSection) (.document .lenient false Reader.documentCapacity)
        twoGoalsText).result.toOption.map
          (fun part => part.goals.map fun e => e.references false) =
            some [[(⟨"p", []⟩, false)]] := by
    decide +kernel
  obtain ⟨problem, hproblem, hwalk⟩ := Option.map_eq_some_iff.mp hread
  obtain ⟨found, hfound, hgoals⟩ := Option.map_eq_some_iff.mp hfirst
  obtain ⟨goal, hgoal, hreferences⟩ := List.map_eq_singleton_iff.mp hgoals
  obtain ⟨cursor, s', hcursor, hrun⟩ := Reader.run_eq_ok.mp (Check.toOption_eq_some.mp hfound)
  obtain ⟨hv, htokens, -⟩ := Cursor.of_ofText hcursor
  simp only [Reader.bind_eq_ok] at hrun
  obtain ⟨name, s₁, hheader, domain, s₂, hdomain, hsection⟩ := hrun
  obtain ⟨opening, heading, -, -, hlength, hc⟩ :=
    Reader.header_consumes (s := .ofCursor cursor []) hv hheader
  obtain ⟨ts, hpasses, hgroup⟩ := Reader.problemSection_passes hc.valid hdomain
  obtain ⟨part, hpasses', hgroup'⟩ := Reader.problemSection_passes hpasses.valid hsection
  have hheading : (scan twoGoalsText).tokens = (opening :: heading) ++ s₁.cursor.upcoming := by
    rw [← htokens]
    exact hc.upcoming
  have hpart : part ∈ Problem.parts twoGoalsText := by
    have hdrop : 6 = (opening :: heading).length := by rw [List.length_cons, hlength]
    rw [Problem.parts, hheading, hdrop, List.drop_left, hpasses.upcoming,
      groups_cons_group hgroup, hpasses'.upcoming, groups_cons_group hgroup']
    simp
  have hin : s₂.cursor.upcoming <:+ (scan twoGoalsText).tokens :=
    .trans ⟨ts, hpasses.upcoming.symm⟩ ⟨_, hheading.symm⟩
  refine ⟨problem, Check.toOption_eq_some.mp hproblem, part, hpart, goal, ?_, fun hmem => ?_⟩
  · cases found <;> cases hgoal
    exact ⟨s₂, s', hpasses.valid, hin, hsection, hpasses'⟩
  · have hlisted := List.mem_map_of_mem (f := fun e => e.references false) hmem
    rw [hwalk, hreferences] at hlisted
    exact absurd hlisted (by decide)

end Pddl
