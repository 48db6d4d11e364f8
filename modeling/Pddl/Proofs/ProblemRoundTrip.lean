import Mathlib.Data.List.Nodup
import Pddl.Proofs.Documents

/-!
# Problems are read back from their sections

A problem may be written in many ways: its sections come in any order, and its flags, objects and
initial facts may be spread over several sections.  Every such text is read as the problem
(`parse_of_isWrittenIn`).  The sections are read one by one (`problemSection_takes`), and what they
add up to depends on their order only where a part is given several times (`ofSections_eq`).
-/

namespace Pddl

/-! ### Sections that add up -/

namespace ProblemSection

/-- The domain name that a section gives. -/
def domainNames : ProblemSection → List String
  | .domain name => [name]
  | _ => []

/-- The flags that a section lists. -/
def flags : ProblemSection → List String
  | .requirements listed => listed
  | _ => []

/-- The objects that a section lists. -/
def listedObjects : ProblemSection → List TypedName
  | .objects listed => listed
  | _ => []

/-- The initial facts that a section lists. -/
def facts : ProblemSection → List Expr
  | .init listed => listed
  | _ => []

/-- The goal that a section gives. -/
def goals : ProblemSection → List Expr
  | .goal body => [body]
  | _ => []

/-- The metric that a section gives. -/
def metrics : ProblemSection → List Metric
  | .metric measure => [measure]
  | _ => []

end ProblemSection

/-- The sections give each part of the problem, in its order, and nothing else.  Their own order is
free, and lists may be spread over several sections. -/
structure Problem.IsWrittenIn (problem : Problem) (sections : List ProblemSection) : Prop where
  domain : sections.flatMap ProblemSection.domainNames = [problem.domain]
  flags : sections.flatMap ProblemSection.flags = problem.requirements
  objects : sections.flatMap ProblemSection.listedObjects = problem.objects
  init : sections.flatMap ProblemSection.facts = problem.init
  goal : sections.flatMap ProblemSection.goals = [problem.goal]
  metric : sections.flatMap ProblemSection.metrics = problem.metric.toList

namespace ProblemDraft

/-- What sections add to a draft: lists are appended, and of several domain names, goals or metrics
the last one counts. -/
lemma foldl_add (sections : List ProblemSection) (draft : ProblemDraft) :
    sections.foldl add draft =
      { domain := (sections.flatMap ProblemSection.domainNames).getLast?.or draft.domain
        requirements :=
          Text.union draft.requirements (sections.flatMap ProblemSection.flags)
        objects := draft.objects ++ sections.flatMap ProblemSection.listedObjects
        init := draft.init ++ sections.flatMap ProblemSection.facts
        goal := (sections.flatMap ProblemSection.goals).getLast?.or draft.goal
        metric := (sections.flatMap ProblemSection.metrics).getLast?.or draft.metric } := by
  induction sections generalizing draft with
  | nil => simp [Text.union]
  | cons part rest ih =>
    rw [List.foldl_cons, ih]
    cases part <;>
      simp [add, ProblemSection.domainNames, ProblemSection.flags, ProblemSection.listedObjects,
        ProblemSection.facts, ProblemSection.goals, ProblemSection.metrics, Text.union,
        List.getLast?_cons]

/-- The sections of a problem add up to its parts. -/
lemma ofSections_eq {problem : Problem} {sections : List ProblemSection}
    (h : problem.IsWrittenIn sections) (hnodup : problem.requirements.Nodup) :
    ofSections sections =
      ⟨some problem.domain, problem.requirements, problem.objects, problem.init,
        some problem.goal, problem.metric⟩ := by
  have hmetric : problem.metric.toList.getLast?.or none = problem.metric := by
    cases problem.metric <;> rfl
  have hflags : Text.union [] problem.requirements = problem.requirements :=
    Reader.union_of_nodup _ [] hnodup
  rw [ofSections, foldl_add, h.domain, h.flags, h.objects, h.init, h.goal, h.metric]
  simp only [empty, hmetric, hflags, List.nil_append]
  rfl

end ProblemDraft

/-! ### Well-formed problems -/

/-- An initial fact: a ground atom whose name is not the one of negations, a negated ground atom, or
the value of a fluent. -/
inductive Expr.IsFact : Expr → Prop
  | atom {atom : Atom} : atom.isGround = true → fold atom.name ≠ "not" → IsFact (.atom atom)
  | not {atom : Atom} : atom.isGround = true → IsFact (.not (.atom atom))
  | value {fluent : Atom} {value : Expr} : value.IsNumeric →
      IsFact (.compare .eq (.atom fluent) value)

/-- The problem can be written: its names have lexemes, its flags are in small letters and listed
once, and its facts, goal and metric belong where they stand. -/
structure Problem.WellFormed (numeral : Number → String) (problem : Problem) : Prop where
  name : (Word.name problem.name).IsLexeme
  domain : (Word.name problem.domain).IsLexeme
  flags : ∀ flag ∈ problem.requirements, IsFoldedFlag flag
  flags_nodup : problem.requirements.Nodup
  objects : ∀ object ∈ problem.objects, object.WellSpelledAs .name
  init : ∀ fact ∈ problem.init, fact.IsFact ∧ fact.IsWritable numeral
  goal : problem.goal.IsCondition false ∧ problem.goal.IsWritable numeral
  metric : ∀ metric ∈ problem.metric,
    metric.expression.IsNumeric ∧ metric.expression.IsWritable numeral

namespace ProblemSection

/-- What it takes for a section to be read back. -/
def Readable (numeral : Number → String) : ProblemSection → Prop
  | .domain name => (Word.name name).IsLexeme
  | .requirements listed => (∀ flag ∈ listed, IsFoldedFlag flag) ∧ listed.Nodup
  | .objects listed => ∀ object ∈ listed, object.WellSpelledAs .name
  | .init listed => ∀ fact ∈ listed, fact.IsFact ∧ fact.IsWritable numeral
  | .goal body => body.IsCondition false ∧ body.IsWritable numeral
  | .metric measure => measure.expression.IsNumeric ∧ measure.expression.IsWritable numeral

/-- The sections in which a well-formed problem is written can be read back. -/
lemma readable_of_mem {numeral : Number → String} {problem : Problem}
    {sections : List ProblemSection} (h : problem.WellFormed numeral)
    (hwritten : problem.IsWrittenIn sections) {part : ProblemSection} (hpart : part ∈ sections) :
    part.Readable numeral := by
  cases part with
  | domain name =>
    have hmem : name ∈ sections.flatMap domainNames :=
      List.mem_flatMap.mpr ⟨_, hpart, List.mem_cons_self⟩
    rw [hwritten.domain, List.mem_singleton] at hmem
    exact hmem ▸ h.domain
  | requirements listed =>
    have hnodup := h.flags_nodup
    rw [← hwritten.flags, List.nodup_flatMap] at hnodup
    refine ⟨fun flag hflag => h.flags flag ?_, hnodup.1 _ hpart⟩
    rw [← hwritten.flags]
    exact List.mem_flatMap.mpr ⟨_, hpart, hflag⟩
  | objects listed =>
    intro object hobject
    refine h.objects object ?_
    rw [← hwritten.objects]
    exact List.mem_flatMap.mpr ⟨_, hpart, hobject⟩
  | init listed =>
    intro fact hfact
    refine h.init fact ?_
    rw [← hwritten.init]
    exact List.mem_flatMap.mpr ⟨_, hpart, hfact⟩
  | goal body =>
    have hmem : body ∈ sections.flatMap goals :=
      List.mem_flatMap.mpr ⟨_, hpart, List.mem_cons_self⟩
    rw [hwritten.goal, List.mem_singleton] at hmem
    exact hmem ▸ h.goal
  | metric measure =>
    have hmem : measure ∈ sections.flatMap metrics :=
      List.mem_flatMap.mpr ⟨_, hpart, List.mem_cons_self⟩
    rw [hwritten.metric, Option.mem_toList] at hmem
    exact h.metric measure hmem

/-- A section that can be read back has lexemes only. -/
lemma Readable.wellSpelled {numeral : Number → String} {part : ProblemSection}
    (h : part.Readable numeral) : part.WellSpelled numeral := by
  cases part with
  | domain name => exact h
  | requirements listed => exact fun flag hflag => (h.1 flag hflag).lexeme
  | objects listed => exact h
  | init listed => exact fun fact hfact => (h fact hfact).2.spelled
  | goal body => exact h.2.spelled
  | metric measure => exact h.2.spelled

end ProblemSection

namespace Reader

variable {capacity : Nat} {frame : Frame} {numeral : Number → String} {K : List Word → Prop}

/-! ### Facts and metrics -/

/-- An expression that can be written is read back in its place in a problem. -/
lemma problemBody_yields (hroom : writtenNesting < capacity) (position : Position) {e : Expr}
    (hclass : position.Admits e) (h : e.IsWritable numeral) :
    Yields (.document .lenient false capacity) frame position.reader (e.words numeral) Anything
      (fun found => found = e) :=
  reader_yields hclass h.spelled (lenient_permits h.nesting hroom nofun)

/-- A fact is read from its words. -/
lemma initElement_yields (hroom : writtenNesting < capacity) {fact : Expr} (hfact : fact.IsFact)
    (h : fact.IsWritable numeral) :
    Yields (.document .lenient false capacity) frame initElement (fact.words numeral) Anything
      (fun found => found = fact) := by
  have hlimit : ∀ depth,
      ∀ limit ∈ (Context.document .lenient false capacity).settings.maxNestingDepth,
        depth ≤ limit := by
    rintro depth limit ⟨⟩
  cases hfact with
  | @atom atom hground hname =>
    refine nested_yields (hlimit _) (Yields.cons (expect_yields rfl) fun _ _ => ?_)
    refine current_yields (w := Word.name atom.name) (fun _ _ => rfl) fun t ht => ?_
    obtain ⟨hkind, hkey⟩ := name_of_word ht
    rw [if_neg (by simp [hkind]), if_neg (by simp [hkey, hname])]
    exact Yields.map Expr.atom (atomicFormula_yields_of fun _ => hground)
  | @not atom hground =>
    refine nested_yields (hlimit _) (Yields.cons (expect_yields rfl) fun _ _ => ?_)
    refine current_yields (w := Word.name "not") (fun _ _ => rfl) fun t ht => ?_
    obtain ⟨hkind, hkey⟩ := name_of_word ht
    have hnot : fold "not" = "not" := by decide
    rw [if_neg (by simp [hkind]), if_pos (by simp [hkind, hkey, hnot])]
    refine Yields.cons advance_yields fun _ _ => ?_
    exact Yields.closed (fun atom => Expr.not (.atom atom))
      (nested_yields (hlimit _) (parenthesizedAtom_yields fun _ => hground))
  | @value fluent value hnumeric =>
    have hvalue : value.IsWritable numeral := by
      have hchild : value ∈ (Expr.compare .eq (.atom fluent) value).children :=
        List.mem_cons_of_mem _ List.mem_cons_self
      have hlevels : value.nesting + 1 ≤ (Expr.compare .eq (.atom fluent) value).nesting :=
        Expr.levels_child hchild
      exact ⟨h.spelled.child hchild, by have := h.nesting; omega⟩
    refine nested_yields (hlimit _) (Yields.cons (expect_yields rfl) fun _ _ => ?_)
    refine current_yields (w := CompareOp.eq.word) (fun _ _ => rfl) fun t ht => ?_
    have hkind : t.kind = .operator := congrArg Word.kind ht
    have htext : t.text = CompareOp.eq.text := congrArg Word.text ht
    rw [if_pos (by simp [hkind, htext])]
    refine Yields.cons advance_yields fun _ _ => ?_
    change Yields _ _ _ (fluent.spelling ++ value.words numeral ++ [Word.closing]) _ _
    rw [List.append_assoc]
    refine Yields.bind (fluent_yields (hlimit _)) ?_
    rintro target rfl
    exact Yields.closed (Expr.compare .eq (.atom target))
      (problemBody_yields hroom .numeric hnumeric hvalue)

/-- The words of a fact start with an opening parenthesis. -/
lemma starts_fact {fact : Expr} (h : fact.IsFact) :
    Starts (hasKind .openParen) (fact.words numeral) := by
  cases h <;> exact starts_group _

/-- A metric is read from its direction on. -/
lemma metric_yields (hroom : writtenNesting < capacity) {measure : Metric}
    (hnumeric : measure.expression.IsNumeric) (h : measure.expression.IsWritable numeral) :
    Yields (.document .lenient false capacity) frame metric
      (Word.name measure.direction.text :: measure.expression.words numeral) Anything
      (fun found => found = measure) := by
  refine Yields.cons (expect_yields rfl) fun t ht => ?_
  have hdirection : Direction.ofText? t.key = some measure.direction := by
    rw [(name_of_word ht).2]
    cases measure.direction <;> decide
  simp only [hdirection]
  exact Yields.map (Metric.mk measure.direction)
    (problemBody_yields hroom .numeric hnumeric h)

/-! ### Sections -/

/-- After its keyword, a section is read as what it is. -/
lemma problemSection_of_keyword (kind : ProblemSectionKind) {part : ProblemSection} {text : String}
    {inner : List Word} (hkind : ProblemSectionKind.ofKey? (fold text) = some kind)
    (h : Takes (.document .lenient false capacity) AtTop AtTop (problemSectionOf kind)
      (Word.keyword text :: (inner ++ [Word.closing])) Anything (fun found => found = part)) :
    Takes (.document .lenient false capacity) AtTop AtTop problemSection
      (Word.group (Word.keyword text :: inner)) Anything (fun found => found = part) := by
  refine Takes.cons (.of_yields_atTop fun _ => expect_yields rfl) fun _ _ => ?_
  rintro rest s hK ⟨declared, hs⟩
  obtain ⟨hkeyword, hkey⟩ := keyword_of_word hs.current
  rw [bind_of_ok current_run, if_pos hkeyword, hkey]
  simp only [hkind]
  exact h rest s hK ⟨declared, hs⟩

/-- A section that can be read back is read from its words. -/
lemma problemSection_takes (hroom : writtenNesting < capacity) {part : ProblemSection}
    (h : part.Readable numeral) :
    Takes (.document .lenient false capacity) AtTop AtTop problemSection (part.words numeral)
      Anything (fun found => found = part) := by
  cases part with
  | domain name =>
    refine problemSection_of_keyword .domain (by decide) ?_
    refine .of_yields_atTop fun declared => Yields.cons advance_yields fun _ _ => ?_
    refine Yields.cons name_yields ?_
    rintro _ rfl
    exact Yields.cons (expect_yields rfl) fun _ _ => pure_yields rfl
  | requirements listed =>
    refine problemSection_of_keyword .requirements (by decide) ?_
    rintro rest s hK ⟨declared, hs⟩
    obtain ⟨_, s', hrun, rfl, hs'⟩ :=
      requirements_takes (c := .document .lenient false capacity) rfl
        (fun flag hflag => (h.1 flag hflag).folded) h.2 rest s hK hs
    exact ⟨_, s', bind_eq_ok.mpr ⟨_, s', hrun, rfl⟩, rfl, _, hs'⟩
  | objects listed =>
    refine problemSection_of_keyword .objects (by decide) ?_
    refine .of_yields_atTop fun declared => Yields.cons advance_yields fun _ _ => ?_
    have hlisted : Yields (.document .lenient false capacity) ⟨0, declared, none⟩
        (typedList .name true) (listed.flatMap (TypedName.spellingAs .name)) (Next Word.closing)
        (fun found => found = listed) :=
      typedList_yields (Or.inl rfl) (fun object hobject => ⟨(h object hobject).type, nofun⟩)
        (fun _ hgoverns => by cases hgoverns)
    refine Yields.bind_next hlisted (fun _ _ => rfl) ?_
    rintro _ rfl
    exact Yields.cons (expect_yields rfl) fun _ _ => pure_yields rfl
  | init listed =>
    refine problemSection_of_keyword .init (by decide) ?_
    refine .of_yields_atTop fun declared => Yields.cons advance_yields fun _ _ => ?_
    exact Yields.map ProblemSection.init (operands_yields
      (fun fact hfact => starts_fact (h fact hfact).1)
      (fun fact hfact => initElement_yields hroom (h fact hfact).1 (h fact hfact).2))
  | goal body =>
    refine problemSection_of_keyword .goal (by decide) ?_
    refine .of_yields_atTop fun declared => Yields.cons advance_yields fun _ _ => ?_
    refine Yields.bind (problemBody_yields hroom (.condition false) h.1 h.2) ?_
    rintro _ rfl
    exact Yields.cons (expect_yields rfl) fun _ _ => pure_yields rfl
  | metric measure =>
    refine problemSection_of_keyword .metric (by decide) ?_
    refine .of_yields_atTop fun declared => Yields.cons advance_yields fun _ _ => ?_
    refine Yields.bind (metric_yields hroom h.1 h.2) ?_
    rintro _ rfl
    exact Yields.cons (expect_yields rfl) fun _ _ => pure_yields rfl

/-- The words of a section start with an opening parenthesis. -/
lemma starts_problemSection (part : ProblemSection) :
    Starts (hasKind .openParen) (part.words numeral) := by
  cases part <;> exact starts_group _

/-- A problem is read from the words of its sections, if nothing follows them. -/
lemma problem_takes (hroom : writtenNesting < capacity) {problem : Problem}
    {sections : List ProblemSection} (h : problem.WellFormed numeral)
    (hwritten : problem.IsWrittenIn sections) :
    Takes (.document .lenient false capacity) AtTop AtTop Reader.problem
      (documentWords "problem" problem.name (sections.flatMap (ProblemSection.words numeral)))
      (fun rest => rest = []) (fun found => found = problem) := by
  have hsections : Takes (.document .lenient false capacity) AtTop AtTop
      (readWhile (hasKind .openParen) problemSection)
      (sections.flatMap (ProblemSection.words numeral)) (Next Word.closing)
      (fun found => found = sections) := by
    refine readWhile_atTop ?_ (fun part _ => starts_problemSection part)
      fun part hpart =>
        problemSection_takes hroom (ProblemSection.readable_of_mem h hwritten hpart)
    intro t ht
    simp [hasKind, show t.kind = .closeParen from congrArg Word.kind ht]
  have hdraft := ProblemDraft.ofSections_eq hwritten h.flags_nodup
  change Takes _ _ _ _ (([Word.opening, Word.name "define"] ++
    Word.group [Word.name "problem", Word.name problem.name]) ++
      (sections.flatMap (ProblemSection.words numeral) ++ [Word.closing])) _ _
  refine Takes.bind (M := Anything) (.of_yields_atTop fun _ => header_yields)
    (fun _ _ => True.intro) ?_
  rintro _ rfl
  refine Takes.skip (.of_yields_atTop fun _ => note_yields) fun _ _ => ?_
  refine Takes.bind hsections (fun _ _ => rfl) ?_
  rintro _ rfl
  simp only [hdraft]
  refine Takes.cons (.of_yields_atTop fun _ => expect_yields rfl) fun _ _ => ?_
  exact Takes.finish (.of_yields_atTop fun _ => endOfDocument_yields) fun _ _ => Takes.pure rfl

end Reader

namespace Problem

variable {numeral : Number → String} {problem : Problem} {sections : List ProblemSection}

/-- The words in which a well-formed problem is written are lexemes. -/
lemma isLexeme_of_mem_sections (h : problem.WellFormed numeral)
    (hwritten : problem.IsWrittenIn sections) :
    ∀ word ∈ documentWords "problem" problem.name
      (sections.flatMap (ProblemSection.words numeral)), word.IsLexeme := by
  refine isLexeme_of_mem_documentWords (.name (by decide)) h.name ?_
  refine Word.isLexeme_of_mem_flatMap fun part hpart => ?_
  have hreadable := ProblemSection.readable_of_mem h hwritten hpart
  exact ProblemSection.isLexeme_of_mem_words hreadable.wellSpelled

/-- With room for what can be written, a well-formed problem is read back from every text that has
the words of its sections, in whatever order and layout, and from the text in which these words are
laid out. -/
theorem parse_of_isWrittenIn (numeral : Number → String) (capacity : Nat)
    (hroom : writtenNesting < capacity) (problem : Problem) (sections : List ProblemSection)
    (h : problem.WellFormed numeral) (hwritten : problem.IsWrittenIn sections) :
    (∀ text : String,
      (scan text).words = documentWords "problem" problem.name
        (sections.flatMap (ProblemSection.words numeral)) →
      (scan text).failure = none → (parse .lenient text capacity).result = .ok problem) ∧
    (parse .lenient (render numeral problem.name sections) capacity).result = .ok problem := by
  have hparse : ∀ text : String,
      (scan text).words = documentWords "problem" problem.name
        (sections.flatMap (ProblemSection.words numeral)) →
      (scan text).failure = none → (parse .lenient text capacity).result = .ok problem :=
    fun text hwords hfailure => Reader.run_of_takes (List.cons_ne_nil _ _)
      (Reader.problem_takes hroom h hwritten) hwords hfailure
  obtain ⟨hwords, hfailure⟩ := Word.words_scan_written (isLexeme_of_mem_sections h hwritten)
  exact ⟨hparse, hparse _ hwords hfailure⟩

/-- A problem whose objects are spread over two sections, with its goal first, is read back. -/
theorem parse_of_isWrittenIn_goal_first :
    (parse .lenient (render Number.text "P"
      [.goal (.not (.atom ⟨"at", ["home"]⟩)), .objects [⟨"a", .named "t"⟩],
        .metric ⟨.maximize, .number (.int 3)⟩, .domain "d",
        .init [.not (.atom ⟨"Not", ["a"]⟩), .compare .eq (.atom ⟨"f", []⟩) (.term "b")],
        .requirements [":strips", ":new"], .objects [⟨"b", .either ["t", "u"]⟩]])).result =
      .ok ⟨"P", "d", [":strips", ":new"], [⟨"a", .named "t"⟩, ⟨"b", .either ["t", "u"]⟩],
        [.not (.atom ⟨"Not", ["a"]⟩), .compare .eq (.atom ⟨"f", []⟩) (.term "b")],
        .not (.atom ⟨"at", ["home"]⟩), some ⟨.maximize, .number (.int 3)⟩⟩ := by
  have hatom : ∀ name args, Token.isNameText name.toList = true →
      (∀ arg ∈ args, (Word.term arg).IsLexeme) →
      (Expr.atom ⟨name, args⟩).WellSpelled Number.text := by
    intro name args hname hargs
    exact .of_children ⟨.name hname, hargs⟩ (by simp [Expr.children])
  have hgoal : (Expr.not (.atom ⟨"at", ["home"]⟩)).WellSpelled Number.text := by
    refine .of_children True.intro ?_
    simp only [Expr.children, List.mem_singleton, forall_eq]
    refine hatom "at" ["home"] (by decide) ?_
    simp only [List.mem_singleton, forall_eq]
    exact .name (by decide)
  have hnegated : (Expr.not (.atom ⟨"Not", ["a"]⟩)).WellSpelled Number.text := by
    refine .of_children True.intro ?_
    simp only [Expr.children, List.mem_singleton, forall_eq]
    refine hatom "Not" ["a"] (by decide) ?_
    simp only [List.mem_singleton, forall_eq]
    exact .name (by decide)
  have hvalue : (Expr.compare .eq (.atom ⟨"f", []⟩) (.term "b")).WellSpelled Number.text := by
    refine .of_children True.intro ?_
    simp only [Expr.children, List.mem_cons, List.not_mem_nil, or_false, forall_eq_or_imp,
      forall_eq]
    exact ⟨hatom "f" [] (by decide) (by simp),
      .of_children (.name (by decide)) (by simp [Expr.children])⟩
  have hnumber : (Expr.number (.int 3)).WellSpelled Number.text := by
    have hnumeral : Token.IsLexeme .number (['3'] ++ []) := .number (by decide) (by decide)
    exact .of_children ⟨hnumeral, rfl⟩ (by simp [Expr.children])
  refine (parse_of_isWrittenIn Number.text _ (by decide)
    ⟨"P", "d", [":strips", ":new"], [⟨"a", .named "t"⟩, ⟨"b", .either ["t", "u"]⟩],
      [.not (.atom ⟨"Not", ["a"]⟩), .compare .eq (.atom ⟨"f", []⟩) (.term "b")],
      .not (.atom ⟨"at", ["home"]⟩), some ⟨.maximize, .number (.int 3)⟩⟩ _ ?_ ?_).2
  · refine
      { name := .name (by decide)
        domain := .name (by decide)
        flags := ?_
        flags_nodup := by decide
        objects := ?_
        init := ?_
        goal := ⟨.not (.atom ⟨by decide, by decide⟩), hgoal, by decide⟩
        metric := ?_ }
    · intro flag hflag
      simp only [List.mem_cons, List.not_mem_nil, or_false] at hflag
      rcases hflag with rfl | rfl
      · exact ⟨Word.isLexeme_keyword (by decide), by decide⟩
      · exact ⟨Word.isLexeme_keyword (by decide), by decide⟩
    · intro object hobject
      simp only [List.mem_cons, List.not_mem_nil, or_false] at hobject
      rcases hobject with rfl | rfl
      · refine ⟨.name (by decide), ?_, by simp [TypeSpec.options]⟩
        simp only [TypeSpec.options, List.mem_singleton, forall_eq]
        exact .name (by decide)
      · refine ⟨.name (by decide), ?_, by simp [TypeSpec.options]⟩
        simp only [TypeSpec.options, List.mem_cons, List.not_mem_nil, or_false, forall_eq_or_imp,
          forall_eq]
        exact ⟨.name (by decide), .name (by decide)⟩
    · intro fact hfact
      simp only [List.mem_cons, List.not_mem_nil, or_false] at hfact
      rcases hfact with rfl | rfl
      · exact ⟨.not (by decide), hnegated, by decide⟩
      · exact ⟨.value (.term _), hvalue, by decide⟩
    · rintro metric ⟨⟩
      exact ⟨.number _, hnumber, by decide⟩
  · exact ⟨rfl, rfl, rfl, rfl, rfl, rfl⟩

end Problem

end Pddl
