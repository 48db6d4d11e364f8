import Pddl.Problem
import Pddl.Reader.Expr
import Pddl.Reader.Report

/-!
# Readers of problems

The sections of a problem may come in any order.  Flags, objects and initial facts of several
sections add up; of several domain names, goals and metrics the last one counts.
-/

namespace Pddl

/-- A section of a problem. -/
inductive ProblemSection
  | domain (name : String)
  | requirements (flags : List String)
  | objects (objects : List TypedName)
  | init (facts : List Expr)
  | goal (goal : Expr)
  | metric (metric : Metric)

/-- The sections of a problem taken together, with the domain and the goal still optional. -/
structure ProblemDraft where
  domain : Option String
  requirements : List String
  objects : List TypedName
  init : List Expr
  goal : Option Expr
  metric : Option Metric

namespace ProblemDraft

/-- No sections. -/
def empty : ProblemDraft where
  domain := none
  requirements := []
  objects := []
  init := []
  goal := none
  metric := none

/-- Adds a section. -/
def add (draft : ProblemDraft) : ProblemSection → ProblemDraft
  | .domain name => { draft with domain := some name }
  | .requirements flags => { draft with requirements := Text.union draft.requirements flags }
  | .objects objects => { draft with objects := draft.objects ++ objects }
  | .init facts => { draft with init := draft.init ++ facts }
  | .goal goal => { draft with goal := some goal }
  | .metric metric => { draft with metric := some metric }

/-- All sections of a list, added one after the other. -/
def ofSections (sections : List ProblemSection) : ProblemDraft :=
  sections.foldl add empty

end ProblemDraft

/-- The kinds of sections of a problem. -/
inductive ProblemSectionKind
  | domain
  | requirements
  | objects
  | init
  | goal
  | metric
deriving DecidableEq, Repr

namespace ProblemSectionKind

/-- The kind of section that a folded keyword starts. -/
def ofKey? : String → Option ProblemSectionKind
  | ":domain" => some .domain
  | ":requirements" => some .requirements
  | ":objects" => some .objects
  | ":init" => some .init
  | ":goal" => some .goal
  | ":metric" => some .metric
  | _ => none

/-- The keywords of all sections, in words. -/
def listText : String :=
  ":domain, :requirements, :objects, :init, :goal, :metric"

end ProblemSectionKind

namespace Reader

/-- Reads an element of an initial state: a ground atom, its negation, or the value of a
fluent. -/
def initElement : ReadM Expr :=
  nested do
    let _ ← openParen
    let token ← current
    if token.kind = .operator && token.text = CompareOp.eq.text then
      let _ ← advance
      let target ← fluent
      let value ← anyNumericTerm
      closeForm token "fluent assignments take a fluent and a value"
      return .compare .eq (.atom target) value
    else if token.kind = .name && token.key = "not" then
      let _ ← advance
      let atom ← nested (parenthesizedAtom true)
      closeForm token "`not` takes exactly one argument"
      return .not (.atom atom)
    else
      return .atom (← atomicFormula true)

/-- Reads the direction and the term of a metric. -/
def metric : ReadM Metric := do
  let expected := "'minimize' or 'maximize'"
  let token ← expect .name expected
  match Direction.ofText? token.key with
  | some direction => return ⟨direction, ← anyNumericTerm⟩
  | none => failAt token expected .mismatch

/-- Reads a section of the given kind from its keyword through its closing parenthesis. -/
def problemSectionOf : ProblemSectionKind → ReadM ProblemSection
  | .domain => do
    let _ ← advance
    let domain ← name "a domain name"
    let _ ← closeParen
    return .domain domain
  | .requirements => return .requirements (← requirements)
  | .objects => do
    let _ ← advance
    let objects ← typedList .name true
    let _ ← closeParen
    return .objects objects
  | .init => do
    let _ ← advance
    return .init (← operands initElement)
  | .goal => do
    let _ ← advance
    let goal ← anyCondition false
    let _ ← closeParen
    return .goal goal
  | .metric => do
    let _ ← advance
    let metric ← metric
    let _ ← closeParen
    return .metric metric

/-- Reads a section from its opening parenthesis through its closing one. -/
def problemSection : ReadM ProblemSection := do
  let _ ← openParen
  let token ← current
  if isKeyword token then
    match ProblemSectionKind.ofKey? token.key with
    | some kind => problemSectionOf kind
    | none =>
      failHere ("a problem section keyword (" ++ ProblemSectionKind.listText ++ ")") .mismatch
  else
    failHere "a problem section keyword" .mismatch

/-- Reads a problem and what follows it.  It has to name its domain and to have a goal. -/
def problem : ReadM Problem := do
  let name ← header "problem" "a problem name"
  note (.problemStarted name)
  let draft := ProblemDraft.ofSections (← readWhile (hasKind .openParen) problemSection)
  match draft.domain, draft.goal with
  | none, _ => failHere "'(:domain'" (.missingDomain name)
  | some _, none => failHere "'(:goal'" (.missingGoal name)
  | some domain, some goal =>
    let _ ← expect .closeParen "'(' opening a section or ')'"
    endOfDocument
    return {
      name := name
      domain := domain
      requirements := draft.requirements
      objects := draft.objects
      init := draft.init
      goal := goal
      metric := draft.metric }

end Reader

/-- Reads the problem that a text defines. -/
def Problem.parse (settings : Settings) (text : String)
    (capacity : Nat := Reader.documentCapacity) : Report Problem :=
  Reader.run Reader.problem (.document settings false capacity) text

end Pddl
