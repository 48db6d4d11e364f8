import Pddl.Check.Conformance
import Pddl.Reader.Domain
import Pddl.Reader.Plan
import Pddl.Reader.Problem
import Pddl.Settings.File

/-!
# Summaries

A domain, a problem and a plan are read one after the other and summarised: a table of actions, a
line on the problem, a table of steps.  The first failure ends the summary; what was printed before
it stays.
-/

namespace Pddl

/-- A table with a title. -/
structure Grid where
  title : String
  columns : List String
  rows : List (List String)
deriving DecidableEq, Repr

/-- Something that is printed. -/
inductive Printed
  | line (text : String)
  | grid (grid : Grid)
deriving DecidableEq, Repr

/-- What is to be summarised: the contents of the files that are given. -/
structure SummaryRequest where
  domain : Option String
  problem : Option String
  plan : Option String
  settings : Option String
  verbose : Bool

/-- A failure that is not an error of the document and so has no line of its own. -/
inductive Crash
  | settings (failure : SettingsFailure)
  | reading (failure : Failure)
deriving DecidableEq, Repr

/-- A summary: what is printed, the error that ended it, the notices, and the exit code. -/
structure Summary where
  exitCode : Nat
  printed : List Printed
  errors : List String
  level : Level
  log : List String
  crash : Option Crash

namespace Summary

/-! ### Contents -/

/-- The actions of a domain. -/
def domainGrid (domain : Domain) : Grid where
  title := "Domain: " ++ domain.name
  columns := ["Action", "Kind", "Parameters"]
  rows := domain.actions.map fun action =>
    let kind := if action.isDurative then "durative" else "instant"
    let params := TypedName.listText action.params
    [action.name, kind, if params = "" then "-" else params]

/-- The numbers of declarations of a domain. -/
def domainLine (domain : Domain) : String :=
  "[green]" ++ toString domain.types.size ++ " types, " ++ toString domain.predicates.length ++
    " predicates, " ++ toString domain.functions.length ++ " functions.[/green]"

/-- The numbers of objects and facts of a problem. -/
def problemLine (problem : Problem) : String :=
  "[green]Problem " ++ problem.name ++ " (domain " ++ problem.domain ++ "): " ++
    toString problem.objects.length ++ " objects, " ++ toString problem.init.length ++
    " initial facts.[/green]"

/-- The steps of a plan. -/
def planGrid (plan : Plan) : Grid where
  title := "Plan (" ++ toString plan.steps.length ++ " steps, makespan " ++
    PlanStep.timeText plan.makespan ++ ")"
  columns := ["Time", "Action", "Duration"]
  rows := plan.steps.map fun step =>
    let duration := match step.duration with
      | none => "-"
      | some duration => PlanStep.timeText duration
    [PlanStep.timeText step.time, step.actionText, duration]

/-! ### Summarising -/

/-- What a summary has gathered so far. -/
structure Gathered where
  printed : List Printed
  notices : List Notice

/-- Steps of a summary, which a failure to read ends. -/
abbrev SummaryM := ExceptT Failure (StateM Gathered)

/-- Prints something. -/
def print (printed : Printed) : SummaryM Unit :=
  modify fun gathered => { gathered with printed := gathered.printed ++ [printed] }

/-- The document of a report, whose notices are kept. -/
def document {α : Type} (report : Report α) : SummaryM α := do
  modify fun gathered => { gathered with notices := gathered.notices ++ report.log }
  match report.result with
  | .ok value => return value
  | .error failure => throw failure

/-- Passes if a check passes. -/
def check : Except Defect Unit → SummaryM Unit
  | .ok () => return ()
  | .error defect => throw (.invalid defect)

/-- Summarises a domain. -/
def addDomain (settings : Settings) (content : String) : SummaryM Domain := do
  let domain ← document (Domain.parse settings (Text.withNewlines content))
  check (Check.domainArities domain)
  print (.grid (domainGrid domain))
  print (.line (domainLine domain))
  return domain

/-- Summarises a problem, which has to conform to the domain if there is one. -/
def addProblem (settings : Settings) (domain : Option Domain) (content : String) :
    SummaryM Unit := do
  let problem ← document (Problem.parse settings (Text.withNewlines content))
  match domain with
  | some domain => check (Check.problemAgainst domain problem)
  | none => pure ()
  print (.line (problemLine problem))

/-- Summarises a plan. -/
def addPlan (settings : Settings) (content : String) : SummaryM Unit := do
  let plan ← document (Plan.parse settings (Text.withNewlines content))
  print (.grid (planGrid plan))

/-- Summarises all that is given. -/
def addAll (settings : Settings) (request : SummaryRequest) : SummaryM Unit := do
  let domain ← match request.domain with
    | some content => do pure (some (← addDomain settings content))
    | none => pure none
  match request.problem with
  | some content => addProblem settings domain content
  | none => pure ()
  match request.plan with
  | some content => addPlan settings content
  | none => pure ()

/-- The notices that are shown: all of them in a verbose summary, else the warnings. -/
def shownLog (verbose : Bool) (notices : List Notice) : List String :=
  if verbose then "DEBUG: Configured logging at level DEBUG." :: notices.map Notice.text
  else (notices.filter fun notice => notice.level = .warning).map Notice.text

/-- The name of an error of a document; other failures have none. -/
def errorName? : Failure → Option String
  | .lexical _ => some "LexError"
  | .grammar _ => some "ParseError"
  | .invalid _ => some "ValidationError"
  | .integerTooLong | .timeOutOfRange => none

/-- The summary of what is gathered, with the failure that ended it. -/
def finish (request : SummaryRequest) (gathered : Gathered) (failure : Option Failure) :
    Summary :=
  let summary : Summary := {
    exitCode := 0
    printed := gathered.printed
    errors := []
    level := if request.verbose then .debug else .warning
    log := shownLog request.verbose gathered.notices
    crash := none }
  match failure with
  | none => summary
  | some failure =>
    match errorName? failure with
    | some name => { summary with exitCode := 1, errors := [name ++ ": " ++ failure.text] }
    | none => { summary with exitCode := 1, crash := some (.reading failure) }

/-- Summarises a request.  The settings are loaded first. -/
def ofRequest (request : SummaryRequest) : Summary :=
  let settings := match request.settings with
    | some content => Settings.load (some content)
    | none => .ok Settings.lenient
  match settings with
  | .error failure =>
    { finish request ⟨[], []⟩ none with exitCode := 1, crash := some (.settings failure) }
  | .ok settings =>
    match (addAll settings request).run ⟨[], []⟩ with
    | (.ok (), gathered) => finish request gathered none
    | (.error failure, gathered) => finish request gathered (some failure)

end Summary

end Pddl
