import Pddl.Summary

/-!
# The command line

`--domain`, `--problem`, `--plan` and `--config` name the files to summarise, and `--verbose` shows
all notices.
-/

namespace Pddl.CommandLine

/-- The files that the arguments name. -/
structure Paths where
  domain : Option String
  problem : Option String
  plan : Option String
  config : Option String
  verbose : Bool

/-- No files. -/
def Paths.none : Paths :=
  ⟨.none, .none, .none, .none, false⟩

/-- The files of a list of arguments; an error for an argument that is not known. -/
def Paths.ofArgs (paths : Paths) : List String → Except String Paths
  | [] => .ok paths
  | "--verbose" :: rest => ofArgs { paths with verbose := true } rest
  | "--domain" :: path :: rest => ofArgs { paths with domain := some path } rest
  | "--problem" :: path :: rest => ofArgs { paths with problem := some path } rest
  | "--plan" :: path :: rest => ofArgs { paths with plan := some path } rest
  | "--config" :: path :: rest => ofArgs { paths with config := some path } rest
  | arg :: _ => .error s!"No such option: {arg}"

/-- A line without the marks for its colour. -/
def unstyled (line : String) : String :=
  (line.replace "[green]" "").replace "[/green]" ""

/-- A table as lines: its title, its columns, its rows. -/
def gridLines (grid : Grid) : List String :=
  grid.title :: String.intercalate " | " grid.columns :: grid.rows.map (String.intercalate " | ")

/-- What is printed as lines. -/
def printedLines : Printed → List String
  | .line text => [unstyled text]
  | .grid grid => gridLines grid

/-- A failure outside the documents in words. -/
def crashLine (configPath : String) : Crash → String
  | .settings (.file failure) => failure.message configPath
  | .settings (.options problems) =>
    String.intercalate "\n" (problems.map fun problem => problem.fault.message)
  | .reading failure => failure.text

/-- Reads a file that is given. -/
def readGiven : Option String → IO (Option String)
  | .none => return .none
  | some path => do return some (← IO.FS.readFile path)

/-- Summarises the files that are given and returns the exit code. -/
def run (paths : Paths) : IO UInt32 := do
  let summary := Summary.ofRequest {
    domain := ← readGiven paths.domain
    problem := ← readGiven paths.problem
    plan := ← readGiven paths.plan
    settings := ← readGiven paths.config
    verbose := paths.verbose }
  for line in summary.log do
    IO.eprintln line
  for line in summary.printed.flatMap printedLines do
    IO.println line
  for line in summary.errors do
    IO.eprintln line
  match summary.crash with
  | some crash => IO.eprintln (crashLine (paths.config.getD "") crash)
  | .none => pure ()
  return summary.exitCode.toUInt32

end Pddl.CommandLine

/-- Summarises the files that the arguments name. -/
def main (args : List String) : IO UInt32 := do
  match Pddl.CommandLine.Paths.none.ofArgs args with
  | .ok paths =>
    try
      Pddl.CommandLine.run paths
    catch error =>
      IO.eprintln (toString error)
      return 2
  | .error message =>
    IO.eprintln message
    return 2
