/-
The program.

The first word of the command line names the command, and the words behind it are its settings. This
file reads what a command needs and writes what it brings; what a command does is decided elsewhere.
The program has no connection to chat models or to a database of its own, so the command that solves
questions ends where the first collaborator is called.
-/
import MathScribe.Command.Convert
import MathScribe.Command.Solve
import MathScribe.Settings.Source

set_option autoImplicit false

namespace MathScribe

namespace Program

/-- Collaborators that cannot be reached. -/
def unreachable : Outside Unit := fun _ state =>
  (.error (.failed "no connection to the models and the database"), state)

/-- The spellings of a setting's name under which the environment is searched. -/
def spellings (name : String) : List String :=
  [name, name.toLower, name.toUpper]

/-- The variables of the environment that may be settings. -/
def readEnvironment (names : List String) : IO (List (String × String)) := do
  let mut found := []
  for name in names.flatMap spellings do
    match ← IO.getEnv name with
    | some value => found := (name, value) :: found
    | none => pure ()
  pure found

/-- The contents of a file, if it can be read. -/
def readFile? (path : String) : IO (Option String) := do
  try
    some <$> IO.FS.readFile path
  catch _ =>
    pure none

/-- All that is left to read from a stream. -/
partial def readAll (stream : IO.FS.Stream) (front : String) : IO String := do
  let line ← stream.getLine
  if line.isEmpty then pure front else readAll stream (front ++ line)

/-- The settings of a command. -/
def readSettings (kind : SettingsKind) (words : List String) :
    IO (Except SettingsError AnySettings) := do
  let environment ← readEnvironment (SettingName.allOf kind)
  let envFile ← readFile? ".env"
  let source : SettingsSource := ⟨some words, [], environment, envFile⟩
  pure (source.settings kind)

/-- The name of a level in the log. -/
def levelName : Level → String
  | .info => "INFO"
  | .warning => "WARNING"
  | .error => "ERROR"

/-- Write log records to the standard error. -/
def writeLogs (logs : List LogRecord) : IO Unit :=
  logs.forM fun record => IO.eprintln (levelName record.level ++ " - " ++ record.message)

/-- Write what a command has brought, and give its exit code. -/
def finish {α : Type} (outcome : Outcome α) (logs : List LogRecord) : IO UInt32 := do
  IO.print outcome.output
  writeLogs logs
  match outcome.ending with
  | .ok _ => pure 0
  | .error code => pure code.toUInt32

/-- Say why there are no settings, and give the exit code for that. -/
def reportSettingsError : SettingsError → IO UInt32
  | .refused .help => do
    IO.println "Settings are given as: --name value"
    pure 0
  | .refused .usage => do
    IO.eprintln "Settings are given as: --name value"
    pure 2
  | .invalid errors => do
    errors.forM fun error => IO.eprintln (error.path ++ ": " ++ error.fault.message)
    pure 1

/-- Convert what the settings ask for. -/
def runConvert (settings : ConvertSettings) : IO UInt32 := do
  let contents ←
    match settings.source with
    | .text _ => pure none
    | .file path => readFile? path
    | .standardInput => some <$> (do readAll (← IO.getStdin) "")
  let (outcome, logs) := convertCommand settings.source contents
  finish outcome logs

/-- Do what the settings ask for with a solver. -/
def runSolve (settings : SolveSettings) : IO UInt32 := do
  let command := solveCommand unreachable (Solver.setUp unreachable settings.shared) settings.task
  let (result, world) := command.start ⟨(), .empty⟩
  match result with
  | .ok outcome => finish outcome world.journal.logs
  | .error problem => do
    writeLogs world.journal.logs
    IO.eprintln problem.message
    pure 1

/-- Run a command with its settings. -/
def run (kind : SettingsKind) (words : List String) : IO UInt32 := do
  match ← readSettings kind words with
  | .error error => reportSettingsError error
  | .ok (.convert settings) => runConvert settings
  | .ok (.solve settings) => runSolve settings
  | .ok (.shared _) => pure 0

end Program

end MathScribe

/-- Run the program. -/
def main (words : List String) : IO UInt32 := do
  match words with
  | "convert" :: settings => MathScribe.Program.run .convert settings
  | "solve" :: settings => MathScribe.Program.run .solve settings
  | _ => do
    IO.eprintln "Commands: convert, solve"
    pure 2
