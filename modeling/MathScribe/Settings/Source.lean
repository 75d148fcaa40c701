/-
Where settings come from.

A setting may be given on the command line, by the caller, in the environment, or in a settings file;
the first of these that has it counts, and none of them is asked for a setting that has been found.
Names are compared without regard to case.
-/
import MathScribe.Settings.Basic
import MathScribe.Settings.CommandLine
import MathScribe.Settings.EnvFile

set_option autoImplicit false

namespace MathScribe

/-- All that may give settings. -/
structure SettingsSource where
  /-- The words of the command line, if it is to be read. -/
  words : Option (List String)
  /-- What the caller gives. -/
  given : Fields
  /-- The variables of the environment. -/
  environment : List (String × String)
  /-- The contents of the settings file, if there is one. -/
  envFile : Option String

/-- Why there are no settings. -/
inductive SettingsError
  /-- The command line is refused. -/
  | refused (refusal : CommandLine.Refusal)
  /-- Values do not pass their checks. -/
  | invalid (errors : List FieldError)
  deriving DecidableEq, Repr

namespace SettingsSource

/-- The last entry whose name is the given one but for case. -/
def lookUpName {α : Type} (entries : List (String × α)) (name : String) : Option α :=
  (entries.reverse.find? fun (other, _) => lowerName other = lowerName name).map (·.2)

/-- The value that a settings file or the environment gives a setting. -/
def textOf? (source : SettingsSource) (file : List (String × Option String))
    (name : SettingName) : Option Value :=
  ((lookUpName source.environment name).or (lookUpName file name).join).map .text

/-- The value that the caller gives a setting. The very name of the setting comes before names that
differ from it in case. -/
def givenOf? (source : SettingsSource) (name : SettingName) : Option Value :=
  (source.given.lookup name).or (lookUpName source.given name)

/-- The values of the settings of a kind, by name: of each setting the value that counts. -/
def values (source : SettingsSource) (kind : SettingsKind) :
    Except CommandLine.Refusal Fields := do
  let names := SettingName.allOf kind
  -- Only the settings of a command are read from the command line.
  let onLine ←
    match kind, source.words with
    | .shared, _ => pure []
    | _, none => pure []
    | _, some words => CommandLine.read names words
  let file := (source.envFile.map (EnvFile.read source.environment)).getD []
  pure (names.filterMap fun name =>
    let value? :=
      ((onLine.lookup (CommandLine.flagOf name)).or (source.givenOf? name)).or
        (source.textOf? file name)
    value?.map (name, ·))

/-- The settings of a kind. -/
def settings (source : SettingsSource) (kind : SettingsKind) : Except SettingsError AnySettings :=
  match source.values kind with
  | .error refusal => .error (.refused refusal)
  | .ok values =>
    match AnySettings.ofFields values kind with
    | .ok settings => .ok settings
    | .faulty errors => .error (.invalid errors)

end SettingsSource

end MathScribe
