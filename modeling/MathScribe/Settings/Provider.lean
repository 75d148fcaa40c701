/-
The provider of settings.

A provider serves one instance of settings for each kind. An instance is built when it is first asked
for, out of the environment of that moment, and served from then on; it may be replaced by one that a
caller has in hand, and all instances may be dropped. Asking for settings that cannot be built leaves
the provider as it was. Instances are told apart by their numbers.
-/
import MathScribe.Settings.Source

set_option autoImplicit false

namespace MathScribe

/-- Settings that have been built or installed, with a number of their own. -/
structure Instance where
  number : Nat
  settings : AnySettings
  deriving DecidableEq, Repr

/-- The instances that are served, and the environment (`SettingsProvider`). -/
structure Provider where
  /-- The variables of the environment. -/
  environment : List (String × String)
  /-- The contents of the settings file, if there is one. -/
  envFile : Option String
  /-- The instance of each kind. -/
  served : List (SettingsKind × Instance)
  /-- How many numbers have been given to instances. -/
  count : Nat
  deriving DecidableEq, Repr

namespace Provider

/-- A provider that serves nothing yet, in an environment without variables and without a settings
file. -/
def new : Provider :=
  ⟨[], none, [], 0⟩

/-- The environment becomes another one. -/
def change (provider : Provider) (environment : List (String × String)) (envFile : Option String) :
    Provider :=
  { provider with environment, envFile }

/-- Set variables of the environment. -/
def setVariables (provider : Provider) (added : List (String × String)) : Provider :=
  provider.change
    (added.foldl (fun environment (name, value) => EnvFile.assign name value environment)
      provider.environment)
    provider.envFile

/-- Drop all instances (`clear`). -/
def clear (provider : Provider) : Provider :=
  { provider with served := [] }

/-- Serve an instance for the kind of its settings. Its number is given to no other instance. -/
def serve (provider : Provider) (served : Instance) : Provider :=
  { provider with
    served := (served.settings.kind, served)
      :: provider.served.filter (·.1 ≠ served.settings.kind),
    count := max provider.count (served.number + 1) }

/-- Serve settings as a new instance for their kind. -/
def install (provider : Provider) (settings : AnySettings) : Instance × Provider :=
  let served : Instance := ⟨provider.count, settings⟩
  (served, provider.serve served)

/-- The instance that is served for a kind. -/
def find? (provider : Provider) (kind : SettingsKind) : Option Instance :=
  provider.served.lookup kind

/-- What settings are built out of: the command line of the process, with the given words, and the
environment of the moment. -/
def source (provider : Provider) (words : List String) : SettingsSource :=
  ⟨some words, [], provider.environment, provider.envFile⟩

/-- The instance of a kind, which is built if there is none yet (`get_settings`). The words are
those of the command line of the process. -/
def get (provider : Provider) (kind : SettingsKind) (words : List String) :
    Except SettingsError Instance × Provider :=
  match provider.find? kind with
  | some found => (.ok found, provider)
  | none =>
    match (provider.source words).settings kind with
    | .error error => (.error error, provider)
    | .ok settings =>
      let (built, next) := provider.install settings
      (.ok built, next)

/-- Build settings out of a source of their own, and serve them (`override`). -/
def override (provider : Provider) (kind : SettingsKind) (source : SettingsSource) :
    Except SettingsError Instance × Provider :=
  match source.settings kind with
  | .error error => (.error error, provider)
  | .ok settings =>
    let (installed, next) := provider.install settings
    (.ok installed, next)

end Provider

end MathScribe
