/-
Settings.

The settings of the program, and of its two commands: what each of them holds, under which names its
parts are given, and how the values that are given for them are checked. The command that solves
questions cannot do without access to the models and to the database, nor without a question unless
it only fills gaps in the store.
-/
import MathScribe.Record.Check
import MathScribe.Text.Path

set_option autoImplicit false

namespace MathScribe

/-- The settings that all commands share (`MathSolverBaseSettings`). -/
structure Settings where
  /-- The key for the models. -/
  modelKey : Option String
  /-- The chat model that solves questions. -/
  modelName : String
  embeddingModel : String
  /-- The limit on the length of a solution. -/
  maxTokens : Int
  /-- How freely the solving model chooses its words. -/
  temperature : Binary64
  /-- The share of the likely words that it chooses from. -/
  topP : Binary64
  databaseUri : Option String
  databaseUser : Option String
  databasePassword : Option String
  databaseName : String
  /-- The index over the embeddings of the stored questions. -/
  indexName : String
  embeddingDimensions : Int
  similarityFunction : String
  /-- How many similar questions a search brings. -/
  topK : Int
  /-- Whether the solving model writes ASCIIMath too. -/
  transcribesByModel : Bool
  deriving DecidableEq, Repr

/-- The settings of the command that solves questions (`SolverSettings`). -/
structure SolveSettings where
  shared : Settings
  question : Option String
  /-- Look similar questions up instead of solving the question. -/
  similar : Bool
  /-- Give stored questions the texts in ASCIIMath that they lack. -/
  backfill : Bool
  deriving DecidableEq, Repr

/-- The settings of the command that converts a text (`ConvertSettings`). -/
structure ConvertSettings where
  shared : Settings
  text : Option String
  /-- The file to convert when no text is given. -/
  inputPath : Option String
  deriving DecidableEq, Repr

/-- The kinds of settings. -/
inductive SettingsKind
  | shared
  | solve
  | convert
  deriving DecidableEq, Repr

/-- Settings of any kind. -/
inductive AnySettings
  | shared (settings : Settings)
  | solve (settings : SolveSettings)
  | convert (settings : ConvertSettings)
  deriving DecidableEq, Repr

/-- The kind of some settings. -/
def AnySettings.kind : AnySettings → SettingsKind
  | shared _ => .shared
  | solve _ => .solve
  | convert _ => .convert

/-! ## Names -/

/-- The name of a setting. -/
abbrev SettingName := String

namespace SettingName

def modelKey : SettingName := "OPENAI_API_KEY"
def modelName : SettingName := "model_name"
def embeddingModel : SettingName := "embedding_model"
def maxTokens : SettingName := "max_tokens"
def temperature : SettingName := "temperature"
def topP : SettingName := "top_p"
def databaseUri : SettingName := "NEO4J_URI"
def databaseUser : SettingName := "NEO4J_USERNAME"
def databasePassword : SettingName := "NEO4J_PASSWORD"
def databaseName : SettingName := "NEO4J_DATABASE"
def indexName : SettingName := "index_name"
def embeddingDimensions : SettingName := "embedding_dimensions"
def similarityFunction : SettingName := "similarity_function"
def topK : SettingName := "top_k"
def transcribesByModel : SettingName := "use_llm_notation"
def question : SettingName := "question"
def similar : SettingName := "similar"
def backfill : SettingName := "backfill_notation"
def text : SettingName := "text"
def inputPath : SettingName := "input_path"

/-- The names of the settings that all commands share. -/
def allShared : List SettingName :=
  [modelKey, modelName, embeddingModel, maxTokens, temperature, topP, databaseUri, databaseUser,
   databasePassword, databaseName, indexName, embeddingDimensions, similarityFunction, topK,
   transcribesByModel]

/-- The names of the settings of a kind. -/
def allOf : SettingsKind → List SettingName
  | .shared => allShared
  | .solve => allShared ++ [question, similar, backfill]
  | .convert => allShared ++ [text, inputPath]

end SettingName

/-! ## Checks -/

/-- A path in its one written form. -/
def Value.toPath : Value → Except Fault String
  | text s => .ok (String.ofList (Path.normalize s.toList))
  | _ => .error .notPath

/-- A path or null. -/
def Value.toOptionalPath : Value → Except Fault (Option String)
  | null => .ok none
  | value => value.toPath.map some

/-- A check of a setting out of the values that are given, by name. -/
def checkSetting {α : Type} (given : Fields) (name : SettingName) (default : Option α)
    (check : Value → Except Fault α) : Checked α :=
  checkField given name default fun value => .ofExcept (check value)

/-- A check of a text that gives access to something: it must be given, or may be left out. -/
def checkAccess (required : Bool) (given : Fields) (name : SettingName) :
    Checked (Option String) :=
  if required then checkSetting given name none fun value => value.toText.map some
  else checkSetting given name (some none) Value.toOptionalText

/-- The shared settings out of the values that are given. -/
def Settings.ofFields (requiresAccess : Bool) (given : Fields) : Checked Settings :=
  Settings.mk
    <$> checkAccess requiresAccess given .modelKey
    <*> checkSetting given .modelName (some "gpt-4o-mini") Value.toText
    <*> checkSetting given .embeddingModel (some "text-embedding-ada-002") Value.toText
    <*> checkSetting given .maxTokens (some 600) Value.toInteger
    <*> checkSetting given .temperature (some (.ofDecimal false 2 (-1))) Value.toReal
    <*> checkSetting given .topP (some (.ofDecimal false 95 (-2))) Value.toReal
    <*> checkAccess requiresAccess given .databaseUri
    <*> checkAccess requiresAccess given .databaseUser
    <*> checkAccess requiresAccess given .databasePassword
    <*> checkSetting given .databaseName (some "neo4j") Value.toText
    <*> checkSetting given .indexName (some "embeddingIndex") Value.toText
    <*> checkSetting given .embeddingDimensions (some 1536) Value.toInteger
    <*> checkSetting given .similarityFunction (some "cosine") Value.toText
    <*> checkSetting given .topK (some 5) Value.toInteger
    <*> checkSetting given .transcribesByModel (some false) Value.toBool

namespace SolveSettings

/-- Whether the settings say what to do: fill gaps, or deal with a question (`require_question`). -/
def hasTask (settings : SolveSettings) : Bool :=
  settings.backfill || settings.question.any (· ≠ "")

/-- The settings of the command that solves questions out of the values that are given. That there is
something to do is checked when all parts have passed. -/
def ofFields (given : Fields) : Checked SolveSettings :=
  let parts := SolveSettings.mk
    <$> Settings.ofFields true given
    <*> checkSetting given .question (some none) Value.toOptionalText
    <*> checkSetting given .similar (some false) Value.toBool
    <*> checkSetting given .backfill (some false) Value.toBool
  match parts with
  | .faulty errors => .faulty errors
  | .ok settings =>
    if settings.hasTask then .ok settings
    else .faulty
      [⟨[], .rule "--question is required unless --backfill_notation is set"⟩]

end SolveSettings

/-- The settings of the command that converts a text out of the values that are given. -/
def ConvertSettings.ofFields (given : Fields) : Checked ConvertSettings :=
  ConvertSettings.mk
    <$> Settings.ofFields false given
    <*> checkSetting given .text (some none) Value.toOptionalText
    <*> checkSetting given .inputPath (some none) Value.toOptionalPath

/-- The settings of a kind out of the values that are given. -/
def AnySettings.ofFields (given : Fields) : SettingsKind → Checked AnySettings
  | .shared => AnySettings.shared <$> Settings.ofFields false given
  | .solve => AnySettings.solve <$> SolveSettings.ofFields given
  | .convert => AnySettings.convert <$> ConvertSettings.ofFields given

end MathScribe
