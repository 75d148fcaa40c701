/-
Setting a solver up.

A solver is set up out of the settings: the models are got ready, the database is connected, and the
index over the embeddings is created. Nothing is called unless the settings give access to both. An
index that cannot be created does not keep the solver from being set up.
-/
import MathScribe.Service.Solver
import MathScribe.Settings.Basic

set_option autoImplicit false

namespace MathScribe

namespace Solver

/-- The text of a setting, which has to be there and must not be empty. -/
def demand {σ : Type} (requirement : Requirement) (setting : Option String) : Task σ String :=
  match setting with
  | some text => if text = "" then throw (.unmet requirement) else pure text
  | none => throw (.unmet requirement)

/-- The parameters of the model that solves questions. -/
def solverParameters (settings : Settings) (key : String) : Fields :=
  [("openai_api_key", .text key), ("model_name", .text settings.modelName),
   ("max_tokens", .int settings.maxTokens), ("temperature", .real settings.temperature),
   ("top_p", .real settings.topP)]

/-- The parameters of the model that names the types of questions. It is the same model at full
temperature. -/
def classifierParameters (settings : Settings) (key : String) : Fields :=
  [("openai_api_key", .text key), ("model_name", .text settings.modelName),
   ("temperature", .real (.ofInt 1))]

/-- The parameters of the embedding model. -/
def embeddingParameters (settings : Settings) (key : String) : Fields :=
  [("openai_api_key", .text key), ("model", .text settings.embeddingModel)]

/-- The solver that the settings describe. -/
def ofSettings (settings : Settings) : Solver where
  store :=
    ⟨settings.indexName, settings.embeddingDimensions, settings.similarityFunction,
      some settings.databaseName⟩
  classifier := .classifier
  transcriber := if settings.transcribesByModel then some .solver else none
  topK := settings.topK

/-- Set a solver up (`build_service`). -/
def setUp {σ : Type} (outside : Outside σ) (settings : Settings) : Task σ Solver := do
  let key ← demand .modelKey settings.modelKey
  let uri ← demand .databaseAccess settings.databaseUri
  let user ← demand .databaseAccess settings.databaseUser
  let password ← demand .databaseAccess settings.databasePassword
  let _ ← Task.perform outside (.prepareModel (solverParameters settings key))
  let _ ← Task.perform outside (.prepareModel (classifierParameters settings key))
  let _ ← Task.perform outside (.prepareEmbedding (embeddingParameters settings key))
  Task.log .info "OpenAI initialized"
  let _ ← Task.perform outside (.connect uri user password)
  Task.log .info "Neo4j connection initialized"
  let solver := ofSettings settings
  let _ ← solver.store.createIndex outside
  pure solver

end Solver

end MathScribe
