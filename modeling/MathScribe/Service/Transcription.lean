/-
Transcription by a model.

LaTeX can be written as ASCIIMath by rule, or by a chat model. The model's text is preferred when it
says anything; when the model fails or says nothing, the text made by rule is taken.
-/
import MathScribe.Conversion.Converter
import MathScribe.Service.Task

set_option autoImplicit false

namespace MathScribe

/-- A text without the white space at either end. -/
def trimmed (text : String) : String :=
  String.ofList (trim text.toList)

/-- The preferred text when it says anything, else the other one (`choose_notation`). -/
def preferText (preferred : Option String) (other : String) : String :=
  match preferred with
  | some text => if isBlankText text.toList then other else text
  | none => other

namespace Transcription

variable {σ : Type} (outside : Outside σ)

/-- What a model writes for a text (`LLMNotationConverter.convert`): none when the model fails or
says nothing. An empty text is not shown to the model. -/
def byModel (model : Model) (text : String) : Task σ (Option String) :=
  if text = "" then pure none
  else do
    let reply ← Task.rescue
      (some <$> Task.perform outside (.ask model (Prompt.transcribe text)))
      (fun problem => do
        Task.log .warning ("LLM notation conversion failed: " ++ problem.message)
        pure none)
    pure ((reply.map trimmed).filter (· ≠ ""))

/-- The text in ASCIIMath: by the model, when there is one and it says anything, else by rule. -/
def ofText (model? : Option Model) (text : String) : Task σ String :=
  match model? with
  | none => pure (toAsciiMath text)
  | some model => do
    let preferred ← byModel outside model text
    pure (preferText preferred (toAsciiMath text))

end Transcription

end MathScribe
