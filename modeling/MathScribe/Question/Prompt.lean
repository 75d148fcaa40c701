/-
Prompts.

What the chat models are told. A prompt is a row of messages; the text that it is about is put into
it as it is, braces and backslashes included.
-/
import MathScribe.Question.Taxonomy

set_option autoImplicit false

namespace MathScribe

/-- Who speaks in a message. -/
inductive Speaker
  /-- The rules of the conversation. -/
  | system
  /-- The one who asks. -/
  | human
  deriving DecidableEq, Repr

/-- A message to a chat model. -/
structure Message where
  speaker : Speaker
  text : String
  deriving DecidableEq, Repr

namespace Prompt

/-- Ask for a solution step by step. -/
def solve (question : String) : List Message :=
  [⟨.human, "Solve the following math problem step by step give me the answer using LaTeX: "
    ++ question⟩]

/-- Ask for the type of a question. -/
def classify (question : String) : List Message :=
  [⟨.human, "Given the following math problem, identify its type from the predefined list ("
    ++ ", ".intercalate QuestionType.all ++ "). Answer with the type only: " ++ question⟩]

/-- Ask for a text with its LaTeX written as ASCIIMath. -/
def transcribe (text : String) : List Message :=
  [⟨.system, "You convert LaTeX to ASCIIMath. Rewrite every LaTeX expression in the user's text as "
      ++ "ASCIIMath and keep all other text unchanged. Reply with the converted text only."⟩,
   ⟨.human, text⟩]

end Prompt

end MathScribe
