/-
The command that converts a text.

The command converts the text that is given to it, or the contents of a file, or the standard input,
whichever of these comes first, and writes the result with a line break behind it. The account of the
cache goes to the log. A file that cannot be read ends the command with an exit code.
-/
import MathScribe.Command.Outcome
import MathScribe.Conversion.Converter
import MathScribe.Service.Task
import MathScribe.Settings.Basic
import MathScribe.Text.Line

set_option autoImplicit false

namespace MathScribe

/-- Where the text to convert comes from. -/
inductive ConvertSource
  | text (text : String)
  | file (path : String)
  | standardInput
  deriving DecidableEq, Repr

/-- The source that is asked for: a text that is given, be it empty, comes before a file. -/
def ConvertSource.choose (text path : Option String) : ConvertSource :=
  match text, path with
  | some text, _ => .text text
  | none, some path => .file path
  | none, none => .standardInput

/-- The source that the settings ask for. -/
def ConvertSettings.source (settings : ConvertSettings) : ConvertSource :=
  .choose settings.text settings.inputPath

/-- The account of a cache in words. -/
def CacheStats.text (stats : CacheStats) : String :=
  "\x7b'entries': " ++ toString stats.entries ++ ", 'hits': " ++ toString stats.hits
    ++ ", 'misses': " ++ toString stats.misses ++ "\x7d"

/-- The text that a source brings, given what was read from the file or the standard input. The
failure names the file that could not be read. -/
def ConvertSource.content (contents : Option String) : ConvertSource → Except String String
  | .text given => .ok given
  | .file path =>
    match contents with
    | some lines => .ok (unifyLines lines)
    | none => .error path
  | .standardInput => .ok (contents.getD "")

/-- Convert a text, with the log record that tells how the cache was used. -/
def convertText (content : String) : Outcome String × List LogRecord :=
  let (converted, converter) := Converter.fresh.convert content.toList
  let result := String.ofList converted
  (.done (result ++ "\n") result, [⟨.info, "Cache stats: " ++ converter.cache.stats.text⟩])

/-- The command: convert what the source brings. The contents are those of the file or the standard
input, if they could be read. -/
def convertCommand (source : ConvertSource) (contents : Option String) :
    Outcome String × List LogRecord :=
  match source.content contents with
  | .ok content => convertText content
  | .error path => (.failure, [⟨.error, "Could not read " ++ path⟩])

end MathScribe
