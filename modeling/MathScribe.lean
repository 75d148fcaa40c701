import MathScribe.Command.Convert
import MathScribe.Command.Solve
import MathScribe.Conversion.Pool
import MathScribe.Main
import MathScribe.Service.Script
import MathScribe.Settings.Provider
import MathScribe.Proofs.Conversion.Account
import MathScribe.Proofs.Conversion.Memo
import MathScribe.Proofs.Reading.Course
import MathScribe.Proofs.Reading.Row
import MathScribe.Proofs.Reading.Letters
import MathScribe.Proofs.Reading.Group
import MathScribe.Proofs.Reading.Summand
import MathScribe.Proofs.Latex.Balance
import MathScribe.Proofs.Latex.Reader
import MathScribe.Proofs.Latex.Replace
import MathScribe.Proofs.Latex.Clean
import MathScribe.Proofs.Latex.Fraction
import MathScribe.Proofs.Latex.Arrow
import MathScribe.Proofs.Latex.Operand
import MathScribe.Proofs.Reading.Formed
import MathScribe.Proofs.Reading.Grammar
import MathScribe.Proofs.Reading.Bracket
import MathScribe.Proofs.Writing.Row
import MathScribe.Proofs.Writing.Spelling
import MathScribe.Proofs.Writing.Precedence
import MathScribe.Proofs.Writing.RoundTrip
import MathScribe.Proofs.Writing.Stability
import MathScribe.Proofs.Writing.Value
import MathScribe.Proofs.Writing.Glue
import MathScribe.Proofs.Writing.Form
import MathScribe.Proofs.Latex.Names
import MathScribe.Proofs.Reading.Differential
import MathScribe.Proofs.Reading.Bounds
import MathScribe.Proofs.Latex.Bounds
import MathScribe.Proofs.Latex.Nesting
import MathScribe.Proofs.Latex.Preparation
import MathScribe.Proofs.Latex.Grouping
import MathScribe.Proofs.Latex.Slashes
import MathScribe.Proofs.Latex.PassThrough
import MathScribe.Proofs.Latex.Depth
import MathScribe.Proofs.Latex.Skipping
import MathScribe.Proofs.Reading.Continuation
import MathScribe.Proofs.Reading.Completeness
import MathScribe.Proofs.Reading.Composition
import MathScribe.Proofs.Reading.Span
import MathScribe.Proofs.Reading.Integral
import MathScribe.Proofs.Reading.BigOperator
import MathScribe.Proofs.Reading.Chain
import MathScribe.Proofs.Reading.Place
import MathScribe.Proofs.Reading.Pairing
import MathScribe.Proofs.Reading.Position
import MathScribe.Proofs.Reading.Cover
import MathScribe.Proofs.Page.Partition
import MathScribe.Proofs.Page.Prose
import MathScribe.Proofs.Service.Storing
import MathScribe.Proofs.Service.Trace
import MathScribe.Proofs.Service.Reporting
import MathScribe.Proofs.Service.Backfilling
import MathScribe.Proofs.Settings.Serving
