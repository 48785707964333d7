import Reckoner.Arity
import Reckoner.Binary64.CubeRoot
import Reckoner.Binary64.Magnitude
import Reckoner.Binary64.Remainder
import Reckoner.Calculator.Basic
import Reckoner.Calculator.Evaluate
import Reckoner.Calculator.Session
import Reckoner.CommandLine.Arguments
import Reckoner.CommandLine.Options
import Reckoner.CommandLine.Run
import Reckoner.Decimal.Basic
import Reckoner.Decimal.Literal
import Reckoner.Decimal.Positional
import Reckoner.Decimal.Rounding
import Reckoner.Decimal.Shortest
import Reckoner.Environment
import Reckoner.Expr.Basic
import Reckoner.Expr.Eval
import Reckoner.Expr.Reader
import Reckoner.Expr.Shape
import Reckoner.Failure
import Reckoner.Function.Basic
import Reckoner.Function.Builtin
import Reckoner.Lexeme
import Reckoner.Main
import Reckoner.Nesting
import Reckoner.Numeral
import Reckoner.Numeric.Gamma
import Reckoner.Numeric.Hyperbolic
import Reckoner.Scan
import Reckoner.Statement
import Reckoner.Table
import Reckoner.Text.Blank
import Reckoner.Text.Lines
import Reckoner.Text.Utf8
import Reckoner.Token
import Reckoner.Proofs.Nesting
import Reckoner.Proofs.Scan
import Reckoner.Proofs.Position
import Reckoner.Proofs.Table
import Reckoner.Proofs.Function.Refusal
import Reckoner.Proofs.Function.Standard
import Reckoner.Proofs.Grammar.Tree
import Reckoner.Proofs.Grammar.Yield
import Reckoner.Proofs.Grammar.Reading
import Reckoner.Proofs.Grammar.Soundness
import Reckoner.Proofs.Grammar.Sentence
import Reckoner.Proofs.Grammar.Frame
import Reckoner.Proofs.Grammar.Substitution
import Reckoner.Proofs.Grammar.Mention
import Reckoner.Proofs.Grammar.Spelling
import Reckoner.Proofs.Grammar.Spacing
import Reckoner.Proofs.Session.Step
import Reckoner.Proofs.Session.History
import Reckoner.Proofs.Session.Stability
import Reckoner.Proofs.Session.Result
import Reckoner.Proofs.Session.Noninterference
import Reckoner.Proofs.Session.Admission
import Reckoner.Proofs.Session.Independence
import Reckoner.Proofs.Session.Cause
import Reckoner.Proofs.Text.Utf8
import Reckoner.Proofs.Text.Lines
import Reckoner.Proofs.Text.Replacement
import Reckoner.Proofs.Lexical.Rules
import Reckoner.Proofs.Lexical.Numeral
import Reckoner.Proofs.Lexical.Munch
import Reckoner.Proofs.Lexical.Tokenize
import Reckoner.Proofs.Lexical.Separated
import Reckoner.Proofs.Lexical.Joined
import Reckoner.Proofs.Binary64.Exact
import Reckoner.Proofs.Binary64.Value
import Reckoner.Proofs.Binary64.Remainder
import Reckoner.Proofs.Binary64.CubeRoot
import Reckoner.Proofs.Binary64.Rounding
import Reckoner.Proofs.Binary64.Arithmetic
import Reckoner.Proofs.Binary64.Nearest
import Reckoner.Proofs.Decimal.Conversion
import Reckoner.Proofs.Binary64.Natural
import Reckoner.Proofs.Binary64.Fraction
import Reckoner.Proofs.Function.Counting
import Reckoner.Proofs.Numeric.Factorial
import Reckoner.Proofs.Numeric.Elementary
import Reckoner.Proofs.Numeric.Lanczos
import Reckoner.Proofs.Numeric.Pole
import Reckoner.Proofs.Decimal.Lowest
import Reckoner.Proofs.Decimal.Nearest
import Reckoner.Proofs.Decimal.Shortest
import Reckoner.Proofs.Lexical.NumberText
import Reckoner.Proofs.Numeral
import Reckoner.Proofs.Failure
import Reckoner.Proofs.Lexical.RoundTrip
import Reckoner.Proofs.Guarded.Range
import Reckoner.Proofs.Guarded.Activation
import Reckoner.Proofs.Guarded.Statement
import Reckoner.Proofs.CommandLine.Lines
import Reckoner.Proofs.CommandLine.Transcript
import Reckoner.Proofs.CommandLine.Invalid
