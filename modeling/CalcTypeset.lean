import CalcTypeset.Call.Usage
import CalcTypeset.Cell
import CalcTypeset.Decimal.Literal
import CalcTypeset.Journal.Step
import CalcTypeset.Proofs.Argument.Kept
import CalcTypeset.Proofs.Called.Nested
import CalcTypeset.Proofs.Called.Usage
import CalcTypeset.Proofs.Chain.Kept
import CalcTypeset.Proofs.Complete.Kept
import CalcTypeset.Proofs.Delimiter.Calls
import CalcTypeset.Proofs.Delimiter.Kept
import CalcTypeset.Proofs.Delimiter.Stack
import CalcTypeset.Proofs.DistinctNames
import CalcTypeset.Proofs.Divisions
import CalcTypeset.Proofs.Enclosed.Kept
import CalcTypeset.Proofs.Exchange.Constants
import CalcTypeset.Proofs.Exchange.Divide
import CalcTypeset.Proofs.Exchange.Line
import CalcTypeset.Proofs.Exponent
import CalcTypeset.Proofs.Failure
import CalcTypeset.Proofs.Lifetime
import CalcTypeset.Proofs.Located.Dividend
import CalcTypeset.Proofs.Located.Loop
import CalcTypeset.Proofs.Located.Outermost
import CalcTypeset.Proofs.Located.Place
import CalcTypeset.Proofs.Located.Replacement
import CalcTypeset.Proofs.Located.Scan
import CalcTypeset.Proofs.Namespace.Single
import CalcTypeset.Proofs.Nesting.Kept
import CalcTypeset.Proofs.NormalForm
import CalcTypeset.Proofs.Operands.Kept
import CalcTypeset.Proofs.Partner
import CalcTypeset.Proofs.Reference.Kept
import CalcTypeset.Proofs.Renaming.Rename
import CalcTypeset.Proofs.Rendering
import CalcTypeset.Proofs.Spacing.Summand
import CalcTypeset.Proofs.Styles
import CalcTypeset.Proofs.Substitution
import CalcTypeset.Proofs.Sum.Additivity
import CalcTypeset.Rendering
import CalcTypeset.Settings
import CalcTypeset.Variable
