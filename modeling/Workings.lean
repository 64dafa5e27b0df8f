import Workings.Bindings
import Workings.Bindings.Standard
import Workings.Calculus.Derivative
import Workings.Calculus.Integral
import Workings.Calculus.Rule
import Workings.Demonstration
import Workings.Expr.Basic
import Workings.Expr.Build
import Workings.Expr.Occurrence
import Workings.Expr.Order
import Workings.Expr.Parts
import Workings.Expr.Symbols
import Workings.Expr.Walk
import Workings.Fault
import Workings.LongHand.Addition
import Workings.LongHand.Columns
import Workings.LongHand.Multiplication
import Workings.LongHand.PlaceValue
import Workings.LongHand.Shortcut
import Workings.Main
import Workings.Message.Catalog
import Workings.Message.Phrasing
import Workings.Message.Template
import Workings.Number.Basic
import Workings.Number.Binary64
import Workings.Number.Decimal
import Workings.Number.Rounding
import Workings.Number.Text
import Workings.Options
import Workings.Proofs.Acting
import Workings.Proofs.Adding
import Workings.Proofs.Antiderivatives
import Workings.Proofs.Asides
import Workings.Proofs.Bases
import Workings.Proofs.Blocks
import Workings.Proofs.Braces
import Workings.Proofs.Building
import Workings.Proofs.CallRules
import Workings.Proofs.Chains
import Workings.Proofs.Collecting
import Workings.Proofs.Columns
import Workings.Proofs.Comparing
import Workings.Proofs.Deepening
import Workings.Proofs.DefiniteIntegrals
import Workings.Proofs.Derivations
import Workings.Proofs.Differentiating
import Workings.Proofs.Digits
import Workings.Proofs.Distributing
import Workings.Proofs.Ending
import Workings.Proofs.Endless
import Workings.Proofs.Equality
import Workings.Proofs.Equations
import Workings.Proofs.FactorOrder
import Workings.Proofs.Floats
import Workings.Proofs.Following
import Workings.Proofs.FreeSymbols
import Workings.Proofs.Germs
import Workings.Proofs.Grouping
import Workings.Proofs.Inserting
import Workings.Proofs.Integrands
import Workings.Proofs.LikeTerms
import Workings.Proofs.Likeness
import Workings.Proofs.Lockstep
import Workings.Proofs.LongProducts
import Workings.Proofs.Magnitudes
import Workings.Proofs.Meaning
import Workings.Proofs.Multiplying
import Workings.Proofs.Naturals
import Workings.Proofs.NearPowers
import Workings.Proofs.Nearest
import Workings.Proofs.NegatedProducts
import Workings.Proofs.NormalForm
import Workings.Proofs.NormalSolutions
import Workings.Proofs.Numerals
import Workings.Proofs.Occurrences
import Workings.Proofs.Opposites
import Workings.Proofs.Overflowing
import Workings.Proofs.Parallel
import Workings.Proofs.PlaceValues
import Workings.Proofs.Placeholders
import Workings.Proofs.PlainParts
import Workings.Proofs.PostOrder
import Workings.Proofs.Presentation
import Workings.Proofs.Preservation
import Workings.Proofs.Products
import Workings.Proofs.Reduction
import Workings.Proofs.Refusals
import Workings.Proofs.Rendering
import Workings.Proofs.Replacing
import Workings.Proofs.Replay
import Workings.Proofs.ReplayedProducts
import Workings.Proofs.ReplayedSums
import Workings.Proofs.Reports
import Workings.Proofs.Rewriting
import Workings.Proofs.Routine
import Workings.Proofs.Run
import Workings.Proofs.Sentences
import Workings.Proofs.Settled
import Workings.Proofs.Significands
import Workings.Proofs.SignificantDigits
import Workings.Proofs.Simplifying
import Workings.Proofs.Simultaneous
import Workings.Proofs.Slopes
import Workings.Proofs.SolvedProducts
import Workings.Proofs.SolvedSums
import Workings.Proofs.SplitFactors
import Workings.Proofs.Strictness
import Workings.Proofs.Substituting
import Workings.Proofs.SumsOfDerivatives
import Workings.Proofs.Symbols
import Workings.Proofs.Totals
import Workings.Proofs.Turning
import Workings.Proofs.Vocabulary
import Workings.Proofs.Words
import Workings.Proofs.WorkedProducts
import Workings.Proofs.WritingEnds
import Workings.Render.Latex
import Workings.Render.Plain
import Workings.Render.Shape
import Workings.Sheet.Basic
import Workings.Sheet.Entry
import Workings.Simplify.Basic
import Workings.Simplify.Calculus
import Workings.Simplify.Call
import Workings.Simplify.Literal
import Workings.Simplify.Power
import Workings.Simplify.Product
import Workings.Simplify.Siblings
import Workings.Simplify.Sum
import Workings.Solution.Document
import Workings.Solution.Sections
import Workings.Solution.Solve
import Workings.Text.Blank
import Workings.Text.Json
import Workings.Text.LowerCase
import Workings.Text.Table
