import Reckoner.Expr.Substitution
import Reckoner.Main
import Reckoner.Operand
import Reckoner.Proofs.Console.Accidents
import Reckoner.Proofs.Console.Notation
import Reckoner.Proofs.Console.Rounding
import Reckoner.Proofs.Expr.Faithful
import Reckoner.Proofs.Expr.Image
import Reckoner.Proofs.Expr.Openings
import Reckoner.Proofs.Expr.Substitution
import Reckoner.Proofs.Expr.Value
import Reckoner.Proofs.Latex.Delimiters
import Reckoner.Proofs.Latex.Settled
import Reckoner.Proofs.Program.Agreement
import Reckoner.Proofs.Program.NormalForm
import Reckoner.Proofs.Scalar.Rounding
import Reckoner.Proofs.Scope.Circularity
import Reckoner.Proofs.Scope.Relevance
import Reckoner.Proofs.Scope.Requests
import Reckoner.Proofs.Settings.Saving
import Reckoner.Proofs.Solve.AtZero
import Reckoner.Proofs.Solve.Check
import Reckoner.Proofs.Solve.Evaluations
import Reckoner.Proofs.Solve.OneStep
import Reckoner.Proofs.Solve.Pivoting
import Reckoner.Proofs.Solve.Position
import Reckoner.Proofs.Solve.Solver
import Reckoner.Proofs.Trace.Solving
import Reckoner.Solve.LinearSystem
import Reckoner.Token.Given
