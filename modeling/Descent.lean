import Descent.LinearSystem.ConjugateGradient
import Descent.Minimizer.FixedRate
import Descent.Minimizer.PolakRibiere
import Descent.Minimizer.SteepestDescent
import Descent.Objective.Postfix
import Descent.Proofs.Dimensions
import Descent.Proofs.Embedding
import Descent.Proofs.Euclidean
import Descent.Proofs.Exact
import Descent.Proofs.InnerProduct
import Descent.Proofs.LinearSystem.Conjugacy
import Descent.Proofs.LinearSystem.Curvature
import Descent.Proofs.LinearSystem.Divisions
import Descent.Proofs.LinearSystem.Iterations
import Descent.Proofs.LinearSystem.Limits
import Descent.Proofs.LinearSystem.Mirror
import Descent.Proofs.LinearSystem.Optimality
import Descent.Proofs.LinearSystem.Orthogonality
import Descent.Proofs.LinearSystem.Records
import Descent.Proofs.LinearSystem.Refusals
import Descent.Proofs.LinearSystem.Residual
import Descent.Proofs.LinearSystem.Termination
import Descent.Proofs.Loops
import Descent.Proofs.Minimizer.Agreement
import Descent.Proofs.Minimizer.Consistency
import Descent.Proofs.Minimizer.Decrease
import Descent.Proofs.Minimizer.Directions
import Descent.Proofs.Minimizer.Endings
import Descent.Proofs.Minimizer.Failures
import Descent.Proofs.Minimizer.FixedSteps
import Descent.Proofs.Minimizer.Histories
import Descent.Proofs.Minimizer.IterationBound
import Descent.Proofs.Minimizer.Orbit
import Descent.Proofs.Minimizer.Recurrence
import Descent.Proofs.Minimizer.Rise
import Descent.Proofs.Minimizer.Samples
import Descent.Proofs.Minimizer.Searches
import Descent.Proofs.Minimizer.Sizes
import Descent.Proofs.Minimizer.Smooth
import Descent.Proofs.Minimizer.Standstill
import Descent.Proofs.Minimizer.Totality
import Descent.Proofs.Program
import Descent.Proofs.Recording
import Descent.Proofs.StrongWolfe.Acceptance
import Descent.Proofs.StrongWolfe.Bracket
import Descent.Proofs.StrongWolfe.Budgets
import Descent.Proofs.StrongWolfe.Effects
import Descent.Proofs.StrongWolfe.Existence
import Descent.Proofs.StrongWolfe.Parabolas
import Descent.Proofs.StrongWolfe.Slices
import Descent.Proofs.StrongWolfe.Steps
import Descent.Proofs.StrongWolfe.Trials
import Descent.Proofs.StrongWolfe.Underway
import Descent.Proofs.StrongWolfe.Uphill
import Descent.Proofs.Traces
import Descent.Proofs.Truncation
import Descent.Proofs.Verdicts
import Descent.Space.Line
