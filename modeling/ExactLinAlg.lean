import ExactLinAlg.Fraction.Command
import ExactLinAlg.Mat.Command
import ExactLinAlg.Random.Unimodular
import ExactLinAlg.Vec.Command
import ExactLinAlg.Proofs.BestApproximation
import ExactLinAlg.Proofs.BinaryOrder
import ExactLinAlg.Proofs.Canonical
import ExactLinAlg.Proofs.Decisions
import ExactLinAlg.Proofs.DotProduct
import ExactLinAlg.Proofs.ElementaryOps
import ExactLinAlg.Proofs.Expression
import ExactLinAlg.Proofs.FailedCalls
import ExactLinAlg.Proofs.Failures
import ExactLinAlg.Proofs.InverseSteps
import ExactLinAlg.Proofs.LargerBound
import ExactLinAlg.Proofs.NoOverflow
import ExactLinAlg.Proofs.Order
import ExactLinAlg.Proofs.Overflow
import ExactLinAlg.Proofs.PartUpdates
import ExactLinAlg.Proofs.PivotSearch
import ExactLinAlg.Proofs.Reduction
import ExactLinAlg.Proofs.Sampling
import ExactLinAlg.Proofs.Texts
import ExactLinAlg.Proofs.Transposition
import ExactLinAlg.Proofs.Unimodular
import ExactLinAlg.Proofs.VecOrder
