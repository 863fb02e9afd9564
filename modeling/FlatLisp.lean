import FlatLisp.Eval
import FlatLisp.Proofs.Grammar
import FlatLisp.Proofs.Profile
import FlatLisp.Proofs.DepthLimit
import FlatLisp.Proofs.NumberText
import FlatLisp.Proofs.RoundTrip
import FlatLisp.Proofs.Agreement
import FlatLisp.Proofs.Provenance
import FlatLisp.Proofs.Sequencing
import FlatLisp.Proofs.Tokenization
import FlatLisp.Proofs.MachineSteps
import FlatLisp.Proofs.Failures
import FlatLisp.Proofs.Traps
import FlatLisp.Proofs.Unbound
import FlatLisp.Proofs.ExactIntegers
import FlatLisp.Proofs.Rounding
import FlatLisp.Proofs.Comparisons
import FlatLisp.Proofs.RunningResults
import FlatLisp.Proofs.CheckedReals
import FlatLisp.Proofs.FloatDifferences
import FlatLisp.Proofs.Distances
import FlatLisp.Proofs.CommonDivisors
import FlatLisp.Proofs.SquareRoots
import FlatLisp.Proofs.Arrangements
import FlatLisp.Proofs.Heights
import FlatLisp.Proofs.Independence
import FlatLisp.Proofs.Applying
import FlatLisp.Proofs.ExactSums
import FlatLisp.Proofs.Literals
import FlatLisp.Proofs.Respacing
import FlatLisp.Proofs.Mapping
import FlatLisp.Proofs.Extremes
import FlatLisp.Proofs.Equality
import FlatLisp.Proofs.Data
