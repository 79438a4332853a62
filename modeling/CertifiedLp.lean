import CertifiedLp.Extended.Text
import CertifiedLp.Simplex.Basic
import CertifiedLp.Solver.Scripted
import CertifiedLp.Relaxation.Consistency
import CertifiedLp.Relaxation.Dive
import CertifiedLp.Relaxation.Solve
import CertifiedLp.Proofs.Certificate.Acceptance
import CertifiedLp.Proofs.Incidence.Counts
import CertifiedLp.Proofs.Incidence.Merging
import CertifiedLp.Proofs.Incidence.Search
import CertifiedLp.Proofs.Matrix.Activation
import CertifiedLp.Proofs.Matrix.Freeing
import CertifiedLp.Proofs.Matrix.Linking
import CertifiedLp.Proofs.Matrix.Storing
import CertifiedLp.Proofs.Simplex.Infeasibility
import CertifiedLp.Proofs.Simplex.Optimality
import CertifiedLp.Proofs.Simplex.Prefixes
import CertifiedLp.Proofs.Simplex.Restarting
import CertifiedLp.Proofs.Simplex.Unboundedness
import CertifiedLp.Proofs.Matrix.Ledger
import CertifiedLp.Proofs.Matrix.Changing
import CertifiedLp.Proofs.Along
import CertifiedLp.Proofs.Matrix.Attaching
import CertifiedLp.Proofs.Matrix.Consistent
import CertifiedLp.Proofs.Matrix.Editing
import CertifiedLp.Proofs.Matrix.Seating
import CertifiedLp.Proofs.Relaxation.Actions
import CertifiedLp.Proofs.Relaxation.Mirroring
import CertifiedLp.Proofs.Relaxation.Recorded
import CertifiedLp.Proofs.Relaxation.Obsolescence
import CertifiedLp.Proofs.Relaxation.ObjectiveTotals
import CertifiedLp.Proofs.Matrix.Relinking
import CertifiedLp.Proofs.Relaxation.Alike
import CertifiedLp.Proofs.Relaxation.Ignoring
import CertifiedLp.Proofs.Relaxation.Repeating
import CertifiedLp.Proofs.Relaxation.Resyncing
import CertifiedLp.Proofs.Relaxation.Retrying
import CertifiedLp.Proofs.Relaxation.Verdicts
import CertifiedLp.Proofs.Relaxation.Conveying
import CertifiedLp.Proofs.Solver.Batches
import CertifiedLp.Proofs.Relaxation.Rollback
import CertifiedLp.Proofs.Relaxation.Lifetimes
import CertifiedLp.Proofs.Relaxation.Refusing
import CertifiedLp.Proofs.Relaxation.RoundTrip
import CertifiedLp.Proofs.Relaxation.Settling
import CertifiedLp.Proofs.Relaxation.Extremes
import CertifiedLp.Proofs.Relaxation.Aftermath
import CertifiedLp.Proofs.Extended.Numeral
import CertifiedLp.Proofs.Relaxation.Limiting
import CertifiedLp.Proofs.Relaxation.Idle
import CertifiedLp.Proofs.Extended.Rendering
import CertifiedLp.Proofs.Binary64.Rounding
import CertifiedLp.Proofs.Incidence.Calls
import CertifiedLp.Proofs.Incidence.Relocation
import CertifiedLp.Proofs.Simplex.Invariant
import CertifiedLp.Proofs.Incidence.Duplicates
import CertifiedLp.Proofs.Matrix.Visiting
import CertifiedLp.Proofs.Extended.Laws
import CertifiedLp.Proofs.Relaxation.Exceeding
import CertifiedLp.Proofs.Relaxation.Recalling
