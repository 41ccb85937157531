import EscapeAnalysis.Ir.Builder
import EscapeAnalysis.Ir.Listing
import EscapeAnalysis.Ir.Renumber
import EscapeAnalysis.Run.Script
import EscapeAnalysis.Text.Spelling
import EscapeAnalysis.Proofs.ReducedRuns
import EscapeAnalysis.Proofs.ElidedRuns
import EscapeAnalysis.Proofs.RebuiltObjects
import EscapeAnalysis.Proofs.ExceptionPaths
import EscapeAnalysis.Proofs.Nulls
import EscapeAnalysis.Proofs.PassLoops
import EscapeAnalysis.Proofs.PlannedCopies
import EscapeAnalysis.Proofs.PlannedStores
import EscapeAnalysis.Proofs.Accounting
import EscapeAnalysis.Proofs.MonitorPaths
import EscapeAnalysis.Proofs.MergeLeaves
import EscapeAnalysis.Proofs.PrunedRuns
import EscapeAnalysis.Proofs.Inheritance
import EscapeAnalysis.Proofs.ReplacementChains
