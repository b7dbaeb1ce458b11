import BundleAdjustment.Graph
import BundleAdjustment.Proofs.Linear.Rejection
import BundleAdjustment.Proofs.Linear.Kinds
import BundleAdjustment.Proofs.Linear.FlatForm
import BundleAdjustment.Proofs.Solver.Breakdown
import BundleAdjustment.Proofs.Solver.Residual
import BundleAdjustment.Proofs.Solver.Descent
import BundleAdjustment.Proofs.Graph.Gauge
import BundleAdjustment.Proofs.Observation.Unseen
import BundleAdjustment.Proofs.Observation.OneWhitening
import BundleAdjustment.Proofs.Geometry.Differential
import BundleAdjustment.Proofs.Geometry.Retraction
import BundleAdjustment.Proofs.Linear.Footprint
import BundleAdjustment.Proofs.Linear.Views
import BundleAdjustment.Proofs.Linear.Folding
import BundleAdjustment.Proofs.Geometry.Orthogonality
import BundleAdjustment.Proofs.Linear.Packing
import BundleAdjustment.Proofs.Graph.Indexing
import BundleAdjustment.Proofs.Linear.Closeness
import BundleAdjustment.Proofs.Symbols
import BundleAdjustment.Proofs.Linear.WhiteningLaws
import BundleAdjustment.Proofs.Solver.Semidefinite
